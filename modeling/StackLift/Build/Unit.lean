import StackLift.Build.Frequency
import StackLift.Build.Method
import StackLift.Build.Tidy
import StackLift.Graph.Check

/-!
# Building a unit

`build` lifts a root method, with everything it inlines, into one graph, tidies and checks the
graph, and estimates its loops. A build that fails hands out no graph. `buildTraced` also tells
which plugins were asked on the way, whether the build succeeds or not.
-/
namespace StackLift

/-- A finished unit. -/
structure Built where
  method : MethodId
  graph : Graph
  loops : List LoopFrequency
  report : Report
deriving Inhabited

/-- The method to build and its body. -/
def findRoot (h : Hierarchy) (m : MethodId) : Except Error (MethodDecl × Body) :=
  match h.lookupMethod m with
  | .error why => .error (.unresolvedRoot (.absent m why))
  | .ok decl =>
    match decl.body with
    | none => .error (.unresolvedRoot (.noBody m))
    | some body => .ok (decl, body)

/-- Adds one parameter node for each argument. -/
def Graph.addParameters (g : Graph) (kinds : List ValueKind) : List Value × Graph :=
  kinds.zipIdx.foldl
    (fun (args, g) (kind, index) =>
      let (n, g) := g.addNode (.parameter index) []
      (args ++ [⟨n, kind⟩], g))
    ([], g)

/-- What there is before the first block: the scope of the root, its frame and its parameters. -/
def prepare (env : Env) (config : Config) (m : MethodId) :
    Except Error (Scope × Frame × Graph) := do
  let (decl, body) ← findRoot env.hierarchy m
  let (args, graph) := Graph.addParameters {} decl.argKinds
  let f ← Frame.withArgs body.maxLocals args
  let scope ← Scope.ofMethod env config decl body [m] none false
  return (scope, f, graph)

/-- Tidies, checks and annotates what was lifted. -/
def finish (m : MethodId) (graph : Graph) (report : Report) : Except Error Built := do
  let graph ← graph.tidy
  graph.check
  let loops := graph.loopFrequencies
  return { method := m, graph := graph.annotate loops, loops, report }

/-- Lifts the root and what it inlines. There is something to lift if the root can be prepared. -/
def liftRoot (env : Env) (config : Config) (m : MethodId) :
    Except Error (EStateM.Result Error Work Exits) := do
  let (scope, f, graph) ← prepare env config m
  return BuildM.parse config.maxInliningDepth f none scope
    { graph, table := Table.blank scope.blocks.size }

def buildTraced (env : Env) (config : Config) (m : MethodId) :
    Except Error Built × Array Consultation :=
  match liftRoot env config m with
  | .error e => (.error e, #[])
  | .ok (.ok _ w) => (finish m w.graph w.report, w.consulted)
  | .ok (.error e w) => (.error e, w.consulted)

def build (env : Env) (config : Config) (m : MethodId) : Except Error Built :=
  (buildTraced env config m).1

/-- The bodies that a build parses: the root's and those that are inlined, up to a failure. -/
def parsedBodies (env : Env) (config : Config) (m : MethodId) : List Body :=
  match liftRoot env config m with
  | .error _ => []
  | .ok r => BuildM.parsedIn r

/-- Builds independent units. -/
def buildAll (env : Env) (config : Config) (ms : List MethodId) :
    List (MethodId × Except Error Built) :=
  ms.map fun m => (m, build env config m)

end StackLift
