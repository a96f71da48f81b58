import StackLift.Program.Decl
import StackLift.Search

/-!
# Class hierarchies

A hierarchy is the history of its registrations. A second declaration of an id replaces the first
wherever the id is looked up, but the links that the first one made stay: it is still listed below
its supertypes, or in its type.

A method overrides another if it is declared below it under the same name and is not static.
Methods and types can be marked as unresolved; then no lookup finds them.
-/
namespace StackLift

structure Hierarchy where
  types : List TypeDecl := []       -- latest first
  methods : List MethodDecl := []   -- latest first
  unresolvedMethods : List MethodId := []
  unresolvedTypes : List TypeId := []
deriving DecidableEq, Repr, Inhabited

namespace Hierarchy

/-! ## Registration -/

def addType (h : Hierarchy) (t : TypeDecl) : Hierarchy := { h with types := t :: h.types }

def addMethod (h : Hierarchy) (m : MethodDecl) : Hierarchy :=
  { h with methods := m :: h.methods }

def markMethod (h : Hierarchy) (m : MethodId) : Hierarchy :=
  { h with unresolvedMethods := m :: h.unresolvedMethods }

def markType (h : Hierarchy) (t : TypeId) : Hierarchy :=
  { h with unresolvedTypes := t :: h.unresolvedTypes }

/-! ## Lookup -/

/-- The declaration in force, marked or not. -/
def typeDecl? (h : Hierarchy) (t : TypeId) : Option TypeDecl := h.types.find? (·.id = t)

/-- The declaration in force, marked or not. -/
def methodDecl? (h : Hierarchy) (m : MethodId) : Option MethodDecl := h.methods.find? (·.id = m)

def lookupType (h : Hierarchy) (t : TypeId) : Except Absence TypeDecl :=
  if t ∈ h.unresolvedTypes then .error .marked
  else match h.typeDecl? t with
    | some d => .ok d
    | none => .error .notLoaded

def lookupMethod (h : Hierarchy) (m : MethodId) : Except Absence MethodDecl :=
  if m ∈ h.unresolvedMethods then .error .marked
  else match h.methodDecl? m with
    | some d => .ok d
    | none => .error .notLoaded

def resolved? (h : Hierarchy) (m : MethodId) : Option MethodDecl := (h.lookupMethod m).toOption

/-- The number of methods that have a declaration. -/
def methodCount (h : Hierarchy) : Nat := (h.methods.map (·.id)).eraseDups.length

/-! ## Subtypes -/

def parents (h : Hierarchy) (t : TypeId) : List TypeId :=
  match h.typeDecl? t with
  | some d => d.parents
  | none => []

/-- Every registration below `t`, in order. -/
def children (h : Hierarchy) (t : TypeId) : List TypeId :=
  h.types.reverse.flatMap fun d => (d.parents.filter (· = t)).map fun _ => d.id

/-- A path through declared types meets each of them once. -/
def searchDepth (h : Hierarchy) : Nat := h.types.length + 2

/-- `t` and everything above it. -/
def supertypes (h : Hierarchy) (t : TypeId) : List TypeId :=
  (Search.visit h.parents h.searchDepth {} t).seen

/-- `t` and everything below it. -/
def subtree (h : Hierarchy) (t : TypeId) : List TypeId :=
  (Search.visit h.children h.searchDepth {} t).seen

def isSubtype (h : Hierarchy) (sub sup : TypeId) : Bool := decide (sup ∈ h.supertypes sub)

/-! ## Dispatch -/

/-- The methods registered in `t`, in order. -/
def declaredIn (h : Hierarchy) (t : TypeId) : List MethodId :=
  (h.methods.reverse.filter (·.holder = t)).map (·.id)

/-- The first resolved instance method called `name` that is declared in `t` itself. -/
def declared? (h : Hierarchy) (t : TypeId) (name : String) : Option MethodDecl :=
  ((h.declaredIn t).filterMap h.resolved?).find? fun m => m.name == name && !m.isStatic

/-- The nearest declaration of `name` from `t` upwards along the superclasses. -/
def inherited? (h : Hierarchy) (name : String) : Nat → TypeId → Option MethodDecl
  | 0, _ => none
  | fuel + 1, t =>
    match h.declared? t name with
    | some m => some m
    | none =>
      match (h.typeDecl? t).bind (·.superclass) with
      | some s => inherited? h name fuel s
      | none => none

/-- The method that a call of `m` runs on a receiver whose exact type is `receiver`. A static
method is its own implementation; an abstract declaration hides the ones above it. -/
def implementation? (h : Hierarchy) (m : MethodId) (receiver : TypeId) : Option MethodId := do
  let d ← h.resolved? m
  if d.isStatic then return m
  let found ← h.inherited? d.name h.searchDepth receiver
  if found.isConcrete then return found.id
  none

/-- The concrete methods that a call of `d` can reach in the types below its own. -/
def overriders (h : Hierarchy) (d : MethodDecl) : List MethodId :=
  ((h.subtree d.holder).filter (· ≠ d.holder)).filterMap fun t => do
    let found ← h.declared? t d.name
    if found.isConcrete then return found.id
    none

/-- The only concrete method that a call of `m` can run, whatever the receiver. -/
def uniqueImplementation? (h : Hierarchy) (m : MethodId) : Option MethodId := do
  let d ← h.resolved? m
  if d.isStatic then return m
  match ((if d.isConcrete then [m] else []) ++ h.overriders d).eraseDups with
  | [only] => some only
  | _ => none

end Hierarchy

end StackLift
