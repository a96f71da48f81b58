import StackLift.Build.Work
import StackLift.Text.Quoted

/-!
# Summaries

One line that names the registered plugins.
-/
namespace StackLift

def Plugins.summary (p : Plugins) : String :=
  "PluginRegistry \x7b invocation: " ++ Text.quotedList (p.calls.map (·.name)) ++
    ", inline_decision: " ++ Text.quotedList (p.inlining.map (·.name)) ++ " \x7d"

def Env.summary (e : Env) : String :=
  "BuildEnv \x7b plugins: " ++ e.plugins.summary ++ ", .. \x7d"

end StackLift
