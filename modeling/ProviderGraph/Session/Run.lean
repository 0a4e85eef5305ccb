import ProviderGraph.Engine
import ProviderGraph.Settings.Environment

/-!
# Sessions

A session runs its steps on a fresh thread. Of every step it reports the reply, the events noted
meanwhile, in their order, and the number of scopes left open.
-/

namespace ProviderGraph

/-- What a session tells of one step. -/
structure Report where
  reply : Reply
  events : List Event
  depth : Nat

namespace Session

def report (fuel : Nat) (s : Step) (m : Machine) : Option (Report × Machine) := do
  let (r, m) ← answer fuel (.step s) { m with events := [] }
  return (⟨r, m.events.reverse, m.stack.depth⟩, m)

def reports (fuel : Nat) : List Step → Machine → Option (List Report)
  | [], _ => some []
  | s :: ss, m => do
    let (r, m) ← report fuel s m
    return r :: (← reports fuel ss m)

/-- Run a session whose threads start with the given settings; nothing, if the fuel is used up. -/
def run (fuel : Nat) (settings : Settings) (steps : List Step) : Option (List Report) :=
  reports fuel steps (.fresh settings.maxDepth)

end Session

end ProviderGraph
