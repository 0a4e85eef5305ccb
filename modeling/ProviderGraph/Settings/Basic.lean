import ProviderGraph.Fault

/-!
# Settings

The one setting of the engine is the greatest number of scopes that may be nested on a thread. A
setting that comes from outside is at least one.
-/

namespace ProviderGraph

structure Settings where
  /-- The greatest number of nested scopes. -/
  maxDepth : Nat
deriving DecidableEq

namespace Settings

/-- The settings in effect when nothing else is said. -/
def standard : Settings := ⟨512⟩

def depthKey : String := "max_depth"

/-- The greatest depth that can be written down: depths are 64-bit numbers. -/
def greatestDepth : Nat := 0xffffffffffffffff

/-- Settings with the given depth, unless it is zero. -/
def ofDepth (n : Nat) : Except Fault Settings :=
  if n = 0 then .error (.invalidSettings (depthKey ++ " must be at least 1")) else .ok ⟨n⟩

@[simp] theorem ofDepth_zero :
    ofDepth 0 = .error (.invalidSettings (depthKey ++ " must be at least 1")) := rfl

@[simp] theorem ofDepth_succ (n : Nat) : ofDepth (n + 1) = .ok ⟨n + 1⟩ := by simp [ofDepth]

def render (s : Settings) : String := "\x7b\"" ++ depthKey ++ "\":" ++ toString s.maxDepth ++ "\x7d"

end Settings

end ProviderGraph
