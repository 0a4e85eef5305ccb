import ProviderGraph.Provider

/-!
# Classifications

Ahead of execution a provider is classified: its payload is fixed for good, or it has to be
evaluated again through a provider, or it has none and never will.
-/

namespace ProviderGraph

/-- What is known of a provider's payload ahead of execution. -/
inductive Classification where
  | fixed (x : Payload) (effect : Option Effect)
  | changing (p : Provider)
  | missing (path : List String)

namespace Classification

/-- A value that has been computed, as a classification. -/
def ofValue : Outcome → Classification
  | .present x e => .fixed x e
  | .missing path => .missing path

/-- The value that a classification stands for. A changing one stands for none. -/
def toValue : Classification → Option Outcome
  | .fixed x e => some ((Value.present x none).withEffect e)
  | .changing _ => none
  | .missing path => some (.missing path)

def isFixed : Classification → Bool
  | .fixed _ _ => true
  | _ => false

def isChanging : Classification → Bool
  | .changing _ => true
  | _ => false

def isMissing : Classification → Bool
  | .missing _ => true
  | _ => false

def fixed? : Classification → Option Payload
  | .fixed x _ => some x
  | _ => none

/-- The provider to evaluate again, if there is one. -/
def changing? : Classification → Option Provider
  | .changing p => some p
  | _ => none

@[simp] theorem toValue_ofValue (v : Outcome) : (ofValue v).toValue = some v := by
  cases v <;> simp [ofValue, toValue, Value.withEffect]

end Classification

end ProviderGraph
