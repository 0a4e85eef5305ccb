import ProviderGraph.Fault
import ProviderGraph.SideEffect

/-!
# Values

Evaluating a provider gives a value: a payload, which may carry a side effect that runs when the
value is unpacked, or nothing, with the path of names that says where a payload should have come
from. A missing value never carries an effect.
-/

namespace ProviderGraph

/-- The result of evaluating a provider. -/
inductive Value (δ : Type) where
  | present (x : Payload) (effect : Option (SideEffect δ))
  | missing (path : List String)

namespace Value

variable {δ : Type}

/-- A payload without effect, or a missing value with an empty path. -/
def ofOption : Option Payload → Value δ
  | some x => .present x none
  | none => .missing []

def isMissing : Value δ → Bool
  | .present _ _ => false
  | .missing _ => true

/-- The payload, without running the effect. -/
def payload? : Value δ → Option Payload
  | .present x _ => some x
  | .missing _ => none

/-- The effect that runs when the value is unpacked. -/
def effect? : Value δ → Option (SideEffect δ)
  | .present _ e => e
  | .missing _ => none

/-- Where the payload should have come from; empty when there is one. -/
def path : Value δ → List String
  | .present _ _ => []
  | .missing path => path

/-- The payload, and the deeds that unpacking it runs. -/
def unpack : Value δ → Except Fault (Payload × List (δ × Payload))
  | .present x e => .ok (x, SideEffect.deedsOf e x)
  | .missing path => .error (.missingValue path)

/-- Add an effect after the one the value carries. A missing value drops it. -/
def withEffect (e : Option (SideEffect δ)) : Value δ → Value δ
  | .present x old => .present x (SideEffect.composite old e)
  | .missing path => .missing path

/-- The effect of a value, bound to its payload. -/
def boundEffect : Value δ → Option (SideEffect δ)
  | .present x e => SideEffect.boundTo x e
  | .missing _ => none

/-- Replace the payload. The old effect stays bound to the old payload. -/
def transform (f : Payload → Payload) (v : Value δ) : Value δ :=
  match v with
  | .present x _ => (present (f x) none).withEffect v.boundEffect
  | .missing path => .missing path

/-- A missing value as it is, and nothing for a payload. -/
def asMissing : Value δ → Option (Value δ)
  | .present _ _ => none
  | .missing path => some (.missing path)

/-- Put a name in front of the path of a missing value. -/
def push (name : Option String) : Value δ → Value δ
  | .present x e => .present x e
  | .missing path => .missing (name.toList ++ path)

/-- Append the path of another value to that of a missing one. -/
def addPath : Value δ → Value δ → Value δ
  | .present x e, _ => .present x e
  | .missing path, other => .missing (path ++ other.path)

variable (x : Payload) (e : Option (SideEffect δ)) (names : List String) (v w : Value δ)

@[simp] theorem isMissing_present : (present x e).isMissing = false := rfl

@[simp] theorem isMissing_missing : (missing names : Value δ).isMissing = true := rfl

@[simp] theorem isMissing_withEffect : (v.withEffect e).isMissing = v.isMissing := by
  cases v <;> rfl

@[simp] theorem isMissing_push (name : Option String) : (v.push name).isMissing = v.isMissing := by
  cases v <;> rfl

@[simp] theorem isMissing_addPath : (v.addPath w).isMissing = v.isMissing := by
  cases v <;> rfl

@[simp] theorem path_withEffect : (v.withEffect e).path = v.path := by
  cases v <;> rfl

end Value

end ProviderGraph
