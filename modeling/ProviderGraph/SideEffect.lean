import ProviderGraph.Payload

/-!
# Side effects

A side effect is a deed to be done on a payload when a value is unpacked. Effects run one after
the other, and an effect may be bound to a payload of its own, which it then gets whatever it is
run on. What an effect does on a payload is the list of its deeds with their payloads.
-/

namespace ProviderGraph

/-- Deeds to be done on a payload. -/
inductive SideEffect (δ : Type) where
  | deed (d : δ)
  /-- The effect, always on the given payload. -/
  | bound (x : Payload) (e : SideEffect δ)
  /-- One effect, then the other. -/
  | both (first second : SideEffect δ)

namespace SideEffect

variable {δ : Type}

/-- The deeds of an effect run on a payload, each with the payload it gets, in order. -/
def deeds : SideEffect δ → Payload → List (δ × Payload)
  | .deed d, x => [(d, x)]
  | .bound y e, _ => e.deeds y
  | .both a b, x => a.deeds x ++ b.deeds x

@[simp] theorem deeds_deed (d : δ) (x : Payload) : (deed d).deeds x = [(d, x)] := rfl

@[simp] theorem deeds_bound (e : SideEffect δ) (x y : Payload) :
    (bound y e).deeds x = e.deeds y := rfl

@[simp] theorem deeds_both (a b : SideEffect δ) (x : Payload) :
    (both a b).deeds x = a.deeds x ++ b.deeds x := rfl

/-- One effect and then another, where either may be absent. -/
def composite : Option (SideEffect δ) → Option (SideEffect δ) → Option (SideEffect δ)
  | none, b => b
  | a, none => a
  | some a, some b => some (.both a b)

/-- An effect bound to a payload, if there is one. -/
def boundTo (x : Payload) (e : Option (SideEffect δ)) : Option (SideEffect δ) := e.map (.bound x)

def deedsOf (e : Option (SideEffect δ)) (x : Payload) : List (δ × Payload) :=
  match e with
  | some e => e.deeds x
  | none => []

@[simp] theorem composite_none_left (b : Option (SideEffect δ)) : composite none b = b := by
  cases b <;> rfl

@[simp] theorem composite_none_right (a : Option (SideEffect δ)) : composite a none = a := by
  cases a <;> rfl

@[simp] theorem deedsOf_none (x : Payload) : deedsOf (none : Option (SideEffect δ)) x = [] := rfl

@[simp] theorem deedsOf_some (e : SideEffect δ) (x : Payload) :
    deedsOf (some e) x = e.deeds x := rfl

@[simp] theorem deedsOf_composite (a b : Option (SideEffect δ)) (x : Payload) :
    deedsOf (composite a b) x = deedsOf a x ++ deedsOf b x := by
  cases a <;> cases b <;> simp [composite]

@[simp] theorem deedsOf_boundTo (e : Option (SideEffect δ)) (x y : Payload) :
    deedsOf (boundTo y e) x = deedsOf e y := by
  cases e <;> rfl

end SideEffect

end ProviderGraph
