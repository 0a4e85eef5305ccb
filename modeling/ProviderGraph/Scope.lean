import ProviderGraph.Fault

/-!
# Scopes

While an owner is evaluated its scope is open, and the open scopes of a thread form a stack. An
owner is known by its identity; its label is only shown. No owner can be on the stack twice, so
reaching one again is a cycle, and the stack cannot grow beyond its limit. Scopes may be closed in
any order.
-/

namespace ProviderGraph

/-- What tells one owner from another. -/
abbrev Identity := Nat

/-- Something that is evaluated under a scope of its own. -/
structure Owner where
  id : Identity
  label : String
deriving DecidableEq

/-- The open scopes of a thread, the innermost first, and how many there may be. -/
structure ScopeStack where
  frames : List Owner
  limit : Nat
deriving DecidableEq

namespace ScopeStack

variable (s : ScopeStack) (o : Owner) (i : Identity)

def empty (limit : Nat) : ScopeStack := ⟨[], limit⟩

def depth : Nat := s.frames.length

def isOpen : Bool := s.frames.any (·.id == i)

/-- The labels from the scope of an identity inwards, in the order of opening. -/
def cycleFrom : List String :=
  ((s.frames.map (·.label)).take ((s.frames.findIdx (·.id == i)) + 1)).reverse

/-- Open a scope. A cycle is reported before the limit is looked at. -/
def enter : Except Fault ScopeStack :=
  if s.isOpen o.id then .error (.circular (s.cycleFrom o.id ++ [o.label]))
  else if s.limit ≤ s.depth then .error (.tooDeep (s.depth + 1) s.limit)
  else .ok { s with frames := o :: s.frames }

/-- Close the scope of an identity, wherever it is on the stack. -/
def leave : ScopeStack := { s with frames := s.frames.eraseP (·.id == i) }

/-- Replace the limit. Open scopes stay open. -/
def setLimit (limit : Nat) : ScopeStack := { s with limit }

@[simp] theorem depth_empty (limit : Nat) : (empty limit).depth = 0 := rfl

@[simp] theorem frames_setLimit (limit : Nat) : (s.setLimit limit).frames = s.frames := rfl

@[simp] theorem limit_leave : (s.leave i).limit = s.limit := rfl

theorem enter_of_isOpen (h : s.isOpen o.id = true) :
    s.enter o = .error (.circular (s.cycleFrom o.id ++ [o.label])) := by simp [enter, h]

/-- Closing the scope that was opened last gives back the stack. -/
theorem leave_of_enter {t : ScopeStack} (h : s.enter o = .ok t) : t.leave o.id = s := by
  rw [enter] at h
  split at h
  · exact absurd h (by simp)
  · split at h
    · exact absurd h (by simp)
    · obtain rfl := Except.ok.inj h
      simp [leave]

end ScopeStack

end ProviderGraph
