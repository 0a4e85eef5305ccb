import ProviderGraph.Provider

/-!
# Properties

A property holds a provider that was set and one that serves as a convention while none is set. It
can be finalized, after which its value is kept, or closed to changes, after which it keeps the
provider it holds. Of the two locks, finalization is reported first.
-/

namespace ProviderGraph

/-- The state of a property. -/
structure Property where
  value : Option Provider
  convention : Option Provider
  /-- The work node that produces the property itself. -/
  attached : Option String
  /-- What produced the value that was kept. -/
  frozenProducer : Option Producer
  finalized : Bool
  finalizeOnRead : Bool
  changesDisallowed : Bool

namespace Property

def blank : Property := ⟨none, none, none, none, false, false, false⟩

/-- The provider that a property reads from. -/
def effective (s : Property) : Option Provider := s.value <|> s.convention

/-- A change of what a property holds, refused when the property is locked. -/
def change (label : String) (f : Property → Property) (s : Property) : Except Fault Property :=
  if s.finalized then .error (.finalized label)
  else if s.changesDisallowed then .error (.changesDisallowed label)
  else .ok (f s)

def setValue (p : Provider) (s : Property) : Property := { s with value := some p }

def clear (s : Property) : Property := { s with value := none }

def setConvention (p : Provider) (s : Property) : Property := { s with convention := some p }

def attach (node : String) (s : Property) : Property := { s with attached := some node }

/-- Have the property finalized by the first strict reading. -/
def markFinalizeOnRead (s : Property) : Property := { s with finalizeOnRead := true }

def disallowChanges (s : Property) : Property := { s with changesDisallowed := true }

/-- Keep a value for good, unless one is kept already. -/
def commit (frozen : Provider) (producer : Producer) (s : Property) : Property :=
  if s.finalized then s
  else { s with
    value := some frozen
    convention := none
    frozenProducer := some producer
    finalized := true }

/-- Whether a reading has to finalize the property first. -/
def mustFinalize (s : Property) : Reading → Bool
  | .strict => s.finalizeOnRead && !s.finalized
  | .lenient => false

@[simp] theorem effective_blank : blank.effective = none := rfl

@[simp] theorem finalized_commit (s : Property) (p : Provider) (t : Producer) :
    (s.commit p t).finalized = true := by
  rw [commit]
  split
  · assumption
  · rfl

/-- Only a strict reading finalizes, and only a property that is not finalized. -/
theorem mustFinalize_eq_true_iff {s : Property} {c : Reading} :
    s.mustFinalize c = true ↔ c = .strict ∧ s.finalizeOnRead = true ∧ s.finalized = false := by
  cases c <;> simp [mustFinalize]

theorem commit_of_finalized {s : Property} (h : s.finalized = true) (p : Provider) (t : Producer) :
    s.commit p t = s := by simp [commit, h]

end Property

end ProviderGraph
