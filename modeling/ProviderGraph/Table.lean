/-!
# Tables

A table maps keys to entries. Setting a key replaces its entry and leaves every other key alone.
-/

namespace ProviderGraph

/-- A finite map, as a list of pairs. -/
abbrev Table (κ α : Type) := List (κ × α)

namespace Table

variable {κ α : Type} [BEq κ]

def find? (t : Table κ α) (k : κ) : Option α := t.lookup k

def erase (t : Table κ α) (k : κ) : Table κ α := t.filter fun e => !(e.1 == k)

def set (t : Table κ α) (k : κ) (a : α) : Table κ α := (k, a) :: t.erase k

/-- Set the entry of a key, if a key is named. -/
def setSome (t : Table κ α) (k : Option κ) (a : α) : Table κ α :=
  match k with
  | some k => t.set k a
  | none => t

variable (t : Table κ α) (k k' : κ) (a : α)

@[simp] theorem find?_nil : find? ([] : Table κ α) k = none := rfl

@[simp] theorem setSome_none : t.setSome none a = t := rfl

variable [LawfulBEq κ]

theorem mem_of_find? {t : Table κ α} {k : κ} {a : α} (h : t.find? k = some a) : (k, a) ∈ t := by
  obtain ⟨l₁, l₂, rfl, -⟩ := List.lookup_eq_some_iff.mp h
  simp

theorem find?_erase_of_ne (h : k' ≠ k) : (t.erase k).find? k' = t.find? k' := by
  induction t with
  | nil => rfl
  | cons e t ih =>
    obtain ⟨l, b⟩ := e
    simp only [erase, find?] at ih
    by_cases hl : l = k
    · subst hl
      simp [erase, find?, List.lookup_cons, beq_false_of_ne h, ih]
    · simp [erase, find?, List.lookup_cons, hl, ih]

@[simp] theorem find?_set_self : (t.set k a).find? k = some a := by
  simp [set, find?]

theorem find?_set_of_ne (h : k' ≠ k) : (t.set k a).find? k' = t.find? k' := by
  rw [← t.find?_erase_of_ne k k' h]
  simp [set, find?, List.lookup_cons, beq_false_of_ne h]

end Table

end ProviderGraph
