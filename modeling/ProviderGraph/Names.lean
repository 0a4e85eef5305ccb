/-!
# Sorted names

Names are ordered by their code points. A set of names is listed in that order, each name once.
-/

namespace ProviderGraph

/-- Put a name into a sorted list, unless it is there. -/
def insertName (name : String) : List String → List String
  | [] => [name]
  | head :: tail =>
    if name < head then name :: head :: tail
    else if name = head then head :: tail
    else head :: insertName name tail

/-- The names of a list in order, each once. -/
def sortNames (names : List String) : List String := names.foldr insertName []

@[simp] theorem sortNames_nil : sortNames [] = [] := rfl

@[simp] theorem sortNames_cons (name : String) (names : List String) :
    sortNames (name :: names) = insertName name (sortNames names) := rfl

theorem mem_insertName {name x : String} {names : List String} :
    x ∈ insertName name names ↔ x = name ∨ x ∈ names := by
  induction names with
  | nil => simp [insertName]
  | cons head tail ih =>
    rw [insertName]
    split
    · simp
    · split
      · next h => simp [h]
      · simp [ih, or_left_comm]

theorem pairwise_insertName {name : String} {names : List String} (h : names.Pairwise (· < ·)) :
    (insertName name names).Pairwise (· < ·) := by
  induction names with
  | nil => exact List.pairwise_singleton _ _
  | cons head tail ih =>
    obtain ⟨hhead, htail⟩ := List.pairwise_cons.mp h
    rw [insertName]
    split
    · next hlt =>
      refine List.pairwise_cons.mpr ⟨fun x hx => ?_, h⟩
      cases hx with
      | head => exact hlt
      | tail _ hx => exact String.lt_trans hlt (hhead x hx)
    · next hlt =>
      split
      · exact h
      · next hne =>
        refine List.pairwise_cons.mpr ⟨fun x hx => ?_, ih htail⟩
        rcases mem_insertName.mp hx with rfl | hx
        · exact String.not_le.mp fun hle => hne (String.le_antisymm hle (String.not_lt.mp hlt))
        · exact hhead x hx

/-- Sorted names stand in order, each once. -/
theorem pairwise_sortNames (names : List String) : (sortNames names).Pairwise (· < ·) := by
  induction names with
  | nil => exact .nil
  | cons name names ih => exact pairwise_insertName ih

/-- Sorting keeps the set of names. -/
theorem mem_sortNames {x : String} {names : List String} : x ∈ sortNames names ↔ x ∈ names := by
  induction names with
  | nil => simp
  | cons head tail ih => simp [mem_insertName, ih]

end ProviderGraph
