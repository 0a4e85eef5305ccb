import Mathlib.Data.List.Sort
import ProviderGraph.Producer

/-!
# Joined producer trees

Producer trees are a monoid under `plus`, and what is seen of a tree follows the joining
(`joined_trees`): the work nodes of the one side are visited, then those of the other, and so for
their set and for whether there is any. The visit comes to every work node in the tree, once for
each place where it stands and in the order of the places (`visit_places`).
-/

namespace ProviderGraph

namespace Producer

/-! ### Equal trees -/

mutual
/-- The comparison of two trees tells whether they are equal. -/
theorem same_eq_true_iff (p q : Producer) : p.same q = true ↔ p = q := by
  match p with
  | .none | .unknown | .node _ => cases q <;> simp [same]
  | .union ps =>
    cases q with
    | union qs => simp [same, sameAll_eq_true_iff ps qs]
    | _ => simp [same]

theorem sameAll_eq_true_iff (ps qs : List Producer) : sameAll ps qs = true ↔ ps = qs := by
  match ps, qs with
  | [], [] | [], _ :: _ | _ :: _, [] => simp [sameAll]
  | p :: ps, q :: qs => simp [sameAll, same_eq_true_iff p q, sameAll_eq_true_iff ps qs]
end

instance : DecidableEq Producer := fun p q => decidable_of_iff _ (same_eq_true_iff p q)

/-! ### Joining -/

/-- Two trees that both count are the union of their parts. -/
theorem plus_of_ne_none {p q : Producer} (hp : p ≠ .none) (hq : q ≠ .none) :
    p.plus q = .union (p.parts ++ q.parts) := by
  cases p with
  | none => exact absurd rfl hp
  | _ =>
    cases q with
    | none => exact absurd rfl hq
    | _ => rfl

@[simp] theorem parts_union (ps : List Producer) : (union ps).parts = ps := rfl

/-- Trees can be joined in any grouping. -/
theorem plus_assoc (p q r : Producer) : (p.plus q).plus r = p.plus (q.plus r) := by
  by_cases hp : p = .none
  · simp [hp]
  by_cases hq : q = .none
  · simp [hq]
  by_cases hr : r = .none
  · simp [hr]
  -- a union that is joined counts, even one without parts
  rw [plus_of_ne_none hp hq, plus_of_ne_none hq hr, plus_of_ne_none (by simp) hr,
    plus_of_ne_none hp (by simp)]
  simp

/-! ### Visits -/

/-- The nodes of trees in a row are visited one tree after the other. -/
theorem visitAll_append (ps qs : List Producer) :
    visitAll (ps ++ qs) = visitAll ps ++ visitAll qs := by
  induction ps with
  | nil => rfl
  | cons p ps ih => simp only [List.cons_append, visitAll, ih, List.append_assoc]

theorem visitAll_parts (p : Producer) : visitAll p.parts = p.visit := by
  cases p with
  | union ps => rfl
  | _ => simp [parts, visitAll, visit]

/-- The work nodes of two trees that are joined. -/
theorem visit_plus (p q : Producer) : (p.plus q).visit = p.visit ++ q.visit := by
  by_cases hp : p = .none
  · simp [hp, visit]
  by_cases hq : q = .none
  · simp [hq, visit]
  rw [plus_of_ne_none hp hq, visit, visitAll_append, visitAll_parts, visitAll_parts]

mutual
/-- A tree names a work node where one is visited. -/
theorem isKnown_iff (p : Producer) : p.isKnown = true ↔ p.visit ≠ [] := by
  match p with
  | .none | .unknown | .node _ => simp [isKnown, visit]
  | .union ps => simp [isKnown, visit, anyKnown_iff ps]

theorem anyKnown_iff (ps : List Producer) : anyKnown ps = true ↔ visitAll ps ≠ [] := by
  match ps with
  | [] => simp [anyKnown, visitAll]
  | p :: ps => simp [anyKnown, visitAll, isKnown_iff p, anyKnown_iff ps, imp_iff_not_or]
end

theorem isKnown_plus (p q : Producer) : (p.plus q).isKnown = (p.isKnown || q.isKnown) := by
  rw [Bool.eq_iff_iff, Bool.or_eq_true]
  simp [isKnown_iff, visit_plus, imp_iff_not_or]

/-! ### Places -/

/-- The work node `name` stands at a place in a tree: the positions to go down by. -/
inductive At : Producer → List Nat → String → Prop where
  | node (name : String) : At (.node name) [] name
  | part {ps : List Producer} {p : Producer} {i : Nat} {place : List Nat} {name : String}
      (hp : ps[i]? = some p) (h : At p place name) : At (.union ps) (i :: place) name

mutual
/-- The work nodes of a tree with their places. -/
def places : Producer → List (List Nat × String)
  | .none => []
  | .unknown => []
  | .node name => [([], name)]
  | .union ps => placesFrom 0 ps

/-- The work nodes of a list of trees with their places, where the first tree is at position `i`. -/
def placesFrom (i : Nat) : List Producer → List (List Nat × String)
  | [] => []
  | p :: ps => p.places.map (fun a => (i :: a.1, a.2)) ++ placesFrom (i + 1) ps
end

mutual
/-- The nodes are visited by their places. -/
theorem visit_eq_places (p : Producer) : p.visit = p.places.map Prod.snd := by
  match p with
  | .none | .unknown | .node _ => simp [visit, places]
  | .union ps => simp [visit, places, visitAll_eq_placesFrom 0 ps]

theorem visitAll_eq_placesFrom (i : Nat) (ps : List Producer) :
    visitAll ps = (placesFrom i ps).map Prod.snd := by
  match ps with
  | [] => rfl
  | p :: ps =>
    simp [visitAll, placesFrom, visit_eq_places p, visitAll_eq_placesFrom (i + 1) ps]
end

/-- A place in a list of trees is a place in one of them. -/
theorem mem_placesFrom {i : Nat} {ps : List Producer} {place : List Nat} {name : String} :
    (place, name) ∈ placesFrom i ps ↔
      ∃ k p rest, place = (i + k) :: rest ∧ ps[k]? = some p ∧ (rest, name) ∈ p.places := by
  induction ps generalizing i with
  | nil => simp [placesFrom]
  | cons p ps ih =>
    rw [placesFrom, List.mem_append, ih]
    constructor
    · rintro (h | ⟨k, q, rest, rfl, hq, h⟩)
      · obtain ⟨a, ha, heq⟩ := List.mem_map.mp h
        cases heq
        exact ⟨0, p, a.1, rfl, rfl, ha⟩
      · exact ⟨k + 1, q, rest, by rw [Nat.add_right_comm, Nat.add_assoc], hq, h⟩
    · rintro ⟨_ | k, q, rest, rfl, hq, h⟩
      · cases hq
        exact .inl (List.mem_map.mpr ⟨(rest, name), h, rfl⟩)
      · exact .inr ⟨k, q, rest, by rw [Nat.add_right_comm, Nat.add_assoc], hq, h⟩

/-- The places are those where a work node stands. -/
theorem mem_places {p : Producer} {place : List Nat} {name : String} :
    (place, name) ∈ p.places ↔ p.At place name := by
  constructor
  · intro h
    induction place generalizing p with
    | nil =>
      cases p with
      | none | unknown => simp [places] at h
      | node other =>
        obtain rfl : name = other := by simpa [places] using h
        exact .node name
      | union ps =>
        obtain ⟨k, q, rest, heq, -⟩ := mem_placesFrom.mp (by simpa only [places] using h)
        cases heq
    | cons i place ih =>
      cases p with
      | none | unknown | node => simp [places] at h
      | union ps =>
        obtain ⟨k, q, rest, heq, hq, h⟩ := mem_placesFrom.mp (by simpa only [places] using h)
        obtain ⟨rfl, rfl⟩ := List.cons.inj heq
        rw [Nat.zero_add]
        exact .part hq (ih h)
  · intro h
    induction h with
    | node name => simp [places]
    | part hq _ ih =>
      rw [places]
      exact mem_placesFrom.mpr ⟨_, _, _, by rw [Nat.zero_add], hq, ih⟩

mutual
/-- The places of a tree are listed in increasing order. -/
theorem pairwise_places (p : Producer) : p.places.Pairwise fun a b => a.1 < b.1 := by
  match p with
  | .none | .unknown | .node _ => simp [places]
  | .union ps =>
    rw [places]
    exact pairwise_placesFrom 0 ps

theorem pairwise_placesFrom (i : Nat) (ps : List Producer) :
    (placesFrom i ps).Pairwise fun a b => a.1 < b.1 := by
  match ps with
  | [] => exact .nil
  | p :: ps =>
    rw [placesFrom, List.pairwise_append, List.pairwise_map]
    refine ⟨(pairwise_places p).imp fun h => List.cons_lt_cons_iff.mpr (.inr ⟨rfl, h⟩),
      pairwise_placesFrom (i + 1) ps, ?_⟩
    rintro a ha ⟨place, name⟩ hb
    -- all below the first tree stands before all below a later one
    obtain ⟨a, -, rfl⟩ := List.mem_map.mp ha
    obtain ⟨k, -, rest, rfl, -⟩ := mem_placesFrom.mp hb
    exact List.cons_lt_cons_iff.mpr (.inl (by omega))
end

/-- The visit comes to each work node once for each of its places, in the order of the places. -/
theorem visit_places (p : Producer) :
    ∃ places : List (List Nat × String), p.visit = places.map Prod.snd ∧
      places.Pairwise (fun a b => a.1 < b.1) ∧
      ∀ place name, (place, name) ∈ places ↔ p.At place name :=
  ⟨p.places, visit_eq_places p, pairwise_places p, fun _ _ => mem_places⟩

/-! ### Names -/

/-- The names of a tree are those that are visited. -/
theorem mem_names {name : String} {p : Producer} : name ∈ p.names ↔ name ∈ p.visit :=
  mem_sortNames

/-- Names are listed in increasing order, each once. -/
theorem pairwise_names (p : Producer) : p.names.Pairwise (· < ·) := pairwise_sortNames p.visit

/-- The names of a tree are the one sorted list of the work nodes it visits. -/
theorem eq_names_iff {p : Producer} {names : List String} :
    names = p.names ↔ names.Pairwise (· < ·) ∧ ∀ name, name ∈ names ↔ name ∈ p.visit := by
  constructor
  · rintro rfl
    exact ⟨pairwise_names p, fun _ => mem_names⟩
  · rintro ⟨hsorted, hmem⟩
    exact hsorted.eq_of_mem_iff (pairwise_names p) fun name => (hmem name).trans mem_names.symm

/-- The names do not depend on the order in which trees are joined. -/
theorem names_plus_comm (p q : Producer) : (p.plus q).names = (q.plus p).names := by
  refine eq_names_iff.mpr ⟨pairwise_names _, fun name => ?_⟩
  simp [mem_names, visit_plus, or_comm]

theorem isKnown_iff_names (p : Producer) : p.isKnown = true ↔ p.names ≠ [] := by
  have hnames : p.names = [] ↔ p.visit = [] := by
    simp [List.eq_nil_iff_forall_not_mem, mem_names]
  rw [isKnown_iff, Ne, Ne, hnames]

/-- Trees are a monoid under joining, and what is seen of them follows it. -/
theorem joined_trees (a b c : Producer) :
    ((a.plus b).plus c = a.plus (b.plus c) ∧ none.plus a = a ∧ a.plus none = a) ∧
    (∃ places : List (List Nat × String), a.visit = places.map Prod.snd ∧
      places.Pairwise (fun x y => x.1 < y.1) ∧
      ∀ place name, (place, name) ∈ places ↔ a.At place name) ∧
    (a.plus b).visit = a.visit ++ b.visit ∧
    (a.names.Pairwise (· < ·) ∧ ∀ name, name ∈ a.names ↔ name ∈ a.visit) ∧
    (∀ name, name ∈ (a.plus b).names ↔ name ∈ a.names ∨ name ∈ b.names) ∧
    (a.plus b).names = (b.plus a).names ∧
    (a.isKnown = true ↔ a.names ≠ []) ∧
    (a.plus b).isKnown = (a.isKnown || b.isKnown) := by
  refine ⟨⟨plus_assoc a b c, none_plus a, plus_none a⟩, visit_places a, visit_plus a b,
    ⟨pairwise_names a, fun _ => mem_names⟩, fun name => ?_, names_plus_comm a b,
    isKnown_iff_names a, isKnown_plus a b⟩
  simp [mem_names, visit_plus]

/-- A union without parts is not dropped, and a union of one part is not opened below the top. -/
example : ((union []).plus (node "b")).plus (union [union [node "a"]]) =
    union [node "b", union [node "a"]] := by decide

end Producer

end ProviderGraph
