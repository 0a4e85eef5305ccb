import ProviderGraph.Scope

/-!
# The frames of a stack

What opening and closing scopes does to the frames, each looked up by its identity, and which labels
a cycle has.
-/

namespace ProviderGraph

namespace ScopeStack

variable {s t : ScopeStack} {o : Owner} {i j : Identity}

/-- The owner that is on the stack under an identity, the innermost if there were several. -/
def frameOf? (s : ScopeStack) (i : Identity) : Option Owner := s.frames.find? (·.id == i)

/-- An identity is open where an owner is on the stack under it. -/
theorem isOpen_iff : s.isOpen i = true ↔ ∃ o, s.frameOf? i = some o := by
  rw [← Option.isSome_iff_exists, frameOf?, List.find?_isSome, isOpen, List.any_eq_true]

/-- The owner that is found has the identity it was looked for under. -/
theorem id_of_frameOf? (h : s.frameOf? i = some o) : o.id = i := by
  simpa using List.find?_some h

theorem isOpen_of_frameOf? (h : s.frameOf? o.id = some o) : s.isOpen o.id = true :=
  isOpen_iff.mpr ⟨o, h⟩

/-- An identity is not open where no owner on the stack has it. -/
theorem isOpen_eq_false_iff : s.isOpen i = false ↔ ∀ o ∈ s.frames, o.id ≠ i := by
  simp [isOpen]

/-- A scope can be opened where its identity is not open and there is room. -/
theorem enter_eq_ok_iff :
    s.enter o = .ok t ↔
      s.isOpen o.id = false ∧ s.depth < s.limit ∧ t = { s with frames := o :: s.frames } := by
  rw [enter]
  split
  · next h => simp [h]
  · next h =>
    split
    · next hd => simp [Nat.not_lt.mpr hd]
    · next hd => simp [Bool.eq_false_iff.mpr h, Nat.not_le.mp hd, eq_comm]

/-- Opening a scope brings one owner to the stack. -/
theorem mem_frames_of_enter (h : s.enter o = .ok t) {p : Owner} (hp : p ∈ t.frames) :
    p = o ∨ p ∈ s.frames := by
  obtain ⟨-, -, rfl⟩ := enter_eq_ok_iff.mp h
  exact List.mem_cons.mp hp

/-- What is open stays open inside. -/
theorem isOpen_of_enter (h : s.enter o = .ok t) (hi : s.isOpen i = true) : t.isOpen i = true := by
  obtain ⟨-, -, rfl⟩ := enter_eq_ok_iff.mp h
  rw [isOpen, List.any_cons]
  exact Bool.or_eq_true_iff.mpr (.inr hi)

/-- The scope that was opened is the innermost one. -/
theorem frameOf?_of_enter (h : s.enter o = .ok t) : t.frameOf? o.id = some o := by
  obtain ⟨-, -, rfl⟩ := enter_eq_ok_iff.mp h
  simp [frameOf?]

/-- Opening a scope hides no other one. -/
theorem frameOf?_of_enter_of_ne (h : s.enter o = .ok t) (hi : i ≠ o.id) :
    t.frameOf? i = s.frameOf? i := by
  obtain ⟨-, -, rfl⟩ := enter_eq_ok_iff.mp h
  simp [frameOf?, hi.symm]

/-- Closing a scope leaves the others alone. -/
theorem frameOf?_leave_of_ne (h : i ≠ j) : (s.leave j).frameOf? i = s.frameOf? i := by
  simp only [leave, frameOf?]
  induction s.frames with
  | nil => rfl
  | cons o os ih =>
    by_cases hj : o.id = j
    · simp [hj, h.symm]
    · simp [hj, List.find?_cons, ih]

/-- Closing a scope leaves other scopes open. -/
theorem isOpen_leave_of_ne (h : i ≠ j) : (s.leave j).isOpen i = s.isOpen i := by
  rw [Bool.eq_iff_iff, isOpen_iff, isOpen_iff, frameOf?_leave_of_ne h]

/-- Closing the scopes that registers keep leaves other scopes alone. -/
theorem frameOf?_foldl_leave {es : List (String × Identity)} (h : ∀ e ∈ es, i ≠ e.2) :
    (es.foldl (fun s e => s.leave e.2) s).frameOf? i = s.frameOf? i := by
  induction es generalizing s with
  | nil => rfl
  | cons e es ih =>
    rw [List.foldl_cons, ih fun e he => h e (List.mem_cons_of_mem _ he)]
    exact frameOf?_leave_of_ne (h e List.mem_cons_self)

/-- The labels reported for an open scope start with its own. -/
theorem cycleFrom_of_frameOf? (h : s.frameOf? o.id = some o) :
    ∃ inner, s.cycleFrom o.id = o.label :: inner := by
  obtain ⟨frames, limit⟩ := s
  simp only [frameOf?, cycleFrom] at h ⊢
  induction frames with
  | nil => simp at h
  | cons p os ih =>
    by_cases hp : p.id = o.id
    · simp only [hp, beq_self_eq_true, List.find?_cons_of_pos, Option.some.injEq] at h
      exact ⟨[], by simp [List.findIdx_cons, h]⟩
    · simp only [List.find?_cons, beq_false_of_ne hp] at h
      obtain ⟨inner, ih⟩ := ih h
      refine ⟨inner ++ [p.label], ?_⟩
      simp only [List.map_cons, List.findIdx_cons, beq_false_of_ne hp, cond_false,
        List.take_succ_cons, List.reverse_cons, ih, List.cons_append]

/-- The labels from an open scope inwards, where the frames are known. -/
theorem cycleFrom_append {inner outer : List Owner} (h : ∀ p ∈ inner, p.id ≠ o.id)
    (hs : s.frames = inner ++ o :: outer) :
    s.cycleFrom o.id = o.label :: inner.reverse.map Owner.label := by
  obtain ⟨frames, limit⟩ := s
  obtain rfl : frames = _ := hs
  simp only [cycleFrom]
  induction inner with
  | nil => simp [List.findIdx_cons]
  | cons p inner ih =>
    have hp := h p List.mem_cons_self
    have ih := ih fun q hq => h q (List.mem_cons_of_mem p hq)
    simp only [List.cons_append, List.map_cons, List.findIdx_cons, beq_false_of_ne hp, cond_false,
      List.take_succ_cons, List.reverse_cons, ih]
    rw [List.map_append]
    rfl

end ScopeStack

end ProviderGraph
