import Mathlib.Data.List.Nodup
import ProviderGraph.Proofs.Engine.PosedQuestions
import ProviderGraph.Proofs.Scope.Frames

/-!
# Open scopes stay open

User code opens and closes scopes as it likes, but only scopes of its own: a scope that is open when
an evaluation starts, and that no register keeps, is open whenever the evaluation poses a question
on its thread and when it ends (`Eval.run_holds`, `Eval.Poses.holds`).
-/

namespace ProviderGraph

/-! ### Scopes that are out of reach -/

/-- The scopes of `os` are open and out of reach of the registers, which keep open scopes, each of
them once. -/
structure Machine.Holds (m : Machine) (os : List Owner) : Prop where
  isOpen : ∀ o ∈ os, m.stack.frameOf? o.id = some o
  apart : ∀ e ∈ m.locals.scopes, ∀ o ∈ os, o.id ≠ e.2
  kept : ∀ e ∈ m.locals.scopes, m.stack.isOpen e.2 = true
  once : (m.locals.scopes.map (·.2)).Nodup

namespace Machine.Holds

variable {m n : Machine} {os : List Owner} {o : Owner} {s : ScopeStack}

/-- Only the stack and the registers of scopes matter. -/
theorem congr (h : m.Holds os) (hs : n.stack.frames = m.stack.frames)
    (hl : n.locals.scopes = m.locals.scopes) : n.Holds os where
  isOpen := by simpa [ScopeStack.frameOf?, hs] using h.isOpen
  apart := by simpa [hl] using h.apart
  kept := by simpa [ScopeStack.isOpen, hs, hl] using h.kept
  once := by simpa [hl] using h.once

theorem fresh (h : m.Holds os) : Holds { m with supply := m.supply + 1 } os := h.congr rfl rfl

/-- What another thread does leaves the scopes of this one alone. -/
theorem onThread (h : m.Holds os) : Holds { n with stack := m.stack, locals := m.locals } os :=
  h.congr rfl rfl

theorem mono {ps : List Owner} (h : m.Holds os) (hp : ∀ o ∈ ps, o ∈ os) : m.Holds ps where
  isOpen o ho := h.isOpen o (hp o ho)
  apart e he o ho := h.apart e he o (hp o ho)
  kept := h.kept
  once := h.once

/-- With empty registers nothing has to be known of the stack. -/
theorem of_scopes_eq_nil (h : m.locals.scopes = []) : m.Holds [] where
  isOpen := by simp
  apart := by simp [h]
  kept := by simp [h]
  once := by simp [h]

/-- None of the scopes has an identity that is not open. -/
theorem ne_of_not_isOpen (h : m.Holds os) {i : Identity} (hi : m.stack.isOpen i = false) :
    ∀ p ∈ os, p.id ≠ i := by
  rintro p hp rfl
  simp [ScopeStack.isOpen_of_frameOf? (h.isOpen p hp)] at hi

/-- A scope that can be opened is none of those. -/
theorem ne_of_enter (h : m.Holds os) (ho : m.stack.enter o = .ok s) : ∀ p ∈ os, p.id ≠ o.id :=
  h.ne_of_not_isOpen (ScopeStack.enter_eq_ok_iff.mp ho).1

/-- No register keeps what is not open. -/
theorem register_ne_of_not_isOpen (h : m.Holds os) {i : Identity} (hi : m.stack.isOpen i = false) :
    ∀ e ∈ m.locals.scopes, e.2 ≠ i := by
  rintro e he rfl
  simp [h.kept e he] at hi

/-- A scope that was opened is held. -/
theorem enter (h : m.Holds os) (ho : m.stack.enter o = .ok s) :
    Holds { m with stack := s } (o :: os) := by
  obtain ⟨hc, -, -⟩ := ScopeStack.enter_eq_ok_iff.mp ho
  have hne := h.register_ne_of_not_isOpen hc
  refine ⟨?_, ?_, ?_, h.once⟩
  · intro p hp
    rcases List.mem_cons.mp hp with rfl | hp
    · exact ScopeStack.frameOf?_of_enter ho
    · exact (ScopeStack.frameOf?_of_enter_of_ne ho (h.ne_of_not_isOpen hc p hp)).trans
        (h.isOpen p hp)
  · intro e he p hp
    rcases List.mem_cons.mp hp with rfl | hp
    · exact (hne e he).symm
    · exact h.apart e he p hp
  · intro e he
    obtain ⟨p, hp⟩ := ScopeStack.isOpen_iff.mp (h.kept e he)
    exact ScopeStack.isOpen_iff.mpr
      ⟨p, (ScopeStack.frameOf?_of_enter_of_ne ho (hne e he)).trans hp⟩

/-- Closing a scope that is held lets go of it alone. -/
theorem leave (h : m.Holds (o :: os)) (ho : ∀ p ∈ os, p.id ≠ o.id) :
    Holds { m with stack := m.stack.leave o.id } os where
  isOpen p hp := (ScopeStack.frameOf?_leave_of_ne (ho p hp)).trans
    (h.isOpen p (List.mem_cons_of_mem _ hp))
  apart e he p hp := h.apart e he p (List.mem_cons_of_mem _ hp)
  kept e he := (ScopeStack.isOpen_leave_of_ne (h.apart e he o List.mem_cons_self).symm).trans
    (h.kept e he)
  once := h.once

/-- Closing the scope kept in a register closes none that is held. -/
theorem closeScope (h : m.Holds os) (name : String) : (m.closeScope name).Holds os := by
  rw [Machine.closeScope]
  split
  · next i hi =>
    have hmem := Table.mem_of_find? hi
    have hsub : ∀ e ∈ m.locals.scopes.erase name, e ∈ m.locals.scopes ∧ e.2 ≠ i := by
      intro e he
      obtain ⟨he, hk⟩ := List.mem_filter.mp he
      refine ⟨he, fun hei => ?_⟩
      -- the registers keep different scopes, so the entry would be the one that is closed
      have := List.inj_on_of_nodup_map h.once he hmem hei
      simp [this] at hk
    refine ⟨fun o ho => ?_, fun e he => h.apart e (hsub e he).1, fun e he => ?_, ?_⟩
    · exact (ScopeStack.frameOf?_leave_of_ne (h.apart _ hmem o ho)).trans (h.isOpen o ho)
    · exact (ScopeStack.isOpen_leave_of_ne (hsub e he).2).trans (h.kept e (hsub e he).1)
    · exact h.once.sublist (List.filter_sublist.map _)
  · exact h

/-- Keeping a new scope in a register closes none that is held. -/
theorem openScope (h : m.Holds os) {name : String} (hn : m.openScope name o = .ok n) :
    n.Holds os := by
  cases hs : m.stack.enter o with
  | error f => simp [Machine.openScope, hs, bind, Except.bind] at hn
  | ok s =>
    have h' := (h.enter hs).closeScope name
    simp only [Machine.openScope, hs, bind, Except.bind, pure, Except.pure,
      Except.ok.injEq] at hn
    subst hn
    have hc := (ScopeStack.enter_eq_ok_iff.mp hs).1
    refine ⟨fun p hp => h'.isOpen p (List.mem_cons_of_mem _ hp), ?_, ?_, ?_⟩
    · intro e he p hp
      rcases List.mem_cons.mp he with rfl | he
      · exact h.ne_of_not_isOpen hc p hp
      · exact h'.apart e (List.mem_filter.mp he).1 p (List.mem_cons_of_mem _ hp)
    · intro e he
      rcases List.mem_cons.mp he with rfl | he
      · exact ScopeStack.isOpen_of_frameOf? (h'.isOpen o List.mem_cons_self)
      · exact h'.kept e (List.mem_filter.mp he).1
    · refine List.nodup_cons.mpr ⟨fun hmem => ?_, h'.once.sublist (List.filter_sublist.map _)⟩
      obtain ⟨e, he, hei⟩ := List.mem_map.mp hmem
      exact h'.apart e (List.mem_filter.mp he).1 o List.mem_cons_self hei.symm

/-- No change of the machine closes a scope that is held. -/
theorem after (h : m.Holds os) (c : Change) : (m.after c).Holds os := by
  cases c with
  | closeScope name => exact h.closeScope name
  | _ => exact h.congr rfl rfl

def keptScopes (m : Machine) : List Owner :=
  m.locals.scopes.filterMap fun e => m.stack.frameOf? e.2

/-- A part with registers of its own has those of the others out of reach. -/
theorem ownLocals (h : m.Holds os) :
    Holds { m with locals := .empty } (os ++ keptScopes m) where
  isOpen o ho := by
    rcases List.mem_append.mp ho with ho | ho
    · exact h.isOpen o ho
    · obtain ⟨e, -, he⟩ := List.mem_filterMap.mp ho
      exact (congrArg _ (ScopeStack.id_of_frameOf? he)).trans he
  apart := by simp [Locals.empty]
  kept := by simp [Locals.empty]
  once := by simp [Locals.empty]

/-- At its end the part closes none of them. -/
theorem dropLocals (h : m.Holds os) (hn : n.Holds (os ++ keptScopes m)) :
    (Eval.dropLocals m n).Holds os := by
  have hopen : ∀ o ∈ os ++ keptScopes m, (Eval.dropLocals m n).stack.frameOf? o.id = some o :=
    fun o ho => (ScopeStack.frameOf?_foldl_leave fun e he => hn.apart e he o ho).trans
      (hn.isOpen o ho)
  refine ⟨fun o ho => hopen o (List.mem_append_left _ ho), h.apart, fun e he => ?_, h.once⟩
  obtain ⟨o, ho⟩ := ScopeStack.isOpen_iff.mp (h.kept e he)
  have hmem : o ∈ keptScopes m := List.mem_filterMap.mpr ⟨e, he, ho⟩
  rw [← ScopeStack.id_of_frameOf? ho]
  exact ScopeStack.isOpen_of_frameOf? (hopen o (List.mem_append_right _ hmem))

end Machine.Holds

/-! ### Evaluations -/

section Runs

variable {α : Type} {m n : Machine} {os : List Owner}

/-- A run closes no scope that is held, when answering its questions closes none. -/
theorem Eval.run_holds_of {answers : Answerer}
    (ha : ∀ q m r os, m.Holds os → answers q m = some r → r.2.Holds os) (x : Eval α)
    {r : α × Machine} (hm : m.Holds os) (hr : x.run answers m = some r) : r.2.Holds os := by
  induction x generalizing m os with
  | done a =>
    obtain rfl := Option.some.inj hr
    exact hm
  | ask q next ih =>
    obtain ⟨r₁, h₁, hr⟩ := Option.bind_eq_some_iff.mp hr
    exact ih _ (ha _ _ _ _ hm h₁) hr
  | look next ih => exact ih _ hm hr
  | fresh next ih => exact ih _ hm.fresh hr
  | change c next ih => exact ih (hm.after c) hr
  | openScope name o next ih =>
    simp only [run] at hr
    split at hr
    · exact ih _ hm hr
    · next hn => exact ih _ (hm.openScope hn) hr
  | inScope o body next ihb ih =>
    simp only [run] at hr
    split at hr
    · exact ih _ hm hr
    · next hs =>
      obtain ⟨r₁, h₁, hr⟩ := Option.bind_eq_some_iff.mp hr
      exact ih _ ((ihb (hm.enter hs) h₁).leave (hm.ne_of_enter hs)) hr
  | onThread body next _ ih =>
    obtain ⟨r₁, -, hr⟩ := Option.bind_eq_some_iff.mp hr
    exact ih _ hm.onThread hr
  | withOwnLocals body next ihb ih =>
    obtain ⟨r₁, h₁, hr⟩ := Option.bind_eq_some_iff.mp hr
    exact ih _ (hm.dropLocals (ihb hm.ownLocals h₁)) hr

/-- No question touches scopes that are out of reach of the registers. -/
theorem answer_holds {fuel : Nat} {q : Query} {r : q.Answer × Machine} (hm : m.Holds os)
    (hr : answer fuel q m = some r) : r.2.Holds os := by
  induction fuel generalizing q m os with
  | zero => exact absurd hr (by simp)
  | succ fuel ih => exact Eval.run_holds_of (fun _ _ _ _ => ih) _ hm hr

/-- Answering a question closes no scope that is held. -/
theorem engine_holds {q : Query} {r : q.Answer × Machine} (hm : m.Holds os)
    (hr : engine q m = some r) : r.2.Holds os := by
  obtain ⟨fuel, hr⟩ := engine_eq_some_iff.mp hr
  exact answer_holds hm hr

/-- No computation touches scopes that are out of reach of the registers. -/
theorem Eval.run_holds {x : Eval α} {r : α × Machine} (hm : m.Holds os)
    (hr : x.run engine m = some r) : r.2.Holds os :=
  Eval.run_holds_of (fun _ _ _ _ => engine_holds) x hm hr

/-- What is held at the start is held whenever a question is posed. -/
theorem Eval.Poses.holds {x : Eval α} {q : Query} (hm : m.Holds os) (h : x.Poses m q n) :
    n.Holds os := by
  induction x generalizing m os with
  | done => exact h.elim
  | ask q' next ih =>
    rcases h with ⟨-, rfl⟩ | ⟨r, hr, h⟩
    · exact hm
    · exact ih _ (engine_holds hm hr) h
  | look next ih => exact ih _ hm h
  | fresh next ih => exact ih _ hm.fresh h
  | change c next ih => exact ih (hm.after c) h
  | openScope name o next ih =>
    simp only [Poses] at h
    split at h
    · exact ih _ hm h
    · next hn => exact ih _ (hm.openScope hn) h
  | inScope o body next ihb ih =>
    simp only [Poses] at h
    split at h
    · exact ih _ hm h
    · next hs =>
      rcases h with h | ⟨r, hr, h⟩
      · exact (ihb (hm.enter hs) h).mono fun p hp => List.mem_cons_of_mem _ hp
      · exact ih _ ((Eval.run_holds (hm.enter hs) hr).leave (hm.ne_of_enter hs)) h
  | onThread body next _ ih =>
    obtain ⟨r, -, h⟩ := h
    exact ih _ hm.onThread h
  | withOwnLocals body next ihb ih =>
    rcases h with h | ⟨r, hr, h⟩
    · exact (ihb hm.ownLocals h).mono fun p hp => List.mem_append_left _ hp
    · exact ih _ (hm.dropLocals (Eval.run_holds hm.ownLocals hr)) h

/-- What is held when an evaluation starts is held whenever a question comes up in its course. -/
theorem During.holds {q q' : Query} (hm : m.Holds os) (h : During q m q' n) : n.Holds os := by
  induction h with
  | posed h => exact h.holds hm
  | later h _ ih => exact ih (h.holds hm)

end Runs

end ProviderGraph
