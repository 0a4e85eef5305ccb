import ProviderGraph.Proofs.Engine.RaisedQuestions
import ProviderGraph.Proofs.Reference.EngineAgreement

/-!
# Computations that meet the depth limit

A computation meets the depth limit when a scope is refused because as many scopes are open as the
limit allows. It may be refused by its own doing (`Eval.Overflows`) or while something that it asks
is answered (`Eval.MeetsLimit`).
-/

namespace ProviderGraph

variable {α β : Type} {m n : Machine} {o : Owner} {t : ScopeStack}

/-- The failure to open a scope where as many are open as the limit allows. -/
def Fault.IsTooDeep (f : Fault) : Prop := ∃ depth limit, f = .tooDeep depth limit

/-- A scope that is not open is refused for the limit only. -/
theorem ScopeStack.isTooDeep_of_enter {s : ScopeStack} {f : Fault} (hopen : s.isOpen o.id = false)
    (h : s.enter o = .error f) : f.IsTooDeep := by
  rw [enter, if_neg (by simp [hopen])] at h
  split at h
  · exact ⟨_, _, (Except.error.inj h).symm⟩
  · cases h

namespace Eval

/-- The evaluation itself is refused a scope because of the limit. -/
def Overflows : {α : Type} → Eval α → Machine → Prop
  | _, .done _, _ => False
  | _, .ask q next, m => ∃ r, engine q m = some r ∧ (next r.1).Overflows r.2
  | _, .look next, m => (next m).Overflows m
  | _, .fresh next, m => (next m.supply).Overflows { m with supply := m.supply + 1 }
  | _, .change c next, m => next.Overflows (m.after c)
  | _, .openScope name o next, m =>
    match m.openScope name o with
    | .error f => f.IsTooDeep ∨ (next (.error f)).Overflows m
    | .ok m => (next (.ok ())).Overflows m
  | _, .inScope o body next, m =>
    match m.stack.enter o with
    | .error f => f.IsTooDeep ∨ (next (.error f)).Overflows m
    | .ok s => body.Overflows { m with stack := s } ∨
      ∃ r, body.run engine { m with stack := s } = some r ∧
        (next (.ok r.1)).Overflows { r.2 with stack := r.2.stack.leave o.id }
  | _, .onThread body next, m => body.Overflows (newThread m) ∨
    ∃ r, body.run engine (newThread m) = some r ∧
      (next r.1).Overflows { r.2 with stack := m.stack, locals := m.locals }
  | _, .withOwnLocals body next, m => body.Overflows { m with locals := .empty } ∨
    ∃ r, body.run engine { m with locals := .empty } = some r ∧
      (next r.1).Overflows (dropLocals m r.2)

/-- One part of a sequence is refused. -/
theorem overflows_bind (x : Eval α) (f : α → Eval β) :
    (x >>= f).Overflows m ↔
      x.Overflows m ∨ ∃ r, x.run engine m = some r ∧ (f r.1).Overflows r.2 := by
  induction x generalizing m with
  | done a =>
    constructor
    · exact fun h => .inr ⟨(a, m), rfl, h⟩
    · rintro (h | ⟨r, hr, h⟩)
      · exact h.elim
      · obtain rfl := Option.some.inj hr
        exact h
  | ask q next ih =>
    change (ask q fun a => next a >>= f).Overflows m ↔ _
    simp only [Overflows, run, ih, Option.bind_eq_some_iff, after_or]
  | look next ih => exact ih _ f
  | fresh next ih => exact ih _ f
  | change c next ih => exact ih f
  | openScope name o next ih =>
    change (openScope name o fun r => next r >>= f).Overflows m ↔ _
    cases hs : m.openScope name o <;> simp only [Overflows, run, hs, ih, or_assoc]
  | inScope o body next _ ih =>
    change (inScope o body fun r => next r >>= f).Overflows m ↔ _
    cases hs : m.stack.enter o with
    | error e => simp only [Overflows, run, hs, ih, or_assoc]
    | ok s => simp only [Overflows, run, hs, ih, Option.bind_eq_some_iff, after_or, or_assoc]
  | onThread body next _ ih =>
    change (onThread body fun r => next r >>= f).Overflows m ↔ _
    simp only [Overflows, run, ih, Option.bind_eq_some_iff, after_or, or_assoc]
  | withOwnLocals body next _ ih =>
    change (withOwnLocals body fun r => next r >>= f).Overflows m ↔ _
    simp only [Overflows, run, ih, Option.bind_eq_some_iff, after_or, or_assoc]

/-- In a scope that was opened only the body is refused others. -/
theorem overflows_within {refused : Fault → Eval α} {x : Eval α} (ht : m.stack.enter o = .ok t) :
    (Eval.within o refused x).Overflows m ↔ x.Overflows { m with stack := t } := by
  change (inScope o x _).Overflows m ↔ _
  simp only [Overflows, ht]
  refine or_iff_left ?_
  rintro ⟨_, _, h⟩
  exact h

end Eval

/-- While the question is answered a scope is refused because of the limit. -/
def Query.MeetsLimit (q : Query) (m : Machine) : Prop :=
  ∃ q' n, Brings q m q' n ∧ (rule q').Overflows n

namespace Eval

/-- A scope is refused because of the limit, by the computation itself or while something that it
asks is answered. -/
def MeetsLimit {α : Type} (x : Eval α) (m : Machine) : Prop :=
  x.Overflows m ∨ ∃ q n, x.Raises m q n ∧ q.MeetsLimit n

/-- A limit is met by the first of two computations, or by the second one where the first has ended.
-/
theorem meetsLimit_bind (x : Eval α) (f : α → Eval β) :
    (x >>= f).MeetsLimit m ↔
      x.MeetsLimit m ∨ ∃ r, x.run engine m = some r ∧ (f r.1).MeetsLimit r.2 := by
  simp only [MeetsLimit, overflows_bind, raises_bind]
  constructor
  · rintro ((h | ⟨r, hr, h⟩) | ⟨q, n, h | ⟨r, hr, h⟩, hq⟩)
    · exact .inl (.inl h)
    · exact .inr ⟨r, hr, .inl h⟩
    · exact .inl (.inr ⟨q, n, h, hq⟩)
    · exact .inr ⟨r, hr, .inr ⟨q, n, h, hq⟩⟩
  · rintro ((h | ⟨q, n, h, hq⟩) | ⟨r, hr, h | ⟨q, n, h, hq⟩⟩)
    · exact .inl (.inl h)
    · exact .inr ⟨q, n, .inl h, hq⟩
    · exact .inl (.inr ⟨r, hr, h⟩)
    · exact .inr ⟨q, n, .inr ⟨r, hr, h⟩, hq⟩

theorem not_meetsLimit_pure (v : α) : ¬ (pure v : Eval α).MeetsLimit m := by
  rintro (h | ⟨_, _, h, _⟩) <;> exact h

/-- Whatever the first part ends with, none of the parts is refused a scope. -/
theorem not_meetsLimit_bind {x : Eval α} {f : α → Eval β} (hx : ¬ x.MeetsLimit m)
    (hf : ∀ v n, ¬ (f v).MeetsLimit n) : ¬ (x >>= f).MeetsLimit m := by
  rw [meetsLimit_bind]
  rintro (h | ⟨r, -, h⟩)
  · exact hx h
  · exact hf _ _ h

/-- In a scope that can be opened a limit is met by what is run there. -/
theorem meetsLimit_within {refused : Fault → Eval α} {x : Eval α} (ht : m.stack.enter o = .ok t) :
    (Eval.within o refused x).MeetsLimit m ↔ x.MeetsLimit { m with stack := t } := by
  have raises (q : Query) (n : Machine) :
      (Eval.within o refused x).Raises m q n ↔ x.Raises { m with stack := t } q n := by
    change (inScope o x _).Raises m q n ↔ _
    simp only [Raises, ht]
    refine or_iff_left ?_
    rintro ⟨_, _, h⟩
    exact h
  simp only [MeetsLimit, overflows_within ht, raises]

/-- A scope that is not open is refused for the limit. -/
theorem meetsLimit_of_refused {refused : Fault → Eval α} {x : Eval α} {f : Fault}
    (hopen : m.stack.isOpen o.id = false) (ht : m.stack.enter o = .error f) :
    (Eval.within o refused x).MeetsLimit m := by
  refine .inl ?_
  change (inScope o x _).Overflows m
  simp only [Overflows, ht]
  exact .inl (ScopeStack.isTooDeep_of_enter hopen ht)

end Eval

/-- A question meets the limit when its rule does. -/
theorem Query.meetsLimit_iff {q : Query} : q.MeetsLimit m ↔ (rule q).MeetsLimit m := by
  constructor
  · rintro ⟨q', n, hbrings, h⟩
    cases hbrings with
    | self => exact .inl h
    | raised hr hbrings => exact .inr ⟨_, _, hr, q', n, hbrings, h⟩
  · rintro (h | ⟨q₁, n₁, hr, q', n, hbrings, h⟩)
    · exact ⟨q, m, .self, h⟩
    · exact ⟨q', n, .raised hr hbrings, h⟩

/-- A computation that is one question meets the limit where its answer does. -/
theorem Eval.meetsLimit_ask {q : Query} :
    (Eval.ask q Pure.pure).MeetsLimit m ↔ q.MeetsLimit m := by
  constructor
  · rintro (⟨r, -, h⟩ | ⟨q', n, hraises, hq⟩)
    · exact h.elim
    · obtain ⟨rfl, rfl⟩ := raises_ask.mp hraises
      exact hq
  · exact fun h => .inr ⟨q, m, raises_ask.mpr ⟨rfl, rfl⟩, h⟩

end ProviderGraph
