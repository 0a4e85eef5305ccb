import ProviderGraph.Proofs.Engine.PosedQuestions
import ProviderGraph.Proofs.Session.ReachedMachines

/-!
# What questions bring up

A question brings up those that its rule raises, on whatever thread, and those that they bring up in
turn. What holds of a question, and of whatever is raised where it holds, holds of all that comes up
(`Brings.mem`).
-/

namespace ProviderGraph

variable {α β ε : Type} {m n : Machine} {q q' : Query} {o : Owner}

/-- While the question `q` is answered on the machine `m`, the question `q'` comes up on the machine
`m'`. The question itself counts. -/
inductive Brings : Query → Machine → Query → Machine → Prop where
  | self {q : Query} {m : Machine} : Brings q m q m
  | raised {q q₁ q' : Query} {m m₁ m' : Machine} (h : (rule q).Raises m q₁ m₁)
    (h' : Brings q₁ m₁ q' m') : Brings q m q' m'

/-- All that comes up stays in a set that is closed under raising. -/
theorem Brings.mem {P : Query → Machine → Prop} (h : Brings q m q' n) (hq : P q m)
    (hP : ∀ q m q' n, P q m → (rule q).Raises m q' n → P q' n) : P q' n := by
  induction h with
  | self => exact hq
  | raised hr _ ih => exact ih (hP _ _ _ _ hq hr)

namespace Eval

/-- A sequence raises what its parts raise. -/
theorem raises_bind (x : Eval α) (f : α → Eval β) :
    (x >>= f).Raises m q n ↔
      x.Raises m q n ∨ ∃ r, x.run engine m = some r ∧ (f r.1).Raises r.2 q n := by
  induction x generalizing m with
  | done a =>
    constructor
    · exact fun h => .inr ⟨(a, m), rfl, h⟩
    · rintro (h | ⟨r, hr, h⟩)
      · exact h.elim
      · obtain rfl := Option.some.inj hr
        exact h
  | ask q' next ih =>
    change (ask q' fun a => next a >>= f).Raises m q n ↔ _
    simp only [Raises, run, ih, Option.bind_eq_some_iff, after_or, or_assoc]
  | look next ih => exact ih _ f
  | fresh next ih => exact ih _ f
  | change c next ih => exact ih f
  | openScope name o next ih =>
    change (openScope name o fun r => next r >>= f).Raises m q n ↔ _
    cases hs : m.openScope name o with
    | error e => simpa only [Raises, run, hs] using ih _ f
    | ok m' => simpa only [Raises, run, hs] using ih _ f
  | inScope o body next _ ih =>
    change (inScope o body fun r => next r >>= f).Raises m q n ↔ _
    cases hs : m.stack.enter o with
    | error e => simpa only [Raises, run, hs] using ih _ f
    | ok s => simp only [Raises, run, hs, ih, Option.bind_eq_some_iff, after_or, or_assoc]
  | onThread body next _ ih =>
    change (onThread body fun r => next r >>= f).Raises m q n ↔ _
    simp only [Raises, run, ih, Option.bind_eq_some_iff, after_or, or_assoc]
  | withOwnLocals body next _ ih =>
    change (withOwnLocals body fun r => next r >>= f).Raises m q n ↔ _
    simp only [Raises, run, ih, Option.bind_eq_some_iff, after_or, or_assoc]

/-- What comes after a part that does not succeed is not raised. -/
theorem raises_bindExcept {x : ExceptT ε Eval α} {f : α → ExceptT ε Eval β} :
    (x >>= f).run.Raises m q n ↔
      x.run.Raises m q n ∨
        ∃ a m₁, x.run.run engine m = some (.ok a, m₁) ∧ (f a).run.Raises m₁ q n := by
  rw [ExceptT.run_bind, raises_bind]
  constructor
  · rintro (h | ⟨⟨⟨e⟩ | ⟨a⟩, m₁⟩, hr, h⟩)
    · exact .inl h
    · exact h.elim
    · exact .inr ⟨a, m₁, hr, h⟩
  · rintro (h | ⟨a, m₁, hr, h⟩)
    · exact .inl h
    · exact .inr ⟨_, hr, h⟩

/-- A computation that is one question raises this question only. -/
theorem raises_ask {q₀ : Query} : (ask q₀ pure).Raises m q n ↔ q = q₀ ∧ n = m := by
  constructor
  · rintro (h | ⟨r, -, h⟩)
    · exact h
    · exact h.elim
  · exact .inl

/-- To ask for a value is to raise the question for it without the declared name. -/
theorem raises_value {p : Provider} {c : Reading} :
    (Ask.value p c).run.Raises m q n ↔ q = .ownValue p c ∧ n = m := by
  constructor
  · intro h
    rcases raises_bindExcept.mp h with h | ⟨v, m₁, -, h⟩
    · exact raises_ask.mp h
    · exact h.elim
  · intro h
    exact raises_bindExcept.mpr (.inl (raises_ask.mpr h))

/-- What is raised in a scope is raised once it is open. -/
theorem raises_within {x : Attempt α} :
    (ProviderGraph.within o x).run.Raises m q n ↔
      ∃ s, m.stack.enter o = .ok s ∧ x.run.Raises { m with stack := s } q n := by
  change (Eval.inScope o x.run _).Raises m q n ↔ _
  simp only [Raises]
  cases hs : m.stack.enter o with
  | error f =>
    constructor
    · exact fun h => h.elim
    · rintro ⟨s, hs', -⟩
      cases hs'
  | ok s =>
    constructor
    · rintro (h | ⟨r, -, h⟩)
      · exact ⟨s, rfl, h⟩
      · exact h.elim
    · rintro ⟨s', hs', h⟩
      cases hs'
      exact .inl h

/-- A part that only looks at a property raises nothing. -/
theorem raises_property_bind {i : Identity} {f : Property → ExceptT ε Eval α} :
    ((liftM (Eval.property i) : ExceptT ε Eval Property) >>= f).run.Raises m q n ↔
      (f (m.property i)).run.Raises m q n := by
  rw [run_lift_bind, raises_bind]
  constructor
  · rintro (h | ⟨r, hr, h⟩)
    · exact h.elim
    · obtain rfl := Option.some.inj hr
      exact h
  · exact fun h => .inr ⟨_, rfl, h⟩

/-- A question that was raised in a run has been answered. -/
theorem Raises.answered {x : Eval α} (h : x.Raises m q n) {fuel : Nat} {r : α × Machine}
    (hr : x.run (answer fuel) m = some r) : ∃ s, answer fuel q n = some s := by
  induction x generalizing m with
  | done a => exact h.elim
  | ask q' next ih =>
    obtain ⟨r₁, h₁, hr⟩ := Option.bind_eq_some_iff.mp hr
    rcases h with ⟨rfl, rfl⟩ | ⟨r₂, h₂, h⟩
    · exact ⟨r₁, h₁⟩
    · obtain rfl := Option.some.inj ((engine_of_answer h₁).symm.trans h₂)
      exact ih _ h hr
  | look next ih => exact ih _ h hr
  | fresh next ih => exact ih _ h hr
  | change c next ih => exact ih h hr
  | openScope name o next ih =>
    simp only [Raises, run] at h hr
    split at hr
    · next hs =>
      rw [hs] at h
      exact ih _ h hr
    · next hs =>
      rw [hs] at h
      exact ih _ h hr
  | inScope o body next ihb ih =>
    simp only [Raises, run] at h hr
    split at hr
    · next hs =>
      rw [hs] at h
      exact ih _ h hr
    · next hs =>
      rw [hs] at h
      obtain ⟨r₁, h₁, hr⟩ := Option.bind_eq_some_iff.mp hr
      rcases h with h | ⟨r₂, h₂, h⟩
      · exact ihb h h₁
      · obtain rfl := Option.some.inj ((run_engine_of_answer fuel h₁).symm.trans h₂)
        exact ih _ h hr
  | onThread body next ihb ih =>
    obtain ⟨r₁, h₁, hr⟩ := Option.bind_eq_some_iff.mp hr
    rcases h with h | ⟨r₂, h₂, h⟩
    · exact ihb h h₁
    · obtain rfl := Option.some.inj ((run_engine_of_answer fuel h₁).symm.trans h₂)
      exact ih _ h hr
  | withOwnLocals body next ihb ih =>
    obtain ⟨r₁, h₁, hr⟩ := Option.bind_eq_some_iff.mp hr
    rcases h with h | ⟨r₂, h₂, h⟩
    · exact ihb h h₁
    · obtain rfl := Option.some.inj ((run_engine_of_answer fuel h₁).symm.trans h₂)
      exact ih _ h hr

end Eval

/-- What is true of an answer, as soon as it is true of all the answers that its rule draws on, is
true of every answer. -/
theorem engine_induction {R : (q : Query) → Machine → q.Answer × Machine → Prop}
    (hR : ∀ q m r, engine q m = some r →
      (∀ q' n, (rule q).Raises m q' n → ∀ s, engine q' n = some s → R q' n s) → R q m r)
    {q : Query} {m : Machine} {r : q.Answer × Machine} (h : engine q m = some r) : R q m r := by
  obtain ⟨fuel, hfuel⟩ := engine_eq_some_iff.mp h
  induction fuel generalizing q m with
  | zero => exact absurd hfuel (by simp)
  | succ fuel ih =>
    refine hR q m r h fun q' n hraised s hs => ?_
    obtain ⟨s', hs'⟩ := hraised.answered hfuel
    obtain rfl := Option.some.inj ((engine_of_answer hs').symm.trans hs)
    exact ih hs hs'

namespace Eval

/-! ### Kinds of questions -/

/-- The evaluation raises questions of one kind only. -/
def RaisesOnly (P : Query → Prop) (x : Eval α) : Prop := ∀ m q n, x.Raises m q n → P q

namespace RaisesOnly

variable {P : Query → Prop}

theorem pure (a : α) : (Pure.pure a : Eval α).RaisesOnly P := fun _ _ _ h => h.elim

theorem bind {x : Eval α} {f : α → Eval β} (hx : x.RaisesOnly P) (hf : ∀ a, (f a).RaisesOnly P) :
    (x >>= f).RaisesOnly P := by
  intro m q n h
  rcases (raises_bind x f).mp h with h | ⟨r, -, h⟩
  · exact hx m q n h
  · exact hf _ _ _ _ h

theorem bindExcept {x : ExceptT ε Eval α} {f : α → ExceptT ε Eval β} (hx : x.run.RaisesOnly P)
    (hf : ∀ a, (f a).run.RaisesOnly P) : (x >>= f).run.RaisesOnly P := by
  intro m q n h
  rcases raises_bindExcept.mp h with h | ⟨a, m₁, -, h⟩
  · exact hx m q n h
  · exact hf a _ _ _ h

theorem map {x : ExceptT ε Eval α} (f : α → β) (hx : x.run.RaisesOnly P) :
    (f <$> x).run.RaisesOnly P := by
  rw [map_eq_pure_bind]
  exact bindExcept hx fun _ => pure _

theorem lift {x : Eval α} (hx : x.RaisesOnly P) : (liftM x : ExceptT ε Eval α).run.RaisesOnly P :=
  hx.bind fun _ => pure _

theorem ask {q : Query} (hq : P q) : (ask q Pure.pure).RaisesOnly P := by
  intro m q' n h
  obtain ⟨rfl, -⟩ := raises_ask.mp h
  exact hq

theorem machine : Eval.machine.RaisesOnly P := fun _ _ _ h => h.elim

theorem property (i : Identity) : (Eval.property i).RaisesOnly P := fun _ _ _ h => h.elim

theorem identity : Eval.identity.RaisesOnly P := fun _ _ _ h => h.elim

theorem ofExcept (r : Except ε α) :
    (MonadExcept.ofExcept r : ExceptT ε Eval α).run.RaisesOnly P := by
  cases r <;> exact pure _

/-- A scope raises what its body raises, or what is done when it cannot be opened. -/
theorem inScope {refused : Fault → Eval α} {body : Eval α} (hr : ∀ f, (refused f).RaisesOnly P)
    (hb : body.RaisesOnly P) : (Eval.within o refused body).RaisesOnly P := by
  intro m q n h
  change (Eval.inScope o body _).Raises m q n at h
  simp only [Raises] at h
  split at h
  · exact hr _ m q n h
  · rcases h with h | ⟨r, -, h⟩
    · exact hb _ q n h
    · exact h.elim

theorem within {x : Attempt α} (hx : x.run.RaisesOnly P) :
    (ProviderGraph.within o x).run.RaisesOnly P := inScope (fun _ => pure _) hx

theorem elsewhere {x : Eval α} (hx : x.RaisesOnly P) : (Eval.elsewhere x).RaisesOnly P := by
  rintro m q n (h | ⟨r, -, h⟩)
  · exact hx _ q n h
  · exact h.elim

end RaisesOnly

end Eval

end ProviderGraph
