import ProviderGraph.Proofs.Engine.Fuel

/-!
# Questions posed along the way

What an evaluation asks in its course can be read off its tree. `Eval.Poses` holds of the questions
that it poses itself on its thread, each with the machine it is posed on, and `During` of those that
come up, at any depth, while a question is answered. Questions posed on a thread of their own are
not counted.
-/

namespace ProviderGraph

variable {α β : Type}

/-- On the machine `m` the evaluation poses the question `q` on the machine `n`. -/
def Eval.Poses : {α : Type} → Eval α → (m : Machine) → (q : Query) → (n : Machine) → Prop
  | _, .done _, _, _, _ => False
  | _, .ask q' next, m, q, n =>
    (q = q' ∧ n = m) ∨ ∃ r, engine q' m = some r ∧ (next r.1).Poses r.2 q n
  | _, .look next, m, q, n => (next m).Poses m q n
  | _, .fresh next, m, q, n => (next m.supply).Poses { m with supply := m.supply + 1 } q n
  | _, .change c next, m, q, n => next.Poses (m.after c) q n
  | _, .openScope name o next, m, q, n =>
    match m.openScope name o with
    | .error f => (next (.error f)).Poses m q n
    | .ok m => (next (.ok ())).Poses m q n
  | _, .inScope o body next, m, q, n =>
    match m.stack.enter o with
    | .error f => (next (.error f)).Poses m q n
    | .ok s => body.Poses { m with stack := s } q n ∨
      ∃ r, body.run engine { m with stack := s } = some r ∧
        (next (.ok r.1)).Poses { r.2 with stack := r.2.stack.leave o.id } q n
  | _, .onThread body next, m, q, n => ∃ r, body.run engine (newThread m) = some r ∧
    (next r.1).Poses { r.2 with stack := m.stack, locals := m.locals } q n
  | _, .withOwnLocals body next, m, q, n => body.Poses { m with locals := .empty } q n ∨
    ∃ r, body.run engine { m with locals := .empty } = some r ∧
      (next r.1).Poses (dropLocals m r.2) q n

/-- While the question `q` is answered on the machine `m`, the question `q'` is posed on the machine
`m'`, by the rule of `q` or by the rule of a question that comes up before. -/
inductive During : Query → Machine → Query → Machine → Prop where
  | posed {q q' : Query} {m m' : Machine} (h : (rule q).Poses m q' m') : During q m q' m'
  | later {q q₁ q' : Query} {m m₁ m' : Machine} (h : (rule q).Poses m q₁ m₁)
      (h' : During q₁ m₁ q' m') : During q m q' m'

namespace Eval

variable {m n : Machine} {q : Query}

/-- What comes up after `X` comes up before `Y` or after it. -/
theorem after_or {ρ σ : Type} {X B : ρ → Prop} {Y : ρ → σ → Prop} {C : σ → Prop} :
    (∃ r, X r ∧ (B r ∨ ∃ s, Y r s ∧ C s)) ↔
      (∃ r, X r ∧ B r) ∨ ∃ s, (∃ r, X r ∧ Y r s) ∧ C s := by
  constructor
  · rintro ⟨r, hr, h | ⟨s, hs, h⟩⟩
    · exact .inl ⟨r, hr, h⟩
    · exact .inr ⟨s, ⟨r, hr, hs⟩, h⟩
  · rintro (⟨r, hr, h⟩ | ⟨s, ⟨r, hr, hs⟩, h⟩)
    · exact ⟨r, hr, .inl h⟩
    · exact ⟨r, hr, .inr ⟨s, hs, h⟩⟩

/-- A sequence poses what its parts pose. -/
theorem poses_bind (x : Eval α) (f : α → Eval β) :
    (x >>= f).Poses m q n ↔
      x.Poses m q n ∨ ∃ r, x.run engine m = some r ∧ (f r.1).Poses r.2 q n := by
  induction x generalizing m with
  | done a =>
    constructor
    · exact fun h => .inr ⟨(a, m), rfl, h⟩
    · rintro (h | ⟨r, hr, h⟩)
      · exact h.elim
      · obtain rfl := Option.some.inj hr
        exact h
  | ask q' next ih =>
    change (ask q' fun a => next a >>= f).Poses m q n ↔ _
    simp only [Poses, run, ih, Option.bind_eq_some_iff, after_or, or_assoc]
  | look next ih => exact ih _ f
  | fresh next ih => exact ih _ f
  | change c next ih => exact ih f
  | openScope name o next ih =>
    change (openScope name o fun r => next r >>= f).Poses m q n ↔ _
    cases hs : m.openScope name o with
    | error e => simpa only [Poses, run, hs] using ih _ f
    | ok m' => simpa only [Poses, run, hs] using ih _ f
  | inScope o body next _ ih =>
    change (inScope o body fun r => next r >>= f).Poses m q n ↔ _
    cases hs : m.stack.enter o with
    | error e => simpa only [Poses, run, hs] using ih _ f
    | ok s => simp only [Poses, run, hs, ih, Option.bind_eq_some_iff, after_or, or_assoc]
  | onThread body next _ ih =>
    change (onThread body fun r => next r >>= f).Poses m q n ↔ _
    simp only [Poses, run, ih, Option.bind_eq_some_iff, after_or]
  | withOwnLocals body next _ ih =>
    change (withOwnLocals body fun r => next r >>= f).Poses m q n ↔ _
    simp only [Poses, run, ih, Option.bind_eq_some_iff, after_or, or_assoc]

end Eval

end ProviderGraph
