import ProviderGraph.Proofs.Identity.Renaming

/-!
# Evaluations under a renaming

An evaluation carries over to another one under a renaming, if the other one does to renamed things
what it does, step for step, and gives what it gives, renamed (`Eval.Carries`). This is told by the
trees of the two alone, whatever answers there are. Rules never look at an identity but to compare
it, so that the rule of a question carries over to that of the renamed question.
-/

namespace ProviderGraph

variable {ρ : Renaming} {α β γ δ ε : Type}

/-! ### Questions -/

def Query.rename (ρ : Renaming) : Query → Query
  | .ownValue p c => .ownValue (p.rename ρ) c
  | .presence p c => .presence (p.rename ρ) c
  | .producer p => .producer (p.rename ρ)
  | .classification p => .classification (p.rename ρ)
  | .text p label => .text (p.rename ρ) label
  | .finalize r => .finalize (r.rename ρ)
  | .act a held x => .act a held x
  | .build r held => .build r held
  | .step s => .step s

def Query.carry (ρ : Renaming) : (q : Query) → q.Answer → (q.rename ρ).Answer
  | .ownValue _ _, a => a
  | .presence _ _, a => a
  | .producer _, a => a
  | .classification _, a => a.map (Classification.rename ρ)
  | .text _ _, a => a
  | .finalize _, a => a
  | .act _ _ _, a => a
  | .build _ _, a => a.map (Option.map (Provider.rename ρ))
  | .step _, a => a.rename ρ

namespace Eval

/-- The second evaluation does under the renaming `ρ` what the first one does, and gives `f a` where
the first one gives `a`. -/
inductive Carries (ρ : Renaming) : {α β : Type} → (α → β) → Eval α → Eval β → Prop where
  | done {α β : Type} {f : α → β} {a : α} {b : β} (h : f a = b) : Carries ρ f (.done a) (.done b)
  | ask {α β : Type} {f : α → β} (q : Query) {next : q.Answer → Eval α}
    {next' : (q.rename ρ).Answer → Eval β} (h : ∀ a, Carries ρ f (next a) (next' (q.carry ρ a))) :
    Carries ρ f (.ask q next) (.ask (q.rename ρ) next')
  | look {α β : Type} {f : α → β} {next : Machine → Eval α} {next' : Machine → Eval β}
    (h : ∀ m, Carries ρ f (next m) (next' (m.rename ρ))) : Carries ρ f (.look next) (.look next')
  | fresh {α β : Type} {f : α → β} {next : Identity → Eval α} {next' : Identity → Eval β}
    (h : ∀ i, Carries ρ f (next i) (next' (ρ i))) : Carries ρ f (.fresh next) (.fresh next')
  | change {α β : Type} {f : α → β} (c : Change) {next : Eval α} {next' : Eval β}
    (h : Carries ρ f next next') : Carries ρ f (.change c next) (.change (c.rename ρ) next')
  | openScope {α β : Type} {f : α → β} (name : String) (o : Owner)
    {next : Except Fault Unit → Eval α} {next' : Except Fault Unit → Eval β}
    (h : ∀ r, Carries ρ f (next r) (next' r)) :
    Carries ρ f (.openScope name o next) (.openScope name (o.rename ρ) next')
  | inScope {α β γ δ : Type} {f : α → β} {g : γ → δ} (o : Owner) {body : Eval γ} {body' : Eval δ}
    {next : Except Fault γ → Eval α} {next' : Except Fault δ → Eval β}
    (hbody : Carries ρ g body body') (h : ∀ r, Carries ρ f (next r) (next' (r.map g))) :
    Carries ρ f (.inScope o body next) (.inScope (o.rename ρ) body' next')
  | onThread {α β γ δ : Type} {f : α → β} {g : γ → δ} {body : Eval γ} {body' : Eval δ}
    {next : γ → Eval α} {next' : δ → Eval β} (hbody : Carries ρ g body body')
    (h : ∀ b, Carries ρ f (next b) (next' (g b))) :
    Carries ρ f (.onThread body next) (.onThread body' next')
  | withOwnLocals {α β γ δ : Type} {f : α → β} {g : γ → δ} {body : Eval γ} {body' : Eval δ}
    {next : γ → Eval α} {next' : δ → Eval β} (hbody : Carries ρ g body body')
    (h : ∀ b, Carries ρ f (next b) (next' (g b))) :
    Carries ρ f (.withOwnLocals body next) (.withOwnLocals body' next')

end Eval

/-- The second computation does under the renaming `ρ` what the first one does, and gives `f a`
where the first one gives `a`. It fails where the first one does. -/
abbrev Transports (ρ : Renaming) (f : α → β) (x : ExceptT ε Eval α) (y : ExceptT ε Eval β) : Prop :=
  Eval.Carries ρ (Except.map f) x.run y.run

namespace Eval.Carries

theorem pure {f : α → β} (a : α) : Carries ρ f (Pure.pure a) (Pure.pure (f a)) := .done rfl

theorem bind {f : α → β} {g : γ → δ} {x : Eval α} {x' : Eval β} {next : α → Eval γ}
    {next' : β → Eval δ} (hx : Carries ρ f x x') (h : ∀ a, Carries ρ g (next a) (next' (f a))) :
    Carries ρ g (x >>= next) (x' >>= next') := by
  induction hx with
  | done hb => exact hb ▸ h _
  | ask q _ ih => exact .ask q fun a => ih a h
  | look _ ih => exact .look fun m => ih m h
  | fresh _ ih => exact .fresh fun i => ih i h
  | change c _ ih => exact .change c (ih h)
  | openScope name o _ ih => exact .openScope name o fun r => ih r h
  | inScope o hbody _ _ ih => exact .inScope o hbody fun r => ih r h
  | onThread hbody _ _ ih => exact .onThread hbody fun b => ih b h
  | withOwnLocals hbody _ _ ih => exact .withOwnLocals hbody fun b => ih b h

/-- A part that gives nothing to rename. -/
theorem andThen {g : γ → δ} {x x' : Eval α} {next : α → Eval γ} {next' : α → Eval δ}
    (hx : Carries ρ id x x') (h : ∀ a, Carries ρ g (next a) (next' a)) :
    Carries ρ g (x >>= next) (x' >>= next') := hx.bind h

theorem query (q : Query) : Carries ρ (q.carry ρ) (Eval.ask q Pure.pure)
    (Eval.ask (q.rename ρ) Pure.pure) := .ask q fun a => .pure a

theorem machine : Carries ρ (Machine.rename ρ) Eval.machine Eval.machine := .look fun m => .pure m

theorem identity : Carries ρ ρ Eval.identity Eval.identity := .fresh fun i => .pure i

theorem apply (c : Change) : Carries ρ id (Eval.apply c) (Eval.apply (c.rename ρ)) :=
  .change c (.pure ())

theorem property (i : Identity) :
    Carries ρ (Property.rename ρ) (Eval.property i) (Eval.property (ρ i)) :=
  machine.bind fun m => m.property_rename ρ i ▸ .pure _

/-- The scope of an owner, where the refusal to open it is the same. -/
theorem within {f : α → β} (o : Owner) {refused : Fault → Eval α} {refused' : Fault → Eval β}
    {x : Eval α} {x' : Eval β} (hr : ∀ e, Carries ρ f (refused e) (refused' e))
    (hx : Carries ρ f x x') :
    Carries ρ f (Eval.within o refused x) (Eval.within (o.rename ρ) refused' x') := by
  refine .inScope o hx fun r => ?_
  cases r with
  | ok a => exact .pure a
  | error e => exact hr e

end Eval.Carries

open Eval (Carries)

namespace Transports

variable {f : α → β} {g : γ → δ}

/-- Nothing is renamed where there is nothing to rename. -/
theorem id_iff {x x' : ExceptT ε Eval α} : Transports ρ id x x' ↔ Carries ρ id x.run x'.run := by
  rw [Transports, Except.map_id]

theorem pure (a : α) :
    Transports ρ f (Pure.pure a : ExceptT ε Eval α) (Pure.pure (f a)) := .done rfl

/-- What holds no identity is given as it is. -/
theorem same (a : α) :
    Transports ρ id (Pure.pure a : ExceptT ε Eval α) (Pure.pure a) := .done rfl

theorem throw (e : ε) : Transports ρ f (MonadExcept.throw e : ExceptT ε Eval α)
    (MonadExcept.throw e) := .done rfl

theorem bind {x : ExceptT ε Eval α} {x' : ExceptT ε Eval β} {next : α → ExceptT ε Eval γ}
    {next' : β → ExceptT ε Eval δ} (hx : Transports ρ f x x')
    (h : ∀ a, Transports ρ g (next a) (next' (f a))) :
    Transports ρ g (x >>= next) (x' >>= next') := by
  refine Carries.bind hx fun r => ?_
  cases r with
  | ok a => exact h a
  | error e => exact .done rfl

/-- A part that gives nothing to rename. -/
theorem andThen {x x' : ExceptT ε Eval α} {next : α → ExceptT ε Eval γ}
    {next' : α → ExceptT ε Eval δ} (hx : Transports ρ id x x')
    (h : ∀ a, Transports ρ g (next a) (next' a)) : Transports ρ g (x >>= next) (x' >>= next') :=
  hx.bind h

theorem map {x : ExceptT ε Eval α} {x' : ExceptT ε Eval β} {h : α → γ} {h' : β → δ}
    (hx : Transports ρ f x x') (hh : ∀ a, h' (f a) = g (h a)) :
    Transports ρ g (h <$> x) (h' <$> x') := by
  rw [map_eq_pure_bind, map_eq_pure_bind]
  exact hx.bind fun a => hh a ▸ .pure (h a)

theorem lift {x : Eval α} {x' : Eval β} (hx : Carries ρ f x x') :
    Transports ρ f (liftM x : ExceptT ε Eval α) (liftM x' : ExceptT ε Eval β) :=
  hx.bind fun _ => .done rfl

theorem ofExcept (r : Except ε α) : Transports ρ f (MonadExcept.ofExcept r : ExceptT ε Eval α)
    (MonadExcept.ofExcept (r.map f)) := by
  cases r with
  | ok a => exact .pure a
  | error e => exact .throw e

theorem given (r : Except ε α) : Transports ρ id (MonadExcept.ofExcept r : ExceptT ε Eval α)
    (MonadExcept.ofExcept r) := by
  cases r with
  | ok a => exact .same a
  | error e => exact .throw e

theorem asUserCode {x : Attempt α} {x' : Attempt β} (hx : Transports ρ f x x') :
    Transports ρ f x.asUserCode x'.asUserCode := by
  refine Carries.bind hx fun r => ?_
  cases r <;> exact .done rfl

theorem within (o : Owner) {x : Attempt α} {x' : Attempt β} (hx : Transports ρ f x x') :
    Transports ρ f (ProviderGraph.within o x) (ProviderGraph.within (o.rename ρ) x') :=
  Carries.within o (fun _ => .done rfl) hx

/-- A rejection is attributed to a provider that is shown by the same text. -/
theorem settle {culprit culprit' : Eval String} (hc : Carries ρ id culprit culprit')
    (r : Except Failure α) :
    Transports ρ f (ProviderGraph.settle culprit r) (ProviderGraph.settle culprit' (r.map f)) := by
  rcases r with (message | e) | a
  · exact (lift hc).andThen fun _ => .throw _
  · exact .throw e
  · exact .pure a

end Transports

end ProviderGraph
