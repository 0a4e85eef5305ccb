import ProviderGraph.Proofs.Effect.MirroredRuns

/-!
# Building without effects

A recipe with pure code and the recipe without its effects build providers that correspond, or none,
or fail alike.
-/

namespace ProviderGraph

variable {ρ σ : Pairing} {a a' b b' : Machine} {held : Option Payload} {base base' r r' : Recipe}

/-- What is built corresponds, or nothing is built. -/
abbrev Provider.MayStrip (ρ : Pairing) : Option Provider → Option Provider → Prop :=
  Option.Rel (Provider.Strips ρ)

namespace Mirrors

open Provider (MayStrip)

/-- Two new providers. -/
theorem new (hs : a.Strips ρ b) {p : Identity → Provider} {q : Identity → Provider}
    (h : (p a.supply).Strips (ρ.add a.supply b.supply) (q b.supply)) :
    Mirrors ρ a b (do return some (p (← Eval.identity)) : UserCode (Option Provider))
      (do return some (q (← Eval.identity))) MayStrip :=
  Eval.Mirrors.of_run rfl rfl (.fresh hs) (.ok (.some h))

/-- New leaves with calls of their own. -/
theorem newCalls (hs : a.Strips ρ b) (type : PayloadType) (node : Option String)
    (code : Nat → Action) :
    Mirrors ρ a b (do
        return some (.changing (← Eval.identity) type node (← freshCalls code held)) :
          UserCode (Option Provider))
      (do return some (.changing (← Eval.identity) type node (← freshCalls code held)))
      MayStrip := by
  have hab := Machine.Along.fresh hs
  refine Eval.Mirrors.of_run rfl rfl (hab.trans (.fresh hab.strips)) (.ok (.some ?_))
  exact .changing (.inl (ρ.add_self _ _)) _ _ _ _ _ _

/-- New providers are built around parts. -/
theorem around {f g : Identity → Provider → Provider}
    (hb : Mirrors ρ a b (Ask.build base held) (Ask.build base' held) MayStrip)
    (hfg : ∀ σ i j p q, σ i j → p.Strips σ q → (f i p).Strips σ (g j q)) :
    Mirrors ρ a b (withPart base held fun p => do return f (← Eval.identity) p)
      (withPart base' held fun p => do return g (← Eval.identity) p) MayStrip := by
  refine .bind hb fun σ a' b' v w _ hab hvw => ?_
  cases hvw with
  | none => exact .pure hab.strips .none
  | some h =>
    refine Eval.Mirrors.of_run rfl rfl (.fresh hab.strips) (.ok (.some ?_))
    exact hfg _ _ _ _ _ (σ.add_self _ _) (h.mono (σ.within_add _ _))

/-- A fallback is built around a part that is there and the part that comes next. -/
theorem aroundBoth {p q : Provider} (h : p.Strips ρ q)
    (hb : Mirrors ρ a b (Ask.build base held) (Ask.build base' held) MayStrip) :
    Mirrors ρ a b (withPart base held fun r => do return .orElse (← Eval.identity) p r)
      (withPart base' held fun r => do return .orElse (← Eval.identity) q r) MayStrip := by
  refine .bind hb fun σ a' b' v w _ hab hvw => ?_
  cases hvw with
  | none => exact .pure hab.strips .none
  | some hr =>
    refine Eval.Mirrors.of_run rfl rfl (.fresh hab.strips) (.ok (.some ?_))
    exact .orElse (σ.add_self _ _) (h.mono (hab.within.trans (σ.within_add _ _)))
      (hr.mono (σ.within_add _ _))

/-- An effect is put on the part of the first machine only. -/
theorem effect {e : Effect} {y : UserCode (Option Provider)}
    (hb : Mirrors ρ a b (Ask.build base held) y MayStrip) :
    Mirrors ρ a b (withPart base held fun p => do return .withEffect (← Eval.identity) p e) y
      MayStrip := by
  rw [← bind_pure y]
  refine .bind hb fun σ a' b' v w _ hab hvw => ?_
  cases hvw with
  | none => exact .pure hab.strips .none
  | some h =>
    exact Eval.Mirrors.of_run rfl rfl (.freshLeft hab.strips) (.ok (.some (.withEffect _ _ h)))

/-- What a register holds. -/
theorem lookup {α : Type} {R : Pairing → α → α → Prop} {what name : String}
    {registers : Machine → Table String α} (hs : a.Strips ρ b)
    (h : Option.Rel (R ρ) ((registers a).find? name) ((registers b).find? name)) :
    Mirrors ρ a b (ProviderGraph.lookup what registers name)
      (ProviderGraph.lookup what registers name) R := by
  rw [Mirrors, ProviderGraph.lookup, Eval.run_lift_bind]
  refine Eval.Mirrors.run_bind rfl rfl (.refl hs) (Mirrors.of_except hs ?_)
  simp only [Table.content]
  cases hl : (registers a).find? name <;> cases hr : (registers b).find? name <;>
    rw [hl, hr] at h <;> cases h
  · exact .error _
  · exact .ok ‹_›

/-- Code runs on the payload that is held. -/
theorem onHeld {α : Type} {c : Action} (hc : c.Pure) (hs : a.Strips ρ b)
    {f g : Option Payload → UserCode α} {P : Pairing → α → α → Prop}
    (h : ∀ σ a' b' y, a'.Strips σ b' → Mirrors σ a' b' (f y) (g y) P) :
    Mirrors ρ a b (do f (← Ask.action c held (← ofExcept (heldPayload held))))
      (do g (← Ask.action c held (← ofExcept (heldPayload held)))) P := by
  refine .bind (.same_except hs _) fun σ a' b' x x' _ hab hx => ?_
  subst hx
  refine .bind (.action hab.strips hc held x) fun τ a'' b'' y y' _ hab' hy => ?_
  subst hy
  exact h τ a'' b'' y hab'.strips

theorem build {P : Pairing → Option Provider → Option Provider → Prop}
    (h : Mirrors ρ a b (evalRecipe r held) (evalRecipe r' held) P) :
    Mirrors ρ a b (Ask.build r held) (Ask.build r' held) P := Eval.Mirrors.ask h

end Mirrors

/-- A recipe with pure code builds what it builds without effects, but for the effects. -/
theorem Recipe.Pure.mirrors (hr : r.Pure) (hs : a.Strips ρ b) :
    Mirrors ρ a b (Ask.build r held) (Ask.build r.bare held) Provider.MayStrip := by
  induction hr generalizing ρ a b with
  | register name =>
    refine .build ?_
    change Mirrors ρ a b (evalRecipe (.register name) held) (evalRecipe (.register name) held) _
    rw [evalRecipe, map_eq_pure_bind]
    refine .bind (.lookup hs (hs.providers name)) fun σ a' b' p q _ hab h => ?_
    exact .pure hab.strips (.some h)
  | fixed x => exact .build (.new hs (.fixed (ρ.add_self _ _) x))
  | undefined type => exact .build (.new hs (.undefined (ρ.add_self _ _) type []))
  | changing type code => exact .build (.newCalls hs type none code)
  | produced type node code =>
    refine .build (.bind (.same_except hs _) fun σ a' b' name name' _ hab h => ?_)
    subst h
    exact .newCalls hab.strips type _ code
  | property name =>
    refine .build (.bind (.lookup (R := fun σ r r' => r' = r ∧ σ r.id r.id) hs
      (hs.references name)) fun σ a' b' r r' _ hab h => ?_)
    obtain ⟨rfl, h⟩ := h
    exact .pure hab.strips (.some (.property h))
  | map f type _ ih =>
    exact .build (.around (ih hs) fun _ _ _ _ _ hij h => .map hij _ type h)
  | flatMap choice type _ ih =>
    exact .build (.around (ih hs) fun _ _ _ _ _ hij h => .flatMap hij choice type h)
  | orElse _ _ ihl ihr =>
    refine .build (.bind (ihl hs) fun σ a' b' v w _ hab hvw => ?_)
    cases hvw with
    | none => exact .pure hab.strips .none
    | some hl => exact .aroundBoth hl (ihr hab.strips)
  | withEffect e _ ih => exact Eval.Mirrors.askLeft (Mirrors.effect (ih hs))
  | named name _ ih =>
    exact .build (.around (ih hs) fun _ _ _ _ _ hij h => .named hij name h)
  | result hc =>
    refine .build (.onHeld hc hs fun σ a' b' y hs' => ?_)
    cases y with
    | none => exact .pure hs' .none
    | some y => exact .new hs' (.fixed (σ.add_self _ _) y)
  | after hc _ ih =>
    refine .build (.onHeld hc hs fun σ a' b' y hs' => ?_)
    cases y with
    | none => exact .pure hs' .none
    | some _ => exact ih hs'
  | dispatch _ ih =>
    refine .build (.bind (.same_except hs _) fun σ a' b' x x' _ hab hx => ?_)
    subst hx
    exact ih x hab.strips

end ProviderGraph
