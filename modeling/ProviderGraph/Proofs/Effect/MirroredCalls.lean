import ProviderGraph.Proofs.Effect.MirroredBuilding
import ProviderGraph.Proofs.Effect.ReadyProviders
import ProviderGraph.Proofs.Effect.StrictReadings

/-!
# Texts and calls without effects

Providers that correspond have the same text and make the same calls, and what their code builds
corresponds.
-/

namespace ProviderGraph

variable {α β γ δ : Type} {ρ σ : Pairing} {m a a' b b' : Machine} {p p' q q' : Provider}
  {t : ScopeStack} {x : Payload} {e : Option Effect}

theorem Eval.Mirrors.textOf {x y : Eval String} (f : String → String)
    (h : Eval.Mirrors ρ a b x y fun _ s s' => s = s') :
    Eval.Mirrors ρ a b (do return f (← x)) (do return f (← y)) fun _ s s' => s = s' := by
  refine h.bind fun σ a' b' s s' _ hab hs => ?_
  subst hs
  exact .pure hab.strips rfl

/-- Effects are not seen in the text of a provider. -/
theorem Provider.Ready.mirrors_text (hm : m.Minted) (hs : a.Strips ρ b) (hp : p.Ready m a)
    (hpq : p.Strips ρ q) (label label' : String) :
    Eval.Mirrors ρ a b (.ask (.text p label) pure) (.ask (.text q label') pure)
      fun _ s s' => s = s' := by
  generalize hr : a.stack.room = r
  induction r using Nat.strongRecOn generalizing ρ a b p q label label' with
  | ind r ih =>
    subst hr
    have inside {σ : Pairing} {t : ScopeStack} {a' b' : Machine} {p' q' : Provider} {o : Owner}
        (ht : a.stack.enter o = .ok t) (ha' : a'.stack = t) (hs' : a'.Strips σ b')
        (hp' : p'.Ready m a') (hpq' : p'.Strips σ q') (label : String) :
        Eval.Mirrors σ a' b' (Ask.text p') (.ask (.text q' label) pure) fun _ s s' => s = s' :=
      ih _ (ha' ▸ ScopeStack.room_lt_of_enter ht) hs' hp' hpq' _ _ rfl
    have hopen := hp.not_isOpen
    cases hpq with
    | fixed hid x | undefined hid type path | changing hid type node c c' code held =>
      exact .ask (.within hs hid hopen fun t t' ht hs' => .pure hs' rfl)
    | map hid f type hb =>
      exact .ask (.within hs hid hopen fun t t' ht hs' =>
        .textOf _ (inside ht rfl hs' (hp.base_map rfl ht) hb _))
    | flatMap hid choice type hb =>
      exact .ask (.within hs hid hopen fun t t' ht hs' =>
        .textOf _ (inside ht rfl hs' (hp.base_flatMap rfl ht) hb _))
    | orElse hid hl hr =>
      refine .ask (.within hs hid hopen fun t t' ht hs' =>
        .bind (inside ht rfl hs' (hp.left_orElse rfl ht) hl _) fun σ a' b' s s' _ hab h => ?_)
      subst h
      have hright := (hp.right_orElse rfl ht).later hab.grows hab.left_stack
      exact .textOf _ (inside ht hab.left_stack hab.strips hright (hr.mono hab.within) _)
    | withEffect i e h =>
      exact .askLeft (.withinLeft hs hopen fun t ht hs' =>
        inside ht rfl hs' (hp.inner rfl ht) h label')
    | named hid name h =>
      exact .ask (.within hs hid hopen fun t t' ht hs' => .pure hs' rfl)
    | @property r hid =>
      refine .ask (.within hs hid hopen fun t t' ht hs' => ?_)
      rw [describe]
      cases r.name with
      | some name => exact .pure hs' rfl
      | none =>
        refine .run_bind (Eval.run_property _ _ _) (Eval.run_property _ _ _) (.refl hs') ?_
        rcases hs'.effective_cases r.id with ⟨hq, hq'⟩ | ⟨q, q', hq, hq', hqq'⟩ <;> rw [hq, hq']
        · exact .pure hs' rfl
        · exact .textOf _ (inside ht rfl hs' (hp.held hm hq rfl ht) hqq' _)
    | custom hid form producer c c' e =>
      refine .ask (.within hs hid hopen fun t t' ht hs' => ?_)
      simp only [describe]
      cases form.kind <;> exact .pure hs' rfl

/-- Calls with a steady result give it on both machines. -/
theorem Calls.Steady.mirrors (hs : a.Strips ρ b) {c c' : Identity} {code : Nat → Action}
    {held : Option Payload} {r : Except Failure (Option Payload)}
    (hc : (⟨c, code, held⟩ : Calls).Steady r) :
    Eval.Mirrors ρ a b (nextCall ⟨c, code, held⟩) (nextCall ⟨c', code, held⟩)
      fun _ r r' => r = r' := by
  have hc' : (⟨c', code, held⟩ : Calls).Steady r := hc
  exact .of_run hc.run_nextCall hc'.run_nextCall (.bump hs c c') rfl

namespace Eval.Mirrors

theorem freshUndefined (hs : a.Strips ρ b) (type : PayloadType) (path : List String) :
    Mirrors ρ a b (ProviderGraph.freshUndefined type path)
      (ProviderGraph.freshUndefined type path) Provider.Strips :=
  .of_run rfl rfl (.fresh hs) (.undefined (ρ.add_self _ _) type path)

/-- An effect is put on the provider of the first machine only. -/
theorem wrapEffect (hs : a.Strips ρ b) (h : p.Strips ρ q) (e : Option Effect) :
    Mirrors ρ a b (ProviderGraph.wrapEffect p e) (ProviderGraph.wrapEffect q none)
      Provider.Strips := by
  cases e with
  | none => exact .pure hs h
  | some e => exact .of_run rfl rfl (.freshLeft hs) (.withEffect _ e h)

/-- A provider that reproduces a classification does so without the effect. -/
theorem toProvider (hs : a.Strips ρ b) {c c' : Classification} (h : c.Strips ρ c')
    (type : PayloadType) :
    Mirrors ρ a b (c.toProvider type) (c'.toProvider type) Provider.Strips := by
  cases h with
  | fixed x e =>
    refine .bind (.of_run (P := Provider.Strips) rfl rfl (.fresh hs) (.fixed (ρ.add_self _ _) x))
      fun σ a' b' p q _ hab h => ?_
    exact wrapEffect hab.strips h e
  | changing h => exact .pure hs h
  | missing path => exact freshUndefined hs type path

/-- An effect on a classification is passed over without effects. -/
theorem addEffect (hs : a.Strips ρ b) {c c' : Classification} (h : c.Strips ρ c') (e : Effect) :
    Mirrors ρ a b (c.addEffect e) (Pure.pure c') Classification.Strips := by
  cases h with
  | fixed x e' => exact .pure hs (.fixed x _)
  | changing h => exact .of_run rfl rfl (.freshLeft hs) (.changing (.withEffect _ e h))
  | missing path => exact .pure hs (.missing path)

/-- A name is put on both classifications. -/
theorem addName (hs : a.Strips ρ b) {c c' : Classification} (h : c.Strips ρ c') (name : String) :
    Mirrors ρ a b (c.addName name) (c'.addName name) Classification.Strips := by
  cases h with
  | fixed x e => exact .pure hs (.fixed x e)
  | changing h =>
    exact .of_run rfl rfl (.fresh hs) (.changing (.named (ρ.add_self _ _) name
      (h.mono (ρ.within_add _ _))))
  | missing path => exact .pure hs (.missing (name :: path))

end Eval.Mirrors

namespace Mirrors

section Code

variable (hm : m.Minted) (hs : a.Strips ρ b) (hp : p.Ready m a) (hpq : p.Strips ρ q)
  (hid : ρ p.id q.id)

include hm hs hp hpq hid

/-- A transform gives the same payload, or its failure is reported alike. -/
theorem applyTransform {f : Closure} (hf : f.code.Pure) (x : Payload) :
    Mirrors ρ a b (ProviderGraph.applyTransform p f x) (ProviderGraph.applyTransform q f x)
      fun _ y z => y = z := by
  refine .bind (P := fun _ r r' => r = r') (.within hs hid hp.not_isOpen fun t t' ht hs' =>
    .lift (.act hs' hf f.held x)) fun σ a' b' r r' _ hab h => ?_
  subst h
  have hp' := hp.later hab.grows hab.left_stack
  exact .settle hab.strips .rfl (hp'.mirrors_text hm hab.strips (hpq.mono hab.within) _ _)

/-- A flat map goes on with providers that correspond. -/
theorem chooseNext {choice : Recipe} (hc : choice.Pure) (type : PayloadType) (x : Payload)
    (e : Option Effect) :
    Mirrors ρ a b (ProviderGraph.chooseNext p choice type (.present x e))
      (ProviderGraph.chooseNext q choice.bare type (.present x none)) Provider.Strips := by
  refine .bind (P := fun σ => SameResult (Provider.MayStrip σ))
    (.within hs hid hp.not_isOpen fun t t' ht hs' => .lift (hc.mirrors hs'))
    fun σ a' b' r r' _ hab h => ?_
  have hp' := hp.later hab.grows hab.left_stack
  refine .bind (.settle hab.strips h
    (hp'.mirrors_text hm hab.strips (hpq.mono hab.within) _ _)) fun τ a'' b'' v w _ hab' h => ?_
  cases h with
  | none => exact .lift (.freshUndefined hab'.strips type [])
  | some h => exact .lift (.wrapEffect hab'.strips h _)

end Code

end Mirrors

end ProviderGraph
