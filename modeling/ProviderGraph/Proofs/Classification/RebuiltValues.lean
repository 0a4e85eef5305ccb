import ProviderGraph.Proofs.Classification.ClassifiedProviders
import ProviderGraph.Proofs.Classification.SimilarValues

/-!
# Values of rebuilt providers

Where a provider has a value, the provider that is rebuilt from its classification has a similar
one. The scopes that are rebuilt are new, so that it opens no old scope that the provider does not
open.
-/

namespace ProviderGraph

open Agenda
open Provider (chosen ofClassification withEffectOn nameOn)

/-! ### Shallower stacks -/

/-- There is as much room at least, and no more of the old scopes are open. -/
structure ScopeStack.Shallower (k : Identity) (s t : ScopeStack) : Prop where
  limit_eq : s.limit = t.limit
  depth_le : s.depth ≤ t.depth
  isOpen : ∀ i < k, s.isOpen i = true → t.isOpen i = true

variable {m : Machine} {s t s₁ t₁ : ScopeStack} {p q r base : Provider} {c : Classification}
  {type : PayloadType} {v w b : Outcome}

namespace ScopeStack.Shallower

variable {k : Identity}

theorem refl (s : ScopeStack) : s.Shallower k s := ⟨rfl, Nat.le_refl _, fun _ _ h => h⟩

theorem trans (h : s.Shallower k t) (h' : t.Shallower k s₁) : s.Shallower k s₁ where
  limit_eq := h.limit_eq.trans h'.limit_eq
  depth_le := Nat.le_trans h.depth_le h'.depth_le
  isOpen i hi ho := h'.isOpen i hi (h.isOpen i hi ho)

end ScopeStack.Shallower

/-- There is less room inside a scope, and no more of the old scopes are open. -/
theorem Machine.nesting.shallower (h : m.nesting s p t) : s.Shallower m.supply t where
  limit_eq := (limit_of_enter h).symm
  depth_le := Nat.le_of_lt (depth_of_enter h ▸ Nat.lt_succ_self _)
  isOpen _ _ ho := (isOpen_of_nesting h).mpr (.inr ho)

namespace ScopeStack.Shallower

/-- On the shallower stack the scope of the same provider can be opened, or that of a new one. -/
theorem nesting (h : s.Shallower m.supply t) (ht : m.nesting t p t₁)
    (hq : q = p ∨ m.supply ≤ q.id) : ∃ s₁, m.nesting s q s₁ ∧ s₁.Shallower m.supply t₁ := by
  obtain ⟨hopen, hd, -⟩ := Machine.enter_eq_ok_iff.mp ht
  have hs₁ : m.nesting s q { s with frames := q.owner :: s.frames } := by
    refine Machine.enter_eq_ok_iff.mpr ⟨?_, h.limit_eq ▸ Nat.lt_of_le_of_lt h.depth_le hd, rfl⟩
    rintro ⟨hid, ho⟩
    rcases hq with rfl | hnew
    · exact hopen ⟨hid, h.isOpen _ hid ho⟩
    · exact Nat.not_lt.mpr hnew hid
  refine ⟨_, hs₁, h.limit_eq.trans (Machine.limit_of_enter ht).symm, ?_, fun i hi ho => ?_⟩
  · rw [Machine.depth_of_enter hs₁, Machine.depth_of_enter ht]
    exact Nat.succ_le_succ h.depth_le
  · rw [Machine.isOpen_of_nesting ht]
    rcases (Machine.isOpen_of_nesting hs₁).mp ho with rfl | ho
    · exact .inl (congrArg Provider.id (hq.resolve_right (Nat.not_le.mpr hi))).symm
    · exact .inr (h.isOpen i hi ho)

/-- What is found on a stack is found on a shallower one. -/
theorem yields (h : s.Shallower m.supply t) {d : Demand} {a : d.Answer}
    (ha : m.Yields m.nesting t d a) : m.Yields m.nesting s d a :=
  Agenda.Yields.simulate (fun t s => s.Shallower m.supply t)
    (fun _ _ _ _ ht h => h.nesting ht (.inl rfl)) ha h

end ScopeStack.Shallower

/-! ### Known payloads -/

/-- A fixed classification is turned into a provider of its payload and effect. -/
theorem yields_ofClassification_fixed {σ : Type} {E : Discipline σ} {s : σ} {x : Payload}
    {e : Option Effect}
    (h : m.Yields E s (.value (ofClassification m type (.fixed x e))) w) : .present x e = w := by
  cases e with
  | none => exact yields_fixed_iff.mp h
  | some e =>
    obtain ⟨b, hb, rfl⟩ := yields_withEffect_iff.mp h
    obtain ⟨_, u, -, hu, rfl⟩ := yields_askValue_iff.mp hb
    obtain rfl := yields_fixed_iff.mp hu
    rfl

/-- A known payload is found where its effect, if it has one, has room for its scope. -/
theorem ofClassification_fixed_yields {x : Payload} {e : Option Effect}
    (h : ∀ e', e = some e' → s.depth < s.limit) :
    m.Yields m.nesting s (.value (ofClassification m type (.fixed x e))) (.present x e) := by
  cases e with
  | none => exact yields_fixed_iff.mpr rfl
  | some e =>
    have ht : m.nesting s (.withEffect m.supply (.fixed m.supply x) e)
        { s with frames := ⟨m.supply, "with_side_effect"⟩ :: s.frames } :=
      Machine.enter_eq_ok_iff.mpr ⟨fun h => Nat.lt_irrefl _ h.1, h e rfl, rfl⟩
    exact yields_withEffect_iff.mpr
      ⟨_, yields_askValue_iff.mpr ⟨_, _, ht, yields_fixed_iff.mpr rfl, rfl⟩, rfl⟩

/-! ### From the provider to what is rebuilt -/

/-- Where `p` has a value, `q` has a similar one. -/
def Follows (m : Machine) (s : ScopeStack) (p q : Provider) : Prop :=
  ∀ v, m.Yields m.nesting s (.value p) v →
    ∃ w, m.Yields m.nesting s (.value q) w ∧ v.Similar w

namespace Follows

theorem refl (s : ScopeStack) (p : Provider) : Follows m s p p := fun v hv => ⟨v, hv, .refl v⟩

/-- Inside the scope of the provider a part has a value. -/
theorem exists_of_ask (ht : m.nesting s p t) (hb : (askValue base).Yields m m.nesting s p b) :
    ∃ u, m.Yields m.nesting t (.value base) u ∧ u.push base.declaredName = b := by
  obtain ⟨t', u, ht', hu, hb⟩ := yields_askValue_iff.mp hb
  obtain rfl := ht.eq ht'
  exact ⟨u, hu, hb⟩

/-- Where a provider asks a part, a new provider may ask what is rebuilt from the part. -/
theorem ask (h : Follows m t base q) (ht : m.nesting s p t)
    (hb : (askValue base).Yields m m.nesting s p b) :
    ∃ b', (∀ {r : Provider}, r.id = m.supply → (askValue q).Yields m m.nesting s r b') ∧
      b.Similar b' := by
  obtain ⟨u, hu, rfl⟩ := exists_of_ask ht hb
  obtain ⟨w, hw, huw⟩ := h u hu
  refine ⟨w.push q.declaredName, fun hr => ?_, huw.push _ _⟩
  obtain ⟨t₁, ht₁, hs⟩ := (ScopeStack.Shallower.refl s).nesting ht (.inr (Nat.le_of_eq hr.symm))
  exact yields_askValue_iff.mpr ⟨t₁, w, ht₁, hs.yields hw, rfl⟩

/-- What is rebuilt from a part is found outside of the scope of the provider. -/
theorem outside (h : Follows m t base q) (ht : m.nesting s p t)
    (hb : (askValue base).Yields m m.nesting s p b) :
    ∃ b', m.Yields m.nesting s (.value q) b' ∧ b.Similar b' := by
  obtain ⟨u, hu, rfl⟩ := exists_of_ask ht hb
  obtain ⟨w, hw, huw⟩ := h u hu
  exact ⟨w, ht.shallower.yields hw, huw.push_left _⟩

/-- A part whose payload is known has this payload. -/
theorem eq_of_fixed {x : Payload} {e : Option Effect}
    (h : Follows m t base (ofClassification m type (.fixed x e))) (ht : m.nesting s p t)
    (hb : (askValue base).Yields m m.nesting s p b) : b = .present x e := by
  obtain ⟨w, hw, hbw⟩ := h.outside ht hb
  obtain rfl := yields_ofClassification_fixed hw
  cases hbw
  rfl

/-- A part that is known to be missing is missing. -/
theorem missing {i : Identity} {path : List String}
    (h : Follows m t base (.undefined i type path)) (ht : m.nesting s p t)
    (hb : (askValue base).Yields m m.nesting s p b) : ∃ path, b = .missing path := by
  obtain ⟨w, hw, hbw⟩ := h.outside ht hb
  obtain rfl := yields_undefined_iff.mp hw
  cases hbw
  exact ⟨_, rfl⟩

/-- A known payload, where there was room for a scope. -/
theorem fixed {x : Payload} {e : Option Effect} (ht : m.nesting s p t) :
    ∃ w, m.Yields m.nesting s (.value (ofClassification m type (.fixed x e))) w ∧
      (Value.present x e).Similar w :=
  ⟨_, ofClassification_fixed_yields fun _ _ => ht.depth_lt, .refl _⟩

theorem undefined (path path' : List String) :
    ∃ w, m.Yields m.nesting s (.value (.undefined m.supply type path)) w ∧
      (Value.missing path').Similar w :=
  ⟨_, yields_undefined_iff.mpr rfl, .missing _ _⟩

section Rules

variable {i : Identity} {left right : Provider} {f : Closure} {choice : Recipe} {x : Payload}
  {old : Option Effect} {path : List String} {type' : PayloadType}

theorem changing {node : Option String} {calls : Calls} :
    Follows m s (.changing i type node calls) (.changing m.supply type node calls) :=
  fun v hv => ⟨v, yields_done_iff.mpr (yields_done_iff.mp hv), .refl v⟩

/-- A map over something missing is missing as its classification is. -/
theorem mapMissing (ht : m.nesting s (.map i base f type') t)
    (h : Follows m t base (ofClassification m type (.missing path))) :
    Follows m s (.map i base f type') (ofClassification m type (.missing path)) := by
  intro v hv
  obtain ⟨b, hb, hv⟩ := yields_map_iff.mp hv
  obtain ⟨path, rfl⟩ := h.missing ht hb
  obtain rfl := Except.ok.inj hv
  exact Follows.undefined _ _

/-- The transform ran for the classification. -/
theorem mapFixed {y : Option Payload} (ht : m.nesting s (.map i base f type') t)
    (h : Follows m t base (ofClassification m type (.fixed x old)))
    (hy : f.code.result f.held x = .ok y) :
    Follows m s (.map i base f type') (ofClassification m type
      (.ofValue ((Value.ofOption y).withEffect (SideEffect.boundTo x old)))) := by
  intro v hv
  obtain ⟨b, hb, hv⟩ := yields_map_iff.mp hv
  obtain rfl := h.eq_of_fixed ht hb
  rw [Closure.mapped, hy] at hv
  obtain rfl := Except.ok.inj hv
  cases y with
  | none => exact Follows.undefined _ _
  | some y => exact Follows.fixed ht

/-- A map over something changing is followed by a map over what changes. -/
theorem mapChanging (ht : m.nesting s (.map i base f type') t) (h : Follows m t base q) :
    Follows m s (.map i base f type') (.map m.supply q f type') := by
  intro v hv
  obtain ⟨b, hb, hv⟩ := yields_map_iff.mp hv
  obtain ⟨b', hb', hbb'⟩ := h.ask ht hb
  obtain ⟨v', hv', hvv'⟩ := Closure.exists_mapped hv hbb'
  exact ⟨v', yields_map_iff.mpr ⟨b', hb' rfl, hv'⟩, hvv'⟩

/-- A flat map over something missing is missing as its classification is. -/
theorem flatMapMissing (ht : m.nesting s (.flatMap i base choice type') t)
    (h : Follows m t base (ofClassification m type (.missing path))) :
    Follows m s (.flatMap i base choice type') (ofClassification m type (.missing path)) := by
  intro v hv
  obtain ⟨b, hb, hv⟩ := yields_flatMap_iff.mp hv
  obtain ⟨path, rfl⟩ := h.missing ht hb
  obtain rfl := hv
  exact Follows.undefined _ _

/-- The choice was made for the classification. -/
theorem flatMapFixed (ht : m.nesting s (.flatMap i base choice type') t)
    (h : Follows m t base (ofClassification m type (.fixed x old)))
    (hq : chosen m choice type' x (SideEffect.boundTo x old) = .ok q) (h' : Follows m t q r) :
    Follows m s (.flatMap i base choice type') r := by
  intro v hv
  obtain ⟨b, hb, hv⟩ := yields_flatMap_iff.mp hv
  obtain rfl := h.eq_of_fixed ht hb
  obtain ⟨q, hq', hv⟩ := hv
  obtain rfl := Except.ok.inj (hq.symm.trans hq')
  exact h'.outside ht hv

/-- A flat map over something changing is followed by one over what changes. -/
theorem flatMapChanging (ht : m.nesting s (.flatMap i base choice type') t)
    (h : Follows m t base q) :
    Follows m s (.flatMap i base choice type') (.flatMap m.supply q choice type') := by
  intro v hv
  obtain ⟨b, hb, hv⟩ := yields_flatMap_iff.mp hv
  obtain ⟨b', hb', hbb'⟩ := h.ask ht hb
  cases hbb' with
  | missing path path' =>
    obtain rfl := hv
    exact ⟨_, yields_flatMap_iff.mpr ⟨_, hb' rfl, rfl⟩, .missing _ _⟩
  | present x e =>
    obtain ⟨q, hq, hv⟩ := hv
    obtain ⟨v', hv', hvv'⟩ := (Follows.refl _ q).ask ht hv
    exact ⟨v', yields_flatMap_iff.mpr ⟨_, hb' rfl, q, hq, hv' rfl⟩, hvv'⟩

/-- A fallback whose left side is fixed is followed by the payload of that side. -/
theorem orFixed (ht : m.nesting s (.orElse i left right) t)
    (h : Follows m t left (ofClassification m type (.fixed x old))) :
    Follows m s (.orElse i left right) (ofClassification m type (.fixed x old)) := by
  intro v hv
  obtain ⟨l, hl, hv⟩ := yields_orElse_iff.mp hv
  obtain rfl := h.eq_of_fixed ht hl
  obtain rfl := hv
  exact Follows.fixed ht

/-- The left side of a fallback is dropped. -/
theorem orMissing (ht : m.nesting s (.orElse i left right) t)
    (h : Follows m t left (ofClassification m type (.missing path))) (h' : Follows m t right q) :
    Follows m s (.orElse i left right) q := by
  intro v hv
  obtain ⟨l, hl, hv⟩ := yields_orElse_iff.mp hv
  obtain ⟨path, rfl⟩ := h.missing ht hl
  obtain ⟨r, hr, rfl⟩ := hv
  obtain ⟨w, hw, hrw⟩ := h'.outside ht hr
  exact ⟨w, hw, (similar_fallback r).trans hrw⟩

/-- The right side of a fallback is dropped. -/
theorem orAlone (ht : m.nesting s (.orElse i left right) t) (h : Follows m t left q)
    (h' : Follows m t right (ofClassification m type (.missing path))) :
    Follows m s (.orElse i left right) q := by
  intro v hv
  obtain ⟨l, hl, hv⟩ := yields_orElse_iff.mp hv
  obtain ⟨w, hw, hlw⟩ := h.outside ht hl
  refine ⟨w, hw, ?_⟩
  cases l with
  | present x e => exact hv ▸ hlw
  | missing path =>
    obtain ⟨r, hr, rfl⟩ := hv
    obtain ⟨path', rfl⟩ := h'.missing ht hr
    exact Value.Similar.trans (.missing _ _) hlw

/-- A fallback is followed by one between what its sides are followed by. -/
theorem orBoth (ht : m.nesting s (.orElse i left right) t) (h : Follows m t left q)
    (h' : Follows m t right r) : Follows m s (.orElse i left right) (.orElse m.supply q r) := by
  intro v hv
  obtain ⟨l, hl, hv⟩ := yields_orElse_iff.mp hv
  obtain ⟨l', hl', hll'⟩ := h.ask ht hl
  cases hll' with
  | present x e => exact ⟨_, yields_orElse_iff.mpr ⟨_, hl' rfl, rfl⟩, hv ▸ .refl _⟩
  | missing path path' =>
    obtain ⟨r, hr, rfl⟩ := hv
    obtain ⟨r', hr', hrr'⟩ := h'.ask ht hr
    refine ⟨_, yields_orElse_iff.mpr ⟨_, hl' rfl, r', hr' rfl, rfl⟩, ?_⟩
    exact ((similar_fallback r).trans hrr').trans (similar_fallback r').symm

theorem withEffect {e : Effect} (ht : m.nesting s (.withEffect i base e) t)
    (h : Follows m t base (ofClassification m type c)) :
    Follows m s (.withEffect i base e) (ofClassification m type (withEffectOn m e c)) := by
  intro v hv
  obtain ⟨b, hb, rfl⟩ := yields_withEffect_iff.mp hv
  cases c with
  | fixed x old =>
    obtain rfl := h.eq_of_fixed ht hb
    exact Follows.fixed ht
  | missing path =>
    obtain ⟨path', rfl⟩ := h.missing ht hb
    exact Follows.undefined _ _
  | changing q =>
    obtain ⟨b', hb', hbb'⟩ := h.ask ht hb
    exact ⟨_, yields_withEffect_iff.mpr ⟨b', hb' rfl, rfl⟩, hbb'.withEffect _⟩

theorem named {name : String} (ht : m.nesting s (.named i base name) t)
    (h : Follows m t base (ofClassification m type c)) :
    Follows m s (.named i base name) (ofClassification m type (nameOn m name c)) := by
  intro v hv
  have hb := yields_named_iff.mp hv
  cases c with
  | fixed x old =>
    obtain rfl := h.eq_of_fixed ht hb
    exact Follows.fixed ht
  | missing path =>
    obtain ⟨path', rfl⟩ := h.missing ht hb
    exact Follows.undefined _ _
  | changing q =>
    obtain ⟨b', hb', hbb'⟩ := h.ask ht hb
    exact ⟨b', yields_named_iff.mpr (hb' rfl), hbb'⟩

end Rules

end Follows

/-- Where a provider has a value, what is rebuilt from its classification has a similar one. -/
theorem Provider.Classified.follows (h : p.Classified m s c) (type : PayloadType) :
    Follows m s p (ofClassification m type c) := by
  induction h generalizing type with
  | fixed =>
    intro v hv
    obtain rfl := yields_fixed_iff.mp hv
    exact ⟨_, yields_fixed_iff.mpr rfl, .refl _⟩
  | undefined =>
    intro v hv
    obtain rfl := yields_undefined_iff.mp hv
    exact Follows.undefined _ _
  | changing => exact .changing
  | mapMissing ht _ ih => exact .mapMissing ht (ih type)
  | mapFixed ht _ hy ih => exact .mapFixed ht (ih type) hy
  | mapChanging ht _ ih => exact .mapChanging ht (ih type)
  | flatMapMissing ht _ ih => exact .flatMapMissing ht (ih type)
  | flatMapFixed ht _ hq _ ih ih' => exact .flatMapFixed ht (ih type) hq (ih' type)
  | flatMapChanging ht _ ih => exact .flatMapChanging ht (ih type)
  | orFixed ht _ ih => exact .orFixed ht (ih type)
  | orMissing ht _ _ ih ih' => exact .orMissing ht (ih type) (ih' type)
  | orAlone ht _ _ ih ih' => exact .orAlone ht (ih type) (ih' type)
  | orBoth ht _ _ _ ih ih' => exact .orBoth ht (ih type) (ih' _)
  | withEffect ht _ ih => exact .withEffect ht (ih type)
  | named ht _ ih => exact .named ht (ih type)
  | held hq ht _ ih =>
    intro v hv
    exact (ih type).outside ht ((yields_property_iff hq).mp hv)
  | unset hq =>
    intro v hv
    obtain rfl := (yields_unset_iff hq).mp hv
    exact Follows.undefined _ _

end ProviderGraph
