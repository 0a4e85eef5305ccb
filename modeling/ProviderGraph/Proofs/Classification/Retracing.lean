import ProviderGraph.Proofs.Classification.RebuiltValues

/-!
# From what is rebuilt to the provider

Where the provider that is rebuilt from a classification has a value, the provider itself has a
similar one, as far as it may open its scopes: whatever it has to open was opened by the
classification, or is opened in the new evaluation as well.
-/

namespace ProviderGraph

open Agenda
open Machine (guarded)
open Provider (chosen ofClassification withEffectOn nameOn)

variable {m : Machine} {s t s₁ t₁ : ScopeStack} {p q r base : Provider} {c : Classification}
  {type : PayloadType} {v w b : Outcome}

/-- A guard that lets more providers through leads to the same. -/
theorem Agenda.Yields.of_guard {α : Type} {P Q : Provider → Prop} {x : Agenda α} {a : α}
    (h : x.Yields m (guarded P) () p a) (hPQ : ∀ r, P r → Q r) : x.Yields m (guarded Q) () p a :=
  simulate (fun _ _ => True) (fun _ _ _ _ hp _ => ⟨(), hPQ _ hp, trivial⟩) h trivial

/-- What is open on a stack is not opened again. -/
theorem Agenda.Yields.guarded_of_nesting {α : Type} {x : Agenda α} {a : α}
    (h : x.Yields m m.nesting t p a) :
    x.Yields m (guarded fun r => r.id < m.supply → t.isOpen r.id = false) () p a := by
  refine simulate (fun t' _ => t.Shallower m.supply t') (fun t' q t'' _ ht h => ?_) h (.refl t)
  refine ⟨(), fun hid => ?_, h.trans (Machine.nesting.shallower ht)⟩
  have hopen := (Machine.enter_eq_ok_iff.mp ht).1
  exact Bool.eq_false_iff.mpr fun ho => hopen ⟨hid, h.isOpen _ hid ho⟩

/-- The provider is not open on both stacks. -/
def Free (m : Machine) (s t : ScopeStack) (r : Provider) : Prop :=
  r.id < m.supply → s.isOpen r.id = true → t.isOpen r.id = false

/-- What was just opened on one stack is not open on both. -/
theorem Free.of_nesting (h : m.nesting s p s₁) : Free m s t p :=
  fun hid ho => absurd ⟨hid, ho⟩ (Machine.enter_eq_ok_iff.mp h).1

theorem Free.of_shallower (h : Free m s₁ t₁ r) (hs : s.Shallower m.supply s₁)
    (ht : t.Shallower m.supply t₁) : Free m s t r := fun hid ho =>
  Bool.eq_false_iff.mpr fun ho' =>
    Bool.eq_false_iff.mp (h hid (hs.isOpen _ hid ho)) (ht.isOpen _ hid ho')

/-- Where `q` has a value on the stack `t`, `p` has a similar one, without opening what is open on
both stacks. -/
def Retraces (m : Machine) (s t : ScopeStack) (p q : Provider) : Prop :=
  ∀ w, m.Yields m.nesting t (.value q) w →
    ∃ v, m.Yields (guarded (Free m s t)) () (.value p) v ∧ v.Similar w

namespace Retraces

theorem refl (s t : ScopeStack) (p : Provider) : Retraces m s t p p := fun w hw =>
  ⟨w, hw.guarded_of_nesting.of_guard fun _ h hid _ => h hid, .refl w⟩

/-- A part of the provider is asked where what is rebuilt from the part has a value. -/
theorem outside (h : Retraces m s₁ t base q) (hs : m.nesting s p s₁)
    (hw : m.Yields m.nesting t (.value q) w) :
    ∃ b, (askValue base).Yields m (guarded (Free m s t)) () p b ∧ b.Similar w := by
  obtain ⟨v, hv, hvw⟩ := h w hw
  have hv := hv.of_guard fun r hr => Free.of_shallower hr hs.shallower (.refl t)
  exact ⟨_, yields_askValue_iff.mpr ⟨(), v, Free.of_nesting hs, hv, rfl⟩, hvw.push_left _⟩

theorem ask (h : ∀ t, Retraces m s₁ t base q) (hs : m.nesting s p s₁)
    (hb : (askValue q).Yields m m.nesting t r b) :
    ∃ b', (askValue base).Yields m (guarded (Free m s t)) () p b' ∧ b'.Similar b := by
  obtain ⟨t₁, w, ht, hw, rfl⟩ := yields_askValue_iff.mp hb
  obtain ⟨b', hb', hbw⟩ := (h t₁).outside hs hw
  have hb' := hb'.of_guard fun r hr => Free.of_shallower hr (.refl s) ht.shallower
  exact ⟨b', hb', hbw.trans ((Value.Similar.refl w).push_left _).symm⟩

/-- A part that is known ahead opens only what the classification opened. -/
theorem known (h : ∀ t, Retraces m s₁ t base q) (hs : m.nesting s p s₁)
    (hw : m.Yields m.nesting s (.value q) w) :
    ∃ b, (askValue base).Yields m (guarded (Free m s t)) () p b ∧ b.Similar w := by
  obtain ⟨v, hv, hvw⟩ := h s w hw
  refine ⟨_, yields_askValue_iff.mpr ⟨(), v, Free.of_nesting hs, ?_, rfl⟩, hvw.push_left _⟩
  refine hv.of_guard fun r hr hid ho => ?_
  exact absurd (hr hid (hs.shallower.isOpen _ hid ho)) (Bool.eq_false_iff.mp · ho)

/-- Where the base is known to be fixed its payload is found again. -/
theorem known_fixed {x : Payload} {e : Option Effect}
    (h : ∀ t, Retraces m s₁ t base (ofClassification m type (.fixed x e)))
    (hs : m.nesting s p s₁) :
    (askValue base).Yields m (guarded (Free m s t)) () p (.present x e) := by
  obtain ⟨b, hb, hbx⟩ := known h hs (ofClassification_fixed_yields fun _ _ => hs.depth_lt)
  cases hbx
  exact hb

/-- Where the base is known to be missing it is found missing. -/
theorem known_missing {i : Identity} {path : List String}
    (h : ∀ t, Retraces m s₁ t base (.undefined i type path)) (hs : m.nesting s p s₁) :
    ∃ path, (askValue base).Yields m (guarded (Free m s t)) () p (.missing path) := by
  obtain ⟨b, hb, hbx⟩ := known h hs (yields_undefined_iff.mpr rfl)
  cases hbx
  exact ⟨_, hb⟩

theorem missing (i : Identity) (path path' : List String)
    (h : m.Yields (guarded (Free m s t)) () (.value p) (.missing path)) :
    Retraces m s t p (.undefined i type path') := by
  intro w hw
  obtain rfl := yields_undefined_iff.mp hw
  exact ⟨_, h, .missing _ _⟩

/-- Where a payload is known the provider has it. -/
theorem present {x : Payload} {e : Option Effect}
    (h : m.Yields (guarded (Free m s t)) () (.value p) (.present x e)) :
    Retraces m s t p (ofClassification m type (.fixed x e)) := by
  intro w hw
  obtain rfl := yields_ofClassification_fixed hw
  exact ⟨_, h, .refl _⟩

section Rules

variable {i : Identity} {left right : Provider} {f : Closure} {choice : Recipe} {x : Payload}
  {old : Option Effect} {path : List String} {type' : PayloadType}

/-- A map over something missing is found missing again. -/
theorem mapMissing (hs : m.nesting s (.map i base f type') s₁)
    (h : ∀ t, Retraces m s₁ t base (ofClassification m type (.missing path))) :
    Retraces m s t (.map i base f type') (ofClassification m type (.missing path)) := by
  obtain ⟨path', hb⟩ := known_missing h hs
  exact .missing _ path' _ (yields_map_iff.mpr ⟨_, hb, rfl⟩)

/-- The transform ran for the classification. -/
theorem mapFixed {y : Option Payload} (hs : m.nesting s (.map i base f type') s₁)
    (h : ∀ t, Retraces m s₁ t base (ofClassification m type (.fixed x old)))
    (hy : f.code.result f.held x = .ok y) :
    Retraces m s t (.map i base f type') (ofClassification m type
      (.ofValue ((Value.ofOption y).withEffect (SideEffect.boundTo x old)))) := by
  have hvalue : m.Yields (guarded (Free m s t)) () (.value (.map i base f type'))
      ((Value.ofOption y).withEffect (SideEffect.boundTo x old)) :=
    yields_map_iff.mpr ⟨_, known_fixed h hs, by rw [Closure.mapped, hy]; rfl⟩
  cases y with
  | none => exact .missing _ _ _ hvalue
  | some y => exact .present hvalue

/-- A map over something changing retraces the map over what changes. -/
theorem mapChanging (hs : m.nesting s (.map i base f type') s₁)
    (h : ∀ t, Retraces m s₁ t base q) :
    Retraces m s t (.map i base f type') (.map m.supply q f type') := by
  intro w hw
  obtain ⟨b, hb, hw⟩ := yields_map_iff.mp hw
  obtain ⟨b', hb', hbb'⟩ := Retraces.ask h hs hb
  obtain ⟨v, hv, hvw⟩ := Closure.exists_mapped hw hbb'.symm
  exact ⟨v, yields_map_iff.mpr ⟨b', hb', hv⟩, hvw.symm⟩

/-- A flat map over something missing is found missing again. -/
theorem flatMapMissing (hs : m.nesting s (.flatMap i base choice type') s₁)
    (h : ∀ t, Retraces m s₁ t base (ofClassification m type (.missing path))) :
    Retraces m s t (.flatMap i base choice type') (ofClassification m type (.missing path)) := by
  obtain ⟨path', hb⟩ := known_missing h hs
  exact .missing _ path' _ (yields_flatMap_iff.mpr ⟨_, hb, rfl⟩)

/-- The choice was made for the classification. -/
theorem flatMapFixed (hs : m.nesting s (.flatMap i base choice type') s₁)
    (h : ∀ t, Retraces m s₁ t base (ofClassification m type (.fixed x old)))
    (hq : chosen m choice type' x (SideEffect.boundTo x old) = .ok p)
    (h' : Retraces m s₁ t p q) : Retraces m s t (.flatMap i base choice type') q := by
  intro w hw
  have hb := known_fixed (t := t) h hs
  obtain ⟨v, hv, hvw⟩ := h'.outside hs hw
  exact ⟨v, yields_flatMap_iff.mpr ⟨_, hb, _, hq, hv⟩, hvw⟩

/-- A flat map over something changing retraces the flat map over what changes. -/
theorem flatMapChanging (hs : m.nesting s (.flatMap i base choice type') s₁)
    (h : ∀ t, Retraces m s₁ t base q) :
    Retraces m s t (.flatMap i base choice type') (.flatMap m.supply q choice type') := by
  intro w hw
  obtain ⟨b, hb, hw⟩ := yields_flatMap_iff.mp hw
  obtain ⟨b', hb', hbb'⟩ := Retraces.ask h hs hb
  cases hbb' with
  | missing path path' =>
    obtain rfl := hw
    exact ⟨_, yields_flatMap_iff.mpr ⟨_, hb', rfl⟩, .missing _ _⟩
  | present x e =>
    obtain ⟨p, hp, hw⟩ := hw
    obtain ⟨v, hv, hvw⟩ := Retraces.ask (fun t => .refl _ t p) hs hw
    exact ⟨v, yields_flatMap_iff.mpr ⟨_, hb', p, hp, hv⟩, hvw⟩

/-- A fallback whose left side is fixed gives that payload again. -/
theorem orFixed (hs : m.nesting s (.orElse i left right) s₁)
    (h : ∀ t, Retraces m s₁ t left (ofClassification m type (.fixed x old))) :
    Retraces m s t (.orElse i left right) (ofClassification m type (.fixed x old)) :=
  .present (yields_orElse_iff.mpr ⟨_, known_fixed h hs, rfl⟩)

/-- The left side of a fallback is dropped. -/
theorem orMissing (hs : m.nesting s (.orElse i left right) s₁)
    (h : ∀ t, Retraces m s₁ t left (ofClassification m type (.missing path)))
    (h' : Retraces m s₁ t right q) : Retraces m s t (.orElse i left right) q := by
  intro w hw
  obtain ⟨path', hl⟩ := known_missing (t := t) h hs
  obtain ⟨r, hr, hrw⟩ := h'.outside hs hw
  exact ⟨_, yields_orElse_iff.mpr ⟨_, hl, r, hr, rfl⟩, (similar_fallback r).trans hrw⟩

/-- The right side of a fallback is dropped. -/
theorem orAlone (hs : m.nesting s (.orElse i left right) s₁) (h : Retraces m s₁ t left q)
    (h' : ∀ t, Retraces m s₁ t right (ofClassification m type (.missing path))) :
    Retraces m s t (.orElse i left right) q := by
  intro w hw
  obtain ⟨l, hl, hlw⟩ := h.outside hs hw
  cases hlw with
  | present x e => exact ⟨_, yields_orElse_iff.mpr ⟨_, hl, rfl⟩, .refl _⟩
  | missing path path' =>
    obtain ⟨_, hr⟩ := known_missing (t := t) h' hs
    exact ⟨_, yields_orElse_iff.mpr ⟨_, hl, _, hr, rfl⟩, .missing _ _⟩

/-- A fallback retraces the one between what its sides retrace. -/
theorem orBoth (hs : m.nesting s (.orElse i left right) s₁) (h : ∀ t, Retraces m s₁ t left q)
    (h' : ∀ t, Retraces m s₁ t right r) :
    Retraces m s t (.orElse i left right) (.orElse m.supply q r) := by
  intro w hw
  obtain ⟨l, hl, hw⟩ := yields_orElse_iff.mp hw
  obtain ⟨l', hl', hll'⟩ := Retraces.ask h hs hl
  cases hll' with
  | present x e => exact ⟨_, yields_orElse_iff.mpr ⟨_, hl', rfl⟩, hw ▸ .refl _⟩
  | missing path path' =>
    obtain ⟨r, hr, rfl⟩ := hw
    obtain ⟨r', hr', hrr'⟩ := Retraces.ask h' hs hr
    refine ⟨_, yields_orElse_iff.mpr ⟨_, hl', r', hr', rfl⟩, ?_⟩
    exact ((similar_fallback r').trans hrr').trans (similar_fallback r).symm

theorem withEffect {e : Effect} (hs : m.nesting s (.withEffect i base e) s₁)
    (h : ∀ t, Retraces m s₁ t base (ofClassification m type c)) :
    Retraces m s t (.withEffect i base e) (ofClassification m type (withEffectOn m e c)) := by
  cases c with
  | fixed x old => exact .present (yields_withEffect_iff.mpr ⟨_, known_fixed h hs, rfl⟩)
  | missing path =>
    obtain ⟨path', hb⟩ := known_missing h hs
    exact .missing _ path' _ (yields_withEffect_iff.mpr ⟨_, hb, rfl⟩)
  | changing q =>
    intro w hw
    obtain ⟨b, hb, rfl⟩ := yields_withEffect_iff.mp hw
    obtain ⟨b', hb', hbb'⟩ := Retraces.ask h hs hb
    exact ⟨_, yields_withEffect_iff.mpr ⟨b', hb', rfl⟩, hbb'.withEffect _⟩

theorem named {name : String} (hs : m.nesting s (.named i base name) s₁)
    (h : ∀ t, Retraces m s₁ t base (ofClassification m type c)) :
    Retraces m s t (.named i base name) (ofClassification m type (nameOn m name c)) := by
  cases c with
  | fixed x old => exact .present (yields_named_iff.mpr (known_fixed h hs))
  | missing path =>
    obtain ⟨path', hb⟩ := known_missing h hs
    exact .missing _ path' _ (yields_named_iff.mpr hb)
  | changing q =>
    intro w hw
    obtain ⟨b', hb', hbb'⟩ := Retraces.ask h hs (yields_named_iff.mp hw)
    exact ⟨b', yields_named_iff.mpr hb', hbb'⟩

end Rules

end Retraces

/-- Where the provider that is rebuilt from a classification has a value, the provider itself has a
similar one. -/
theorem Provider.Classified.retraces (h : p.Classified m s c) (type : PayloadType)
    (t : ScopeStack) : Retraces m s t p (ofClassification m type c) := by
  induction h generalizing type t with
  | fixed =>
    intro w hw
    obtain rfl := yields_fixed_iff.mp hw
    exact ⟨_, yields_fixed_iff.mpr rfl, .refl _⟩
  | undefined => exact .missing _ _ _ (yields_undefined_iff.mpr rfl)
  | changing =>
    intro w hw
    exact ⟨w, yields_done_iff.mpr (yields_done_iff.mp hw), .refl w⟩
  | mapMissing hs _ ih => exact .mapMissing hs (ih type)
  | mapFixed hs _ hy ih => exact .mapFixed hs (ih type) hy
  | mapChanging hs _ ih => exact .mapChanging hs (ih type)
  | flatMapMissing hs _ ih => exact .flatMapMissing hs (ih type)
  | flatMapFixed hs _ hq _ ih ih' => exact .flatMapFixed hs (ih type) hq (ih' type t)
  | flatMapChanging hs _ ih => exact .flatMapChanging hs (ih type)
  | orFixed hs _ ih => exact .orFixed hs (ih type)
  | orMissing hs _ _ ih ih' => exact .orMissing hs (ih type) (ih' type t)
  | orAlone hs _ _ ih ih' => exact .orAlone hs (ih type t) (ih' type)
  | orBoth hs _ _ _ ih ih' => exact .orBoth hs (ih type) (ih' _)
  | withEffect hs _ ih => exact .withEffect hs (ih type)
  | named hs _ ih => exact .named hs (ih type)
  | held hq hs _ ih =>
    intro w hw
    obtain ⟨v, hv, hvw⟩ := (ih type t).outside hs hw
    exact ⟨v, (yields_property_iff hq).mpr hv, hvw⟩
  | unset hq => exact .missing _ _ _ ((yields_unset_iff hq).mpr rfl)

end ProviderGraph
