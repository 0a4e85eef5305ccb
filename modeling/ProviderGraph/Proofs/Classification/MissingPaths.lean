import ProviderGraph.Proofs.Classification.Preservation

/-!
# Paths of missing values

The path of a missing value names where a payload should have come from. Classification drops a side
of a fallback that is known to have nothing, and what is rebuilt no longer knows the names on that
side. Nothing else of the path is lost (`Provider.Remains`, `missing_path_of_classification`); where
no side is dropped, the path is the same (`Provider.Remains.eq`).
-/

namespace ProviderGraph

open Agenda
open Provider (chosen ofClassification withEffectOn nameOn)

/-- On a stack the provider is missing, with the path `w` as it is asked for, and of this path `w'`
remains after classification: all but the names on those sides of fallbacks that are classified as
missing. Whether the name of a property remains is left open. -/
inductive Provider.Remains (m : Machine) :
    ScopeStack → Provider → List String → List String → Prop where
  | undefined {s : ScopeStack} {i : Identity} {type : PayloadType} {path : List String} :
    Remains m s (.undefined i type path) path path
  | call {s : ScopeStack} {i : Identity} {type : PayloadType} {node : Option String} {calls : Calls}
      {w : List String} (hv : m.Yields m.nesting s (.value (.changing i type node calls))
        (.missing w)) :
    Remains m s (.changing i type node calls) w w
  | map {s t : ScopeStack} {i : Identity} {base : Provider} {f : Closure} {type : PayloadType}
      {w w' : List String} (ht : m.nesting s (.map i base f type) t) (h : Remains m t base w w') :
    Remains m s (.map i base f type) w w'
  /-- The transform gives nothing. -/
  | mapNone {s : ScopeStack} {i : Identity} {base : Provider} {f : Closure} {type : PayloadType}
      {x : Payload} {e : Option Effect}
      (hb : (askValue base).Yields m m.nesting s (.map i base f type) (.present x e))
      (hf : f.code.result f.held x = .ok none) :
    Remains m s (.map i base f type) [] []
  | flatMap {s t : ScopeStack} {i : Identity} {base : Provider} {choice : Recipe}
      {type : PayloadType} {w w' : List String} (ht : m.nesting s (.flatMap i base choice type) t)
      (h : Remains m t base w w') :
    Remains m s (.flatMap i base choice type) w w'
  /-- The choice is made by the classification. -/
  | chosen {s t : ScopeStack} {i : Identity} {base q : Provider} {choice : Recipe}
      {type : PayloadType} {x : Payload} {e : Option Effect} {w w' : List String}
      (ht : m.nesting s (.flatMap i base choice type) t) (hb : base.Classified m t (.fixed x e))
      (hq : chosen m choice type x (SideEffect.boundTo x e) = .ok q) (h : Remains m t q w w') :
    Remains m s (.flatMap i base choice type) w w'
  /-- The choice is left to the evaluation, so what is chosen is not classified. -/
  | chosenLater {s t : ScopeStack} {i : Identity} {base b q : Provider} {choice : Recipe}
      {type : PayloadType} {x : Payload} {e : Option Effect} {w : List String}
      (ht : m.nesting s (.flatMap i base choice type) t) (hb : base.Classified m t (.changing b))
      (hx : (askValue base).Yields m m.nesting s (.flatMap i base choice type) (.present x e))
      (hq : chosen m choice type x (SideEffect.boundTo x e) = .ok q)
      (hw : (askValue q).Yields m m.nesting s (.flatMap i base choice type) (.missing w)) :
    Remains m s (.flatMap i base choice type) w w
  | dropsLeft {s t : ScopeStack} {i : Identity} {l r : Provider} {path a a' b b' : List String}
      (ht : m.nesting s (.orElse i l r) t) (hl : l.Classified m t (.missing path))
      (ha : Remains m t l a a') (hb : Remains m t r b b') :
    Remains m s (.orElse i l r) (a ++ b) b'
  | dropsRight {s t : ScopeStack} {i : Identity} {l r q : Provider} {path a a' b b' : List String}
      (ht : m.nesting s (.orElse i l r) t) (hl : l.Classified m t (.changing q))
      (hr : r.Classified m t (.missing path)) (ha : Remains m t l a a') (hb : Remains m t r b b') :
    Remains m s (.orElse i l r) (a ++ b) a'
  | keepsBoth {s t : ScopeStack} {i : Identity} {l r q q' : Provider} {a a' b b' : List String}
      (ht : m.nesting s (.orElse i l r) t) (hl : l.Classified m t (.changing q))
      (hr : r.Classified m t (.changing q')) (ha : Remains m t l a a') (hb : Remains m t r b b') :
    Remains m s (.orElse i l r) (a ++ b) (a' ++ b')
  | withEffect {s t : ScopeStack} {i : Identity} {inner : Provider} {e : Effect}
      {w w' : List String} (ht : m.nesting s (.withEffect i inner e) t)
      (h : Remains m t inner w w') :
    Remains m s (.withEffect i inner e) w w'
  | named {s t : ScopeStack} {i : Identity} {inner : Provider} {name : String}
      {w w' : List String} (ht : m.nesting s (.named i inner name) t) (h : Remains m t inner w w') :
    Remains m s (.named i inner name) (name :: w) (name :: w')
  | property {s t : ScopeStack} {r : PropertyRef} {q : Provider} {w w' k : List String}
      (hq : (m.property r.id).effective = some q) (ht : m.nesting s (.property r) t)
      (h : Remains m t q w w') (hk : k = [] ∨ k = r.name.toList) :
    Remains m s (.property r) (r.name.toList ++ w) (k ++ w')
  | unset {s : ScopeStack} {r : PropertyRef} {k : List String}
      (hq : (m.property r.id).effective = none) (hk : k = [] ∨ k = r.name.toList) :
    Remains m s (.property r) r.name.toList k

variable {m : Machine} {s t : ScopeStack} {p q base : Provider} {c : Classification}
  {type : PayloadType} {w w' : List String}

namespace Provider.Remains

/-- Classification adds no name to a path and changes no order. -/
theorem sublist (h : p.Remains m s w w') : w'.Sublist w := by
  induction h with
  | undefined | call | chosenLater => exact .refl _
  | mapNone => exact .slnil
  | map _ _ ih | flatMap _ _ ih | chosen _ _ _ _ ih | withEffect _ _ ih => exact ih
  | dropsLeft _ _ _ _ _ ihb => exact ihb.trans (List.sublist_append_right _ _)
  | dropsRight _ _ _ _ _ iha => exact iha.trans (List.sublist_append_left _ _)
  | keepsBoth _ _ _ _ _ iha ihb => exact iha.append ihb
  | named _ _ ih => exact ih.cons_cons _
  | property _ _ _ hk ih =>
    rcases hk with rfl | rfl
    · exact ih.trans (List.sublist_append_right _ _)
    · exact ih.append_left _
  | unset _ hk =>
    rcases hk with rfl | rfl
    · exact List.nil_sublist _
    · exact .refl _

end Provider.Remains

/-- The provider drops no name: it is no fallback with a side that is known to be missing, and no
property with a name. -/
def Provider.KeepsNames (m : Machine) : Provider → Prop
  | .orElse _ l r =>
    ∀ t path, ¬ l.Classified m t (.missing path) ∧ ¬ r.Classified m t (.missing path)
  | .property r => r.name = none
  | _ => True

/-- All of the path remains where nothing that comes up drops a name. -/
theorem Provider.Remains.eq (h : p.Remains m s w w')
    (hp : ∀ q, p.Reaches m q → q.KeepsNames m) : w' = w := by
  have inside {p q : Provider} (hp : ∀ r, p.Reaches m r → r.KeepsNames m) (hq : p.Leads m q) :
      ∀ r, q.Reaches m r → r.KeepsNames m := fun r hr => hp r (hq.trans hr)
  induction h with
  | undefined | call | chosenLater | mapNone => rfl
  | map _ _ ih => exact ih (inside hp .map)
  | flatMap _ _ ih => exact ih (inside hp .flatMap)
  | chosen _ _ hq _ ih => exact ih (inside hp (.chosen hq))
  | dropsLeft _ hl => exact absurd hl (hp _ (.refl _) _ _).1
  | dropsRight _ _ hr => exact absurd hr (hp _ (.refl _) _ _).2
  | keepsBoth _ _ _ _ _ iha ihb => rw [iha (inside hp .left), ihb (inside hp .right)]
  | withEffect _ _ ih => exact ih (inside hp .withEffect)
  | named _ _ ih => rw [ih (inside hp .named)]
  | @property _ _ r _ _ _ _ hq _ _ hk ih =>
    have hr : r.name = none := hp _ (.refl _)
    rw [ih (inside hp (.property hq))]
    simp_all
  | @unset _ r _ _ hk =>
    have hr : r.name = none := hp _ (.refl _)
    simp_all

/-! ### What is rebuilt -/

/-- A map of a payload is missing if the transform gives nothing, and then it has no path. -/
theorem Closure.result_of_mapped_missing {f : Closure} {x : Payload} {e : Option Effect}
    (h : f.mapped (.present x e) = .ok (.missing w)) :
    f.code.result f.held x = .ok none ∧ w = [] := by
  rw [Closure.mapped] at h
  cases hy : f.code.result f.held x with
  | error failure => cases hy ▸ h
  | ok y =>
    rw [hy] at h
    cases y with
    | some y => cases h
    | none =>
      cases h
      exact ⟨rfl, rfl⟩

/-- Where `p` is missing, so is `q`, with what remains of the path. -/
def LeavesPath (m : Machine) (s : ScopeStack) (p q : Provider) : Prop :=
  ∀ u, m.Yields m.nesting s (.value p) (.missing u) →
    ∃ u', m.Yields m.nesting s (.value q) (.missing u') ∧
      p.Remains m s (p.declaredName.toList ++ u) (q.declaredName.toList ++ u')

namespace LeavesPath

/-- A part that is missing is missing inside the scope of the provider. -/
theorem exists_of_ask (ht : m.nesting s p t)
    (hb : (askValue base).Yields m m.nesting s p (.missing w)) :
    ∃ u, m.Yields m.nesting t (.value base) (.missing u) ∧ base.declaredName.toList ++ u = w := by
  obtain ⟨v, hv, hw⟩ := Follows.exists_of_ask ht hb
  cases v with
  | present x e => cases hw
  | missing u =>
    cases hw
    exact ⟨u, hv, rfl⟩

/-- Where a part is missing that a provider asks, what is rebuilt from it is missing when a new
provider asks it. -/
theorem ask (h : LeavesPath m t base q) (ht : m.nesting s p t)
    (hb : (askValue base).Yields m m.nesting s p (.missing w)) :
    ∃ w', (∀ {r : Provider}, r.id = m.supply →
      (askValue q).Yields m m.nesting s r (.missing w')) ∧ base.Remains m t w w' := by
  obtain ⟨u, hu, rfl⟩ := exists_of_ask ht hb
  obtain ⟨u', hu', hrest⟩ := h u hu
  refine ⟨_, fun hr => ?_, hrest⟩
  obtain ⟨t₁, ht₁, hs⟩ := (ScopeStack.Shallower.refl s).nesting ht (.inr (Nat.le_of_eq hr.symm))
  exact yields_askValue_iff.mpr ⟨t₁, _, ht₁, hs.yields hu', rfl⟩

/-- What is rebuilt from a part is missing outside of the scope of the provider. -/
theorem outside (h : LeavesPath m t base q) (ht : m.nesting s p t)
    (hb : (askValue base).Yields m m.nesting s p (.missing w)) :
    ∃ u', m.Yields m.nesting s (.value q) (.missing u') ∧
      base.Remains m t w (q.declaredName.toList ++ u') := by
  obtain ⟨u, hu, rfl⟩ := exists_of_ask ht hb
  obtain ⟨u', hu', hrest⟩ := h u hu
  exact ⟨u', ht.shallower.yields hu', hrest⟩

/-- Of a part that is known to be missing, the path that is known remains. -/
theorem known {i : Identity} {path : List String} (h : LeavesPath m t base (.undefined i type path))
    (ht : m.nesting s p t) (hb : (askValue base).Yields m m.nesting s p (.missing w)) :
    base.Remains m t w path := by
  obtain ⟨u', hu', hrest⟩ := h.outside ht hb
  cases yields_undefined_iff.mp hu'
  exact hrest

/-- What is rebuilt without a payload. -/
theorem undefined {i : Identity} {path : List String}
    (h : p.Remains m s (p.declaredName.toList ++ w) path) :
    ∃ u', m.Yields m.nesting s (.value (.undefined i type path)) (.missing u') ∧
      p.Remains m s (p.declaredName.toList ++ w)
        ((Provider.undefined i type path).declaredName.toList ++ u') :=
  ⟨path, yields_undefined_iff.mpr rfl, h⟩

section Rules

variable {i : Identity} {left right : Provider} {f : Closure} {choice : Recipe} {x : Payload}
  {old : Option Effect} {path : List String} {type' : PayloadType}

/-- A map over something missing leaves the path of its base. -/
theorem mapMissing (ht : m.nesting s (.map i base f type') t)
    (hb : base.Classified m t (.missing path))
    (h : LeavesPath m t base (ofClassification m type (.missing path))) :
    LeavesPath m s (.map i base f type') (ofClassification m type (.missing path)) := by
  intro u hu
  obtain ⟨b, hask, hu⟩ := yields_map_iff.mp hu
  obtain ⟨path, rfl⟩ := (hb.follows type).missing ht hask
  cases hu
  exact LeavesPath.undefined (.map ht (h.known ht hask))

/-- The transform ran for the classification. -/
theorem mapFixed {y : Option Payload} (ht : m.nesting s (.map i base f type') t)
    (hb : base.Classified m t (.fixed x old)) (hy : f.code.result f.held x = .ok y) :
    LeavesPath m s (.map i base f type') (ofClassification m type
      (.ofValue ((Value.ofOption y).withEffect (SideEffect.boundTo x old)))) := by
  intro u hu
  obtain ⟨b, hask, hu⟩ := yields_map_iff.mp hu
  obtain rfl := (hb.follows type).eq_of_fixed ht hask
  rw [Closure.mapped, hy] at hu
  cases y with
  | some y => cases hu
  | none =>
    cases hu
    exact LeavesPath.undefined (.mapNone hask hy)

/-- A map over something changing leaves the path that its base leaves. -/
theorem mapChanging (ht : m.nesting s (.map i base f type') t)
    (hb : base.Classified m t (.changing q)) (h : LeavesPath m t base q) :
    LeavesPath m s (.map i base f type') (.map m.supply q f type') := by
  intro u hu
  obtain ⟨b, hask, hu⟩ := yields_map_iff.mp hu
  cases b with
  | missing path =>
    cases hu
    obtain ⟨w', hw', hrest⟩ := h.ask ht hask
    exact ⟨w', yields_map_iff.mpr ⟨_, hw' rfl, rfl⟩, .map ht hrest⟩
  | present x e =>
    obtain ⟨b', hb', hbb'⟩ := (hb.follows type').ask ht hask
    cases hbb'
    obtain ⟨hf, rfl⟩ := Closure.result_of_mapped_missing hu
    exact ⟨[], yields_map_iff.mpr ⟨_, hb' rfl, hu⟩, .mapNone hask hf⟩

/-- A flat map over something missing leaves the path of its base. -/
theorem flatMapMissing (ht : m.nesting s (.flatMap i base choice type') t)
    (hb : base.Classified m t (.missing path))
    (h : LeavesPath m t base (ofClassification m type (.missing path))) :
    LeavesPath m s (.flatMap i base choice type') (ofClassification m type (.missing path)) := by
  intro u hu
  obtain ⟨b, hask, hu⟩ := yields_flatMap_iff.mp hu
  obtain ⟨path, rfl⟩ := (hb.follows type).missing ht hask
  cases hu
  exact LeavesPath.undefined (.flatMap ht (h.known ht hask))

/-- The choice was made for the classification. -/
theorem flatMapFixed (ht : m.nesting s (.flatMap i base choice type') t)
    (hb : base.Classified m t (.fixed x old))
    (hq : chosen m choice type' x (SideEffect.boundTo x old) = .ok p) (h : LeavesPath m t p q) :
    LeavesPath m s (.flatMap i base choice type') q := by
  intro u hu
  obtain ⟨b, hask, hu⟩ := yields_flatMap_iff.mp hu
  obtain rfl := (hb.follows type').eq_of_fixed ht hask
  obtain ⟨p, hq', hu⟩ := hu
  obtain rfl := Except.ok.inj (hq.symm.trans hq')
  obtain ⟨u', hu', hrest⟩ := h.outside ht hu
  exact ⟨u', hu', .chosen ht hb hq hrest⟩

/-- A flat map over something changing leaves the path that its base leaves. -/
theorem flatMapChanging (ht : m.nesting s (.flatMap i base choice type') t)
    (hb : base.Classified m t (.changing q)) (h : LeavesPath m t base q) :
    LeavesPath m s (.flatMap i base choice type') (.flatMap m.supply q choice type') := by
  intro u hu
  obtain ⟨b, hask, hu⟩ := yields_flatMap_iff.mp hu
  cases b with
  | missing path =>
    cases hu
    obtain ⟨w', hw', hrest⟩ := h.ask ht hask
    exact ⟨w', yields_flatMap_iff.mpr ⟨_, hw' rfl, rfl⟩, .flatMap ht hrest⟩
  | present x e =>
    obtain ⟨b', hb', hbb'⟩ := (hb.follows type').ask ht hask
    cases hbb'
    obtain ⟨p, hp, hu⟩ := hu
    obtain ⟨t', w, ht', hw, hpush⟩ := yields_askValue_iff.mp hu
    refine ⟨u, yields_flatMap_iff.mpr ⟨_, hb' rfl, p, hp, ?_⟩, .chosenLater ht hb hask hp hu⟩
    -- what is chosen is the same, and is found in the new scope as well
    obtain ⟨t₁, ht₁, hs⟩ := (ScopeStack.Shallower.refl _).nesting ht'
      (q := .flatMap m.supply _ _ _) (.inr (Nat.le_refl _))
    exact yields_askValue_iff.mpr ⟨t₁, w, ht₁, hs.yields hw, hpush⟩

/-- A fallback whose left side is fixed is never missing. -/
theorem orFixed (ht : m.nesting s (.orElse i left right) t)
    (hl : left.Classified m t (.fixed x old)) : LeavesPath m s (.orElse i left right) q := by
  intro u hu
  obtain ⟨l, hask, hu⟩ := yields_orElse_iff.mp hu
  obtain rfl := (hl.follows left.type).eq_of_fixed ht hask
  cases hu

/-- The left side of a fallback is dropped. -/
theorem orMissing (ht : m.nesting s (.orElse i left right) t)
    (hl : left.Classified m t (.missing path))
    (h : LeavesPath m t left (ofClassification m type (.missing path)))
    (h' : LeavesPath m t right q) : LeavesPath m s (.orElse i left right) q := by
  intro u hu
  obtain ⟨l, hask, hu⟩ := yields_orElse_iff.mp hu
  obtain ⟨path', rfl⟩ := (hl.follows type).missing ht hask
  obtain ⟨r, hask', hu⟩ := hu
  cases r with
  | present x e => cases hu
  | missing b =>
    cases hu
    obtain ⟨u', hu', hrest⟩ := h'.outside ht hask'
    have hleft := h.known ht hask
    exact ⟨u', hu', .dropsLeft (a := path') ht hl hleft hrest⟩

/-- The right side of a fallback is dropped. -/
theorem orAlone (ht : m.nesting s (.orElse i left right) t)
    (hl : left.Classified m t (.changing q)) (hr : right.Classified m t (.missing path))
    (h : LeavesPath m t left q)
    (h' : LeavesPath m t right (ofClassification m type (.missing path))) :
    LeavesPath m s (.orElse i left right) q := by
  intro u hu
  obtain ⟨l, hask, hu⟩ := yields_orElse_iff.mp hu
  cases l with
  | present x e => cases hu
  | missing a =>
    obtain ⟨r, hask', hu⟩ := hu
    obtain ⟨b, rfl⟩ := (hr.follows type).missing ht hask'
    cases hu
    obtain ⟨u', hu', hrest⟩ := h.outside ht hask
    have hright := h'.known ht hask'
    exact ⟨u', hu', .dropsRight (a := a) ht hl hr hrest hright⟩

/-- A fallback leaves the paths that both its sides leave. -/
theorem orBoth (ht : m.nesting s (.orElse i left right) t)
    (hl : left.Classified m t (.changing q)) (hr : right.Classified m t c)
    (hc : c.isMissing = false) (h : LeavesPath m t left q)
    (h' : LeavesPath m t right (ofClassification m type c)) :
    LeavesPath m s (.orElse i left right) (.orElse m.supply q (ofClassification m type c)) := by
  intro u hu
  obtain ⟨l, hask, hu⟩ := yields_orElse_iff.mp hu
  cases l with
  | present x e => cases hu
  | missing a =>
    obtain ⟨r, hask', hu⟩ := hu
    cases r with
    | present x e => cases hu
    | missing b =>
      cases hu
      obtain ⟨a', ha', hleft⟩ := h.ask ht hask
      obtain ⟨b', hb', hright⟩ := h'.ask ht hask'
      refine ⟨a' ++ b', yields_orElse_iff.mpr ⟨_, ha' rfl, _, hb' rfl, rfl⟩, ?_⟩
      cases c with
      | fixed x e => cases (hr.follows type).eq_of_fixed ht hask'
      | missing path => cases hc
      | changing q' =>
        show Provider.Remains m _ _ (a ++ b) (a' ++ b')
        exact .keepsBoth ht hl hr hleft hright

theorem withEffect {e : Effect} (ht : m.nesting s (.withEffect i base e) t)
    (hb : base.Classified m t c) (h : LeavesPath m t base (ofClassification m type c)) :
    LeavesPath m s (.withEffect i base e) (ofClassification m type (withEffectOn m e c)) := by
  intro u hu
  obtain ⟨b, hask, hu⟩ := yields_withEffect_iff.mp hu
  cases b with
  | present x old => cases hu
  | missing path =>
    cases hu
    cases c with
    | fixed x old => cases (hb.follows type).eq_of_fixed ht hask
    | missing path' => exact LeavesPath.undefined (.withEffect ht (h.known ht hask))
    | changing q =>
      obtain ⟨w', hw', hrest⟩ := h.ask ht hask
      exact ⟨w', yields_withEffect_iff.mpr ⟨_, hw' rfl, rfl⟩, .withEffect ht hrest⟩

theorem named {name : String} (ht : m.nesting s (.named i base name) t)
    (hb : base.Classified m t c) (h : LeavesPath m t base (ofClassification m type c)) :
    LeavesPath m s (.named i base name) (ofClassification m type (nameOn m name c)) := by
  intro u hu
  have hask := yields_named_iff.mp hu
  cases c with
  | fixed x old => cases (hb.follows type).eq_of_fixed ht hask
  | missing path => exact LeavesPath.undefined (.named ht (h.known ht hask))
  | changing q =>
    obtain ⟨w', hw', hrest⟩ := h.ask ht hask
    exact ⟨w', yields_named_iff.mpr (hw' rfl), .named ht hrest⟩

/-- The name of a property is left out. -/
theorem unset {ref : PropertyRef} (hq : (m.property ref.id).effective = none) :
    LeavesPath m s (.property ref) (ofClassification m type (.missing [])) := by
  intro u hu
  cases (yields_unset_iff hq).mp hu
  refine ⟨[], yields_undefined_iff.mpr rfl, ?_⟩
  show Provider.Remains m _ _ (ref.name.toList ++ []) []
  rw [List.append_nil]
  exact .unset hq (.inl rfl)

end Rules

end LeavesPath

/-- Where a provider is missing, what is rebuilt from its classification is missing too, with what
remains of the path. -/
theorem Provider.Classified.leavesPath (h : p.Classified m s c) (type : PayloadType) :
    LeavesPath m s p (ofClassification m type c) := by
  induction h generalizing type with
  | fixed =>
    intro u hu
    cases yields_fixed_iff.mp hu
  | undefined =>
    intro u hu
    cases yields_undefined_iff.mp hu
    exact LeavesPath.undefined .undefined
  | changing =>
    intro u hu
    exact ⟨u, yields_done_iff.mpr (yields_done_iff.mp hu), .call hu⟩
  | mapMissing ht h ih => exact .mapMissing ht h (ih type)
  | mapFixed ht h hy => exact .mapFixed ht h hy
  | mapChanging ht h ih => exact .mapChanging ht h (ih type)
  | flatMapMissing ht h ih => exact .flatMapMissing ht h (ih type)
  | flatMapFixed ht h hq _ _ ih' => exact .flatMapFixed ht h hq (ih' type)
  | flatMapChanging ht h ih => exact .flatMapChanging ht h (ih type)
  | orFixed ht h => exact .orFixed ht h
  | orMissing ht h _ ih ih' => exact .orMissing ht h (ih type) (ih' type)
  | orAlone ht h h' ih ih' => exact .orAlone ht h h' (ih type) (ih' type)
  | orBoth ht h h' hc ih ih' => exact .orBoth ht h h' hc (ih type) (ih' _)
  | withEffect ht h ih => exact .withEffect ht h (ih type)
  | named ht h ih => exact .named ht h (ih type)
  | held hq ht _ ih =>
    intro u hu
    obtain ⟨u', hu', hrest⟩ := (ih type).outside ht ((yields_property_iff hq).mp hu)
    exact ⟨u', hu', .property (k := []) hq ht hrest (.inl rfl)⟩
  | unset hq => exact .unset hq

/-- Where a provider is missing, what is rebuilt from its classification is missing too, with what
remains of the path; and so is the path of a provider that is known to be missing. -/
theorem missing_path_of_classification {m m₁ m₂ n : Machine} {p q : Provider} {c : Classification}
    {type : PayloadType} {w : List String} (hm : m.Minted) (hp : p.Minted m.supply)
    (hplain : p.AllPlain m .lenient)
    (hc : (Ask.classification p).run.run engine m = some (.ok c, m₁))
    (hq : (c.toProvider type).run engine m₁ = some (q, m₂))
    (hw : (Ask.value p .lenient).run.run engine m₂ = some (.ok (.missing w), n)) :
    ∃ w' n', (Ask.value q .lenient).run.run engine m₂ = some (.ok (.missing w'), n') ∧
      p.Remains m m.stack w w' ∧ ∀ path, c = .missing path → path = w' := by
  obtain ⟨c', n₁, n', hlooks, hclassified, hrunp, hrunq⟩ :=
    run_values_of_classification hm hp hplain hc hq
  obtain ⟨hvalue, -⟩ := Prod.mk.inj (Option.some.inj (hrunp.symm.trans hw))
  obtain ⟨v, hv, hpush⟩ := map_eq_ok_iff.mp hvalue
  cases v with
  | present x e => cases hpush
  | missing u =>
    cases hpush
    obtain ⟨u', hu', hrest⟩ := hclassified.leavesPath type u (Machine.atRest_eq_ok_iff.mp hv)
    refine ⟨_, n', ?_, hrest, ?_⟩
    · rw [hrunq, Machine.atRest_eq_ok_iff.mpr hu']
      rfl
    · rintro path rfl
      cases hlooks
      cases yields_undefined_iff.mp hu'
      rfl

/-- A leaf that has nothing under one name, and nothing at all under another. -/
def nowhere : Provider :=
  .orElse 6 (.named 5 (.changing 4 .int none ⟨3, fun _ => .compute fun _ => .ok none, none⟩) "a")
    (.named 2 (.undefined 1 .int []) "b")

/-- A machine on which the identities of `nowhere` are old. -/
def nowhereMachine : Machine := { Machine.fresh 8 with supply := 7 }

theorem nowhereMachine_minted : nowhereMachine.Minted :=
  ⟨by simp [nowhereMachine, Machine.fresh, ScopeStack.empty],
    by simp [nowhereMachine, Machine.fresh], by simp [nowhereMachine, Machine.fresh],
    by simp [nowhereMachine, Machine.fresh, Machine.property]⟩

theorem nowhere_minted : nowhere.Minted 7 := by
  simp [nowhere, Provider.Minted]

theorem nowhere_allPlain {m : Machine} : nowhere.AllPlain m .lenient := by
  have hleaf : (Provider.changing 4 .int none
      ⟨3, fun _ => .compute fun _ => .ok none, none⟩).AllPlain m .lenient :=
    .of_leads ⟨.ok none, fun _ => ⟨.compute _, rfl⟩⟩ fun _ h => nomatch h
  refine .of_leads trivial fun q hq => ?_
  cases hq with
  | left =>
    refine .of_leads trivial fun q hq => ?_
    cases hq
    exact hleaf
  | right =>
    refine .of_leads trivial fun q hq => ?_
    cases hq
    exact Provider.allPlain_undefined

theorem nowhere_runs :
    ∃ q m₁ n n', (Ask.classification nowhere).run.run engine nowhereMachine =
        some (.ok (.changing q), m₁) ∧
      (Ask.value nowhere .lenient).run.run engine m₁ = some (.ok (.missing ["a", "b"]), n) ∧
      (Ask.value q .lenient).run.run engine m₁ = some (.ok (.missing ["a"]), n') :=
  ⟨_, _, _, _, Eval.run_engine_of_answer 9 rfl, Eval.run_engine_of_answer 9 rfl,
    Eval.run_engine_of_answer 9 rfl⟩

/-- Of the path of `nowhere` the name of the leaf remains. -/
theorem missing_path_of_classification_nowhere :
    nowhere.Remains nowhereMachine nowhereMachine.stack ["a", "b"] ["a"] := by
  obtain ⟨q, m₁, n, n', hc, hv, hv'⟩ := nowhere_runs
  have hq : (Classification.toProvider .int (.changing q)).run engine m₁ = some (q, m₁) := rfl
  obtain ⟨w', n'', hrun, hrest, -⟩ := missing_path_of_classification nowhereMachine_minted
    nowhere_minted nowhere_allPlain hc hq hv
  cases hv'.symm.trans hrun
  exact hrest

/-- The fallback is classified without its right side, and `b` is lost from the path, so what is
rebuilt does not have the path of the provider. -/
theorem missing_path_is_shortened :
    nowhereMachine.Minted ∧ nowhere.Minted nowhereMachine.supply ∧
    nowhere.AllPlain nowhereMachine .lenient ∧
    ∃ q m₁ n n' w w', (Ask.classification nowhere).run.run engine nowhereMachine =
        some (.ok (.changing q), m₁) ∧
      (Ask.value nowhere .lenient).run.run engine m₁ = some (.ok (.missing w), n) ∧
      (Ask.value q .lenient).run.run engine m₁ = some (.ok (.missing w'), n') ∧ w' ≠ w := by
  obtain ⟨q, m₁, n, n', hc, hv, hv'⟩ := nowhere_runs
  exact ⟨nowhereMachine_minted, nowhere_minted, nowhere_allPlain, q, m₁, n, n', _, _, hc, hv, hv',
    by decide⟩

end ProviderGraph
