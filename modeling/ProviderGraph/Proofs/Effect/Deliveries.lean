import ProviderGraph.Proofs.Classification.DecidedAhead
import ProviderGraph.Proofs.Property.Permanence

/-!
# What providers deliver

A reading that finds a payload delivers it with the deeds that unpacking it does.
`Provider.Delivers` tells them from the graph alone, without scopes, values and identities: each
effect follows those of what it was put on, what a flat map chose comes before its base, and the
side of a fallback that is not used adds nothing. There is one thing to deliver if the leaves give
the same each time (`Provider.Delivers.unique`). Strict readings finalize properties on their way,
which keeps what the properties deliver (`Machine.Consulted`).
-/

namespace ProviderGraph

open Provider (MayLookLike)

/-- A payload with the deeds that are done when it is unpacked, or nothing. -/
abbrev Delivery := Option (Payload × List (Action × Payload))

def Value.delivery (v : Outcome) : Delivery := v.unpack.toOption

namespace Value

variable (x : Payload) (e : Option Effect) (v : Outcome)

@[simp] theorem delivery_present :
    (present x e : Outcome).delivery = some (x, SideEffect.deedsOf e x) := rfl

@[simp] theorem delivery_missing (path : List String) : (missing path : Outcome).delivery = none :=
  rfl

@[simp] theorem delivery_push (name : Option String) : (v.push name).delivery = v.delivery := by
  cases v <;> rfl

@[simp] theorem delivery_ofOption (y : Option Payload) :
    (ofOption y : Outcome).delivery = y.map (·, []) := by
  cases y <;> rfl

@[simp] theorem delivery_withEffect :
    (v.withEffect e).delivery = v.delivery.map fun d => (d.1, d.2 ++ SideEffect.deedsOf e d.1) := by
  cases v <;> simp [withEffect]

@[simp] theorem delivery_withEffect_boundTo (y : Option Payload) :
    ((ofOption y : Outcome).withEffect (SideEffect.boundTo x e)).delivery =
      y.map (·, SideEffect.deedsOf e x) := by
  cases y <;> simp

end Value

/-- What the provider may deliver. A leaf may deliver the result of any of its calls. -/
inductive Provider.Delivers (m : Machine) : Provider → Delivery → Prop where
  | fixed {i : Identity} {x : Payload} : Delivers m (.fixed i x) (some (x, []))
  | undefined {i : Identity} {type : PayloadType} {path : List String} :
    Delivers m (.undefined i type path) none
  | changing {i : Identity} {type : PayloadType} {node : Option String} {calls : Calls} {n : Nat}
      {y : Option Payload}
      (hy : (calls.code n).result calls.held (.int (Int64.ofNat n)) = .ok y) :
    Delivers m (.changing i type node calls) (y.map (·, []))
  | mapMissing {i : Identity} {base : Provider} {f : Closure} {type : PayloadType}
      (h : Delivers m base none) :
    Delivers m (.map i base f type) none
  | map {i : Identity} {base : Provider} {f : Closure} {type : PayloadType} {x : Payload}
      {deeds : List (Action × Payload)} {y : Option Payload}
      (h : Delivers m base (some (x, deeds))) (hy : f.code.result f.held x = .ok y) :
    Delivers m (.map i base f type) (y.map (·, deeds))
  | flatMapMissing {i : Identity} {base : Provider} {choice : Recipe} {type : PayloadType}
      (h : Delivers m base none) :
    Delivers m (.flatMap i base choice type) none
  | flatMapNothing {i : Identity} {base : Provider} {choice : Recipe} {type : PayloadType}
      {x : Payload} {deeds : List (Action × Payload)} (h : Delivers m base (some (x, deeds)))
      (hq : choice.plan m (some x) = .ok none) :
    Delivers m (.flatMap i base choice type) none
  | flatMap {i : Identity} {base q : Provider} {choice : Recipe} {type : PayloadType}
      {x : Payload} {deeds : List (Action × Payload)} {d : Delivery}
      (h : Delivers m base (some (x, deeds))) (hq : choice.plan m (some x) = .ok (some q))
      (h' : Delivers m q d) :
    Delivers m (.flatMap i base choice type) (d.map fun d => (d.1, d.2 ++ deeds))
  | left {i : Identity} {l r : Provider} {d : Payload × List (Action × Payload)}
      (h : Delivers m l (some d)) :
    Delivers m (.orElse i l r) (some d)
  | right {i : Identity} {l r : Provider} {d : Delivery} (h : Delivers m l none)
      (h' : Delivers m r d) :
    Delivers m (.orElse i l r) d
  | withEffect {i : Identity} {inner : Provider} {e : Effect} {d : Delivery}
      (h : Delivers m inner d) :
    Delivers m (.withEffect i inner e) (d.map fun d => (d.1, d.2 ++ e.deeds d.1))
  | named {i : Identity} {inner : Provider} {name : String} {d : Delivery}
      (h : Delivers m inner d) :
    Delivers m (.named i inner name) d
  | property {r : PropertyRef} {q : Provider} {d : Delivery}
      (hq : (m.property r.id).effective = some q) (h : Delivers m q d) :
    Delivers m (.property r) d
  | unset {r : PropertyRef} (hq : (m.property r.id).effective = none) :
    Delivers m (.property r) none

namespace Provider.Delivers

variable {m : Machine} {p q : Provider} {d : Delivery} {k : Identity}

/-- Identities do not matter. -/
theorem blur (h : p.Delivers m d) : (p.blur k).Delivers m d := by
  induction h with
  | fixed => exact .fixed
  | undefined => exact .undefined
  | changing hy => exact .changing hy
  | mapMissing _ ih => exact .mapMissing ih
  | map _ hy ih => exact .map ih hy
  | flatMapMissing _ ih => exact .flatMapMissing ih
  | flatMapNothing _ hq ih => exact .flatMapNothing ih hq
  | flatMap _ hq h' ih _ => exact .flatMap ih hq h'
  | left _ ih => exact .left ih
  | right _ _ ih ih' => exact .right ih ih'
  | withEffect _ ih => exact .withEffect ih
  | named _ ih => exact .named ih
  | property hq h _ => exact .property hq h
  | unset hq => exact .unset hq

/-- What was made for a value delivers what the value does. -/
theorem eq_of_kept? (h : p.Delivers m d) {w : Outcome} (hp : p.kept? = some w) :
    d = w.delivery := by
  rcases Provider.kept?_eq_some_iff.mp hp with
    ⟨i, x, rfl, rfl⟩ | ⟨i, j, x, e, rfl, rfl⟩ | ⟨i, type, path, rfl, rfl⟩
  · cases h
    rfl
  · cases h with
    | withEffect h =>
      cases h
      rfl
  · cases h
    rfl

/-- A flat map delivers what it goes on with delivers, which carries the effect of the base. -/
theorem flatMap_of_chosen {i : Identity} {base : Provider} {choice : Recipe} {type : PayloadType}
    {x : Payload} {e : Option Effect} (h : base.Delivers m (Value.present x e).delivery)
    (hq : Provider.chosen m choice type x (SideEffect.boundTo x e) = .ok q)
    (h' : q.Delivers m d) : (Provider.flatMap i base choice type).Delivers m d := by
  cases hplan : choice.plan m (some x) with
  | error failure =>
    rw [Provider.chosen, hplan] at hq
    cases hq
  | ok q? =>
    rw [Provider.chosen, hplan] at hq
    cases q? with
    | none =>
      cases hq
      cases h'
      exact .flatMapNothing h hplan
    | some q' =>
      cases e with
      | none =>
        cases hq
        have hd : d.map (fun d => (d.1, d.2 ++ [])) = d := by simp
        exact hd ▸ .flatMap h hplan h'
      | some e =>
        cases hq
        cases h' with
        | withEffect h' => exact .flatMap h hplan h'

end Provider.Delivers

/-! ### Leaves that give the same each time -/

/-- The leaves of the region compute their results. -/
def Region.Computes (R : Region) : Prop :=
  ∀ code code', R.leaf code code' → ∀ n, (code n).Pure

/-- The leaves of the region have the same result each time. -/
def Region.Steady (R : Region) : Prop :=
  ∀ code code', R.leaf code code' → ∀ held n,
    (code n).result held (.int (Int64.ofNat n)) = (code 0).result held (.int 0)

/-- The counter does not matter. -/
theorem Calls.Steady.of_blur {calls calls' : Calls} {a : Except Failure (Option Payload)}
    {k : Identity} (hc : calls.Steady a) (h : calls'.blur k = calls.blur k) : calls'.Steady a := by
  have hc : (calls.blur k).Steady a := hc
  rw [← h] at hc
  exact hc

/-- Each call gives what the first one does. -/
theorem Region.Steady.calls {R : Region} (hS : R.Steady) (hR : R.Computes) {calls : Calls}
    (h : R.leaf calls.code calls.code) :
    calls.Steady ((calls.code 0).result calls.held (.int 0)) :=
  fun n => ⟨hR _ _ h n, hS _ _ h calls.held n⟩

theorem Recipe.Twin.pure {r r' : Recipe} (h : r.Twin R r') : r.Pure := by
  induction h with
  | register => exact .register _
  | fixed => exact .fixed _
  | undefined => exact .undefined _
  | changing => exact .changing _ _
  | produced => exact .produced _ _ _
  | property => exact .property _
  | map _ _ _ ih => exact .map _ _ ih
  | flatMap _ _ _ ih _ => exact .flatMap _ _ ih
  | orElse _ _ ihl ihr => exact .orElse ihl ihr
  | withEffect _ _ ih => exact .withEffect _ ih
  | named _ _ ih => exact .named _ ih
  | result ha => exact .result ha
  | after ha _ ih => exact .after ha ih
  | dispatch _ ih => exact .dispatch ih

/-- The region does not tell identities. -/
theorem Provider.Twin.blur {R : Region} {p q : Provider} (h : p.Twin R q) (k : Identity) :
    (p.blur k).Twin R (q.blur k) := by
  induction h with
  | fixed i x => exact .fixed _ x
  | undefined i type path => exact .undefined _ type path
  | changing i type node hl => exact .changing _ type node hl
  | map i type _ hf ih => exact .map _ type ih hf
  | flatMap i type _ hc ih => exact .flatMap _ type ih hc
  | orElse i _ _ ihl ihr => exact .orElse _ ihl ihr
  | withEffect i e _ ih => exact .withEffect _ e ih
  | named i name _ ih => exact .named _ name ih
  | property hr => exact .property hr

/-- What a recipe of the region plans is in the region. -/
theorem Recipe.Twin.plan {R : Region} {m : Machine} {q : Provider} (hm : m.Minted)
    (hg : m.Twin R m) {r : Recipe} (h : r.Twin R r) {held : Option Payload}
    (hq : r.plan m held = .ok (some q)) : q.Twin R q := by
  obtain ⟨a, a', j, hrun, hrun', htwin⟩ := h.build hg held (s := m.stack) m.supply
  have hagrees : Agrees (Ask.build r held) m (r.plan m held) (MayLookLike m.supply m.supply) :=
    h.pure.agrees hm (.refl m)
  obtain ⟨b, n, hrun'', -, -, hlooks⟩ := hagrees
  cases hrun.symm.trans hrun'
  cases hrun.symm.trans hrun''
  rw [hq] at hlooks
  cases hlooks with
  | ok hlooks =>
    cases hlooks with
    | some hlooks =>
      cases htwin with
      | ok htwin =>
        cases htwin with
        | some htwin => exact hlooks.blur_eq ▸ htwin.blur _

section Parts

variable {m : Machine} {base left right : Provider} {i : Identity} {f : Closure} {choice : Recipe}
  {type : PayloadType} {x : Payload} {deeds : List (Action × Payload)} {d d' : Delivery}

namespace Provider.Delivers

/-- A map over something missing delivers nothing. -/
theorem eq_none_of_map (hb : ∀ d, base.Delivers m d → d = none)
    (h : (Provider.map i base f type).Delivers m d) : d = none := by
  cases h with
  | mapMissing => rfl
  | map h _ => cases hb _ h

/-- A map delivers what its function makes of the payload, with the deeds of its base. -/
theorem eq_of_map {y : Option Payload} (hb : ∀ d, base.Delivers m d → d = some (x, deeds))
    (hy : f.code.result f.held x = .ok y) (h : (Provider.map i base f type).Delivers m d) :
    d = y.map (·, deeds) := by
  cases h with
  | mapMissing h => cases hb _ h
  | map h hy' =>
    cases hb _ h
    cases hy.symm.trans hy'
    rfl

/-- A flat map over something missing delivers nothing. -/
theorem eq_none_of_flatMap (hb : ∀ d, base.Delivers m d → d = none)
    (h : (Provider.flatMap i base choice type).Delivers m d) : d = none := by
  cases h with
  | flatMapMissing | flatMapNothing => rfl
  | flatMap h _ _ => cases hb _ h

/-- Where there is one payload to choose by, there is one choice. -/
theorem cases_flatMap (hb : ∀ d, base.Delivers m d → d = some (x, deeds))
    (h : (Provider.flatMap i base choice type).Delivers m d) :
    (choice.plan m (some x) = .ok none ∧ d = none) ∨
      ∃ q d', choice.plan m (some x) = .ok (some q) ∧ q.Delivers m d' ∧
        d = d'.map fun d => (d.1, d.2 ++ deeds) := by
  cases h with
  | flatMapMissing h => cases hb _ h
  | flatMapNothing h hq =>
    cases hb _ h
    exact .inl ⟨hq, rfl⟩
  | flatMap h hq h' =>
    cases hb _ h
    exact .inr ⟨_, _, hq, h', rfl⟩

/-- A fallback delivers what its left side delivers, if that is there. -/
theorem eq_of_left {d₁ : Payload × List (Action × Payload)}
    (hl : ∀ d, left.Delivers m d → d = some d₁) (h : (Provider.orElse i left right).Delivers m d) :
    d = some d₁ := by
  cases h with
  | left h => exact hl _ h
  | right h _ => cases hl _ h

/-- A fallback delivers what its right side delivers, if the left one has nothing. -/
theorem of_right (hl : ∀ d, left.Delivers m d → d = none)
    (h : (Provider.orElse i left right).Delivers m d) : right.Delivers m d := by
  cases h with
  | left h => cases hl _ h
  | right _ h => exact h

end Provider.Delivers

end Parts

/-- If the leaves give the same each time there is one thing that a provider may deliver. -/
theorem Provider.Delivers.unique {R : Region} {m : Machine} {p : Provider} {d d' : Delivery}
    (hR : R.Steady) (hm : m.Minted) (hg : m.Twin R m) (h : p.Delivers m d) (hp : p.Twin R p)
    (h' : p.Delivers m d') : d' = d := by
  induction h generalizing d' with
  | fixed | undefined =>
    cases h'
    rfl
  | changing hy =>
    cases hp with
    | changing _ _ _ hl =>
      cases h' with
      | changing hy' =>
        cases hy'.symm.trans ((hR _ _ hl _ _).trans ((hR _ _ hl _ _).symm.trans hy))
        rfl
  | mapMissing _ ih =>
    cases hp with
    | map _ _ hb _ => exact h'.eq_none_of_map fun _ => ih hb
  | map _ hy ih =>
    cases hp with
    | map _ _ hb _ => exact h'.eq_of_map (fun _ => ih hb) hy
  | flatMapMissing _ ih =>
    cases hp with
    | flatMap _ _ hb _ => exact h'.eq_none_of_flatMap fun _ => ih hb
  | flatMapNothing _ hq ih =>
    cases hp with
    | flatMap _ _ hb _ =>
      rcases h'.cases_flatMap fun _ => ih hb with ⟨-, rfl⟩ | ⟨q, d, hq', -⟩
      · rfl
      · cases hq.symm.trans hq'
  | flatMap _ hq _ ih ihq =>
    cases hp with
    | flatMap _ _ hb hc =>
      rcases h'.cases_flatMap fun _ => ih hb with ⟨hq', -⟩ | ⟨q, d, hq', hd, rfl⟩
      · cases hq.symm.trans hq'
      · cases hq.symm.trans hq'
        rw [ihq (hc.plan hm hg hq) hd]
  | left _ ih =>
    cases hp with
    | orElse _ hl _ => exact h'.eq_of_left fun _ => ih hl
  | right _ _ ih ihr =>
    cases hp with
    | orElse _ hl hr => exact ihr hr (h'.of_right fun _ => ih hl)
  | withEffect _ ih =>
    cases hp with
    | withEffect _ _ hi =>
      cases h' with
      | withEffect h' => rw [ih hi h']
  | named _ ih =>
    cases hp with
    | named _ _ hi =>
      cases h' with
      | named h' => exact ih hi h'
  | property hq _ ih =>
    cases hp with
    | property hr =>
      cases h' with
      | unset hq' => cases hq.symm.trans hq'
      | property hq' h' =>
        cases hq.symm.trans hq'
        have heff := hg.effective _ hr
        rw [hq] at heff
        cases heff with
        | some hi => exact ih hi h'
  | unset hq =>
    cases h' with
    | unset => rfl
    | property hq' _ => cases hq.symm.trans hq'

/-! ### Machines that were read -/

/-- Since then no property was changed but those that a strict reading has to finalize. -/
structure Machine.Ripens (m n : Machine) : Prop extends m.SameRegisters n where
  property_eq {i : Identity} (hi : (m.property i).mustFinalize .strict = false) :
    n.property i = m.property i

namespace Machine.Ripens

variable {m n o : Machine}

theorem refl (m : Machine) : m.Ripens m := ⟨.refl m, fun _ => rfl⟩

theorem trans (h : m.Ripens n) (h' : n.Ripens o) : m.Ripens o where
  toSameRegisters := h.toSameRegisters.trans h'.toSameRegisters
  property_eq hi := (h'.property_eq (h.property_eq hi ▸ hi)).trans (h.property_eq hi)

end Machine.Ripens

/-- A machine that only evolved has finalized nothing. -/
theorem Machine.Evolves.ripens {m n : Machine} (h : m.Evolves n) : m.Ripens n where
  toSameRegisters := h.sameRegisters
  property_eq _ := h.property_eq _

/-- Since the machine was `m` identities were handed out, calls counted and scopes opened or closed,
and properties that asked for it were finalized. Each of these keeps what it delivered. Nothing else
has happened. -/
structure Machine.Consulted (m n : Machine) : Prop where
  supply_le : m.supply ≤ n.supply
  eq : n = { m with
    stack := n.stack
    supply := n.supply
    counters := n.counters
    properties := n.properties }
  property (i : Identity) : n.property i = m.property i ∨
    (m.property i).mustFinalize .strict = true ∧
      ∃ q w, (n.property i).Keeps q w ∧ q.Minted n.supply ∧
        ∀ r : PropertyRef, r.id = i → (Provider.property r).Delivers m w.delivery

end ProviderGraph
