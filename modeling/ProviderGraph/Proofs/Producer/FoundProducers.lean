import ProviderGraph.Proofs.Engine.RaisedQuestions
import ProviderGraph.Proofs.Reference.EngineAgreement

/-!
# Producers that cannot be found

To find the producers of a provider is to ask much the same as to find its value, with one
exception: a fallback asks its second side for producers even where the first side supplies the
value. So what keeps the producers of a plain provider from being found keeps its value from being
found as well, or it is in the second side of such a fallback (`Provider.Fits.producer_fails`).
-/

namespace ProviderGraph

variable {m m₁ n : Machine} {c : Reading} {p q : Provider} {f : Fault} {t : ScopeStack}

/-- The provider is a fallback whose second side has no part in its value. Those that produce the
second side cannot be found, and this is the first fault. -/
inductive FailsBehind (m : Machine) (f : Fault) : Provider → Prop where
  | mk {i : Identity} {left right : Provider} {l : Producer} {n n' : Machine}
    (hvalue : ∀ path o, (within (Provider.orElse i left right).owner
      (Ask.value left .lenient)).run.run engine m ≠ some (.ok (.missing path), o))
    (hleft : (within (Provider.orElse i left right).owner (Ask.producer left)).run.run engine m =
      some (.ok l, n))
    (hright : (within (Provider.orElse i left right).owner (Ask.producer right)).run.run engine n =
      some (.error f, n')) : FailsBehind m f (.orElse i left right)

/-- While the question is answered, those that produce the second side of a fallback are asked for
and cannot be found, although the second side has no part in the value. -/
def FailsAside (q : Query) (m : Machine) (f : Fault) : Prop :=
  ∃ p n, Brings q m (.producer p) n ∧ FailsBehind n f p

/-- What fails aside in a question that comes up fails aside in the one it comes from. -/
theorem FailsAside.raised {q q₁ : Query} (h : (rule q).Raises m q₁ m₁) (hf : FailsAside q₁ m₁ f) :
    FailsAside q m f := by
  obtain ⟨p, n, hb, hp⟩ := hf
  exact ⟨p, n, .raised h hb, hp⟩

/-! ### Answers at rest -/

theorem bind_eq_error_iff {ε α β : Type} {x : Except ε α} {g : α → Except ε β} {e : ε} :
    x >>= g = .error e ↔ x = .error e ∨ ∃ a, x = .ok a ∧ g a = .error e := by
  cases x with
  | error e' =>
    constructor
    · intro h
      exact .inl (congrArg _ (Except.error.inj h))
    · rintro (h | ⟨a, h, -⟩)
      · exact congrArg _ (Except.error.inj h)
      · cases h
  | ok a =>
    constructor
    · intro h
      exact .inr ⟨a, rfl, h⟩
    · rintro (h | ⟨b, h, hb⟩)
      · cases h
      · obtain rfl := Except.ok.inj h
        exact hb

namespace Machine

open Agenda (demand askValue)

variable {s : ScopeStack}

/-- The value of a provider that starts with the value of another fails as this one does. -/
theorem atRest_value_of_asked {g : Outcome → Agenda Outcome}
    (hp : p.valueAgenda m = askValue q >>= g)
    (h : m.asked p.owner s (.value q) = .error f) : m.atRest (.value p) s = .error f := by
  rw [atRest_eq]
  change blame _ ((p.valueAgenda m).run (m.asked p.owner s)) = _
  rw [hp, Agenda.run_bind, blame_bind, blame_run_askValue, h]
  rfl

/-- A provider that asks another for its producers has the same. -/
theorem atRest_producer_of_demand (hp : p.producerAgenda m = demand (.producer q)) :
    m.atRest (.producer p) s = m.asked p.owner s (.producer q) := by
  rw [atRest_eq]
  change blame _ ((p.producerAgenda m).run (m.asked p.owner s)) = _
  rw [hp, blame_run_demand]

theorem atRest_producer_orElse {i : Identity} {left right : Provider} :
    let self : Provider := .orElse i left right
    m.atRest (.producer self) s =
      m.asked self.owner s (.producer left) >>= fun a =>
        m.asked self.owner s (.producer right) >>= fun b => .ok (a.plus b) := by
  intro self
  rw [atRest_eq]
  change blame _ ((demand (.producer left) >>= fun a => demand (.producer right) >>= fun b =>
    pure (a.plus b)).run (m.asked self.owner s)) = _
  rw [Agenda.run_bind, blame_bind, blame_run_demand]
  refine congrArg _ (funext fun a => ?_)
  rw [Agenda.run_bind, blame_bind, blame_run_demand]
  rfl

/-- The second side of a fallback is read if the first one has no value. -/
theorem atRest_value_orElse {i : Identity} {left right : Provider} {path : List String}
    (hl : m.asked (Provider.orElse i left right).owner s (.value left) = .ok (.missing path))
    (hr : m.asked (Provider.orElse i left right).owner s (.value right) = .error f) :
    m.atRest (.value (.orElse i left right)) s = .error f := by
  rw [atRest_eq]
  change blame _ ((askValue left >>= _).run (m.asked (Provider.orElse i left right).owner s)) = _
  rw [Agenda.run_bind, blame_bind, blame_run_askValue, hl]
  change blame _ ((askValue right >>= _).run (m.asked (Provider.orElse i left right).owner s)) = _
  rw [Agenda.run_bind, blame_bind, blame_run_askValue, hr]
  rfl

/-- What a property reads is the value of the provider that it reads from. -/
theorem atRest_value_property {r : PropertyRef} (hq : (m.property r.id).effective = some q) :
    m.atRest (.value (.property r)) s =
      (m.asked (Provider.property r).owner s (.value q)).map (·.push q.declaredName) := by
  rw [atRest_eq]
  change blame _ (((Provider.property r).valueAgenda m).run _) = _
  rw [Provider.valueAgenda, hq]
  exact blame_run_askValue _ _ _

/-- At rest a property that holds nothing is missing. -/
theorem atRest_value_unset {r : PropertyRef} (hq : (m.property r.id).effective = none) :
    m.atRest (.value (.property r)) s = .ok (.missing []) := by
  rw [atRest_eq]
  change blame _ (((Provider.property r).valueAgenda m).run _) = _
  rw [Provider.valueAgenda, hq]
  rfl

theorem atRest_producer_property {r : PropertyRef} (hf : (m.property r.id).frozenProducer = none)
    (hq : (m.property r.id).effective = some q) :
    m.atRest (.producer (.property r)) s =
      m.asked (Provider.property r).owner s (.producer q) >>= fun a =>
        .ok ((Producer.ofOption (m.property r.id).attached).plus a) := by
  have hp : (Provider.property r).producerAgenda m = demand (.producer q) >>= fun a =>
      pure ((Producer.ofOption (m.property r.id).attached).plus a) := by
    simp only [Provider.producerAgenda, hf, hq]
  rw [atRest_eq]
  change blame _ (((Provider.property r).producerAgenda m).run
    (m.asked (Provider.property r).owner s)) = _
  rw [hp, Agenda.run_bind, blame_bind, blame_run_demand]
  rfl

/-- Only what a property reads from can keep it from having producers. -/
theorem exists_of_producer_fails {r : PropertyRef}
    (h : m.atRest (.producer (.property r)) s = .error f) :
    ∃ q, (m.property r.id).frozenProducer = none ∧ (m.property r.id).effective = some q := by
  rw [atRest_eq] at h
  change blame _ (((Provider.property r).producerAgenda m).run _) = _ at h
  rw [Provider.producerAgenda] at h
  cases hfrozen : (m.property r.id).frozenProducer with
  | some frozen =>
    rw [hfrozen] at h
    cases h
  | none =>
    cases hq : (m.property r.id).effective with
    | some q => exact ⟨q, rfl, rfl⟩
    | none =>
      rw [hfrozen, hq] at h
      cases h

/-- What is attached to a property stands before its other producers. -/
theorem exists_of_producer_ok {r : PropertyRef} {a : Producer}
    (h : m.atRest (.producer (.property r)) s = .ok a) :
    ∃ b, a = (Producer.ofOption (m.property r.id).attached).plus b := by
  cases hfrozen : (m.property r.id).frozenProducer with
  | some frozen =>
    rw [atRest_eq] at h
    replace h := blame_eq_ok h
    simp only [Demand.agenda, Provider.producerAgenda, hfrozen] at h
    exact ⟨frozen, (Except.ok.inj h).symm⟩
  | none =>
    cases hq : (m.property r.id).effective with
    | some q =>
      rw [atRest_producer_property hfrozen hq] at h
      obtain ⟨b, -, h⟩ := exists_of_bind_eq_ok h
      exact ⟨b, (Except.ok.inj h).symm⟩
    | none =>
      rw [atRest_eq] at h
      replace h := blame_eq_ok h
      simp only [Demand.agenda, Provider.producerAgenda, hfrozen, hq] at h
      exact ⟨.none, (Except.ok.inj h).symm.trans (Producer.plus_none _).symm⟩

section FlatMap

variable {i : Identity} {base : Provider} {choice : Recipe} {type : PayloadType}

/-- The provider that presence and producers of a flat map go through. -/
def chosenAtRest (m : Machine) (self base : Provider) (choice : Recipe) (type : PayloadType)
    (s : ScopeStack) : Except Fault Provider :=
  blame (m.text self self.kind s) ((Provider.backed m base choice type).run (m.asked self.owner s))

/-- The provider that a flat map goes on with at rest is chosen by the value of its base. -/
theorem chosenAtRest_eq {self : Provider} :
    m.chosenAtRest self base choice type s =
      m.asked self.owner s (.value base) >>= fun v =>
        blame (m.text self self.kind s)
          ((Provider.next m choice type (v.push base.declaredName)).run (m.asked self.owner s)) := by
  rw [chosenAtRest, Provider.backed, Agenda.run_bind, blame_bind, blame_run_askValue, bind_assoc]
  rfl

theorem chosenAtRest_of_present {self : Provider} {v : Outcome} {x : Payload} {e : Option Effect}
    (hv : m.asked self.owner s (.value base) = .ok v) (hx : v.push base.declaredName = .present x e) :
    m.chosenAtRest self base choice type s =
      blame (m.text self self.kind s) (Provider.chosen m choice type x (SideEffect.boundTo x e)) := by
  rw [chosenAtRest_eq, hv]
  change blame _ ((Provider.next m choice type (v.push base.declaredName)).run _) = _
  rw [hx]
  rfl

theorem atRest_producer_flatMap :
    let self : Provider := .flatMap i base choice type
    m.atRest (.producer self) s =
      m.chosenAtRest self base choice type s >>= fun q => m.asked self.owner s (.producer q) := by
  intro self
  rw [atRest_eq]
  change blame _ ((Provider.backed m base choice type >>= fun q => demand (.producer q)).run
    (m.asked self.owner s)) = _
  rw [Agenda.run_bind, blame_bind]
  refine congrArg _ (funext fun a => ?_)
  exact blame_run_demand _ _ _

/-- The value of a flat map is found through the same provider. -/
theorem atRest_value_flatMap :
    let self : Provider := .flatMap i base choice type
    m.atRest (.value self) s =
      m.asked self.owner s (.value base) >>= fun v =>
        if v.isMissing then .ok (.missing (v.push base.declaredName).path)
        else m.chosenAtRest self base choice type s >>= fun q =>
          m.asked self.owner s (.value q) >>= fun w => .ok (w.push q.declaredName) := by
  intro self
  rw [atRest_eq]
  change blame _ ((askValue base >>= _).run (m.asked self.owner s)) = _
  rw [Agenda.run_bind, blame_bind, blame_run_askValue, bind_assoc]
  cases hb : m.asked self.owner s (.value base) with
  | error e => rfl
  | ok v =>
    cases v with
    | missing path => rfl
    | present x e =>
      change blame _ ((Provider.next m choice type (.present x e) >>= askValue).run _) = _
      rw [Agenda.run_bind, blame_bind, chosenAtRest_eq, hb]
      refine congrArg _ (funext fun q => ?_)
      exact blame_run_askValue _ _ _

end FlatMap

end Machine

/-! ### Producers and values -/

namespace Provider.Fits

/-- In its scope a provider finds the producers of another as at rest. -/
theorem run_producer_inside {c' : Reading} (hm : m.Minted) (h : p.Fits m c m₁)
    (hn : m₁.Evolves n) (hs : n.stack = m₁.stack)
    (hq : ∀ t, m₁.stack.enter p.owner = .ok t → q.Fits m c' { n with stack := t }) :
    ∃ o, (within p.owner (Ask.producer q)).run.run engine n =
        some (m.asked (p.blur m.supply).owner (m₁.stack.blur m.supply)
          (.producer (q.blur m.supply)), o) ∧
      n.Evolves o ∧ o.stack = n.stack := by
  obtain ⟨a, o, hrun, ho, hs', hsame⟩ := h.asks (d := .producer q)
    (fun _ _ _ _ h => h.faithful hm) hn hs "" fun t ht => hq t (hs ▸ ht)
  refine ⟨o, hrun.trans ?_, ho, hs'⟩
  replace hsame : SameResult _ a (blame "" ((Agenda.demand (.producer (q.blur m.supply))).run
    (m.asked (p.blur m.supply).owner (m₁.stack.blur m.supply)))) := hsame
  rw [blame_run_demand] at hsame
  generalize m.asked _ _ _ = b at hsame ⊢
  cases hsame with
  | ok h =>
    obtain ⟨-, rfl⟩ := h
    rfl
  | error e => rfl

/-- In its scope a provider finds the value of another as at rest. -/
theorem run_value_inside {c' : Reading} (hm : m.Minted) (h : p.Fits m c m₁)
    (hn : m₁.Evolves n) (hs : n.stack = m₁.stack)
    (hq : ∀ t, m₁.stack.enter p.owner = .ok t → q.Fits m c' { n with stack := t }) :
    ∃ o, (within p.owner (Ask.value q c')).run.run engine n =
        some ((m.asked (p.blur m.supply).owner (m₁.stack.blur m.supply)
          (.value (q.blur m.supply))).map (·.push q.declaredName), o) ∧
      n.Evolves o ∧ o.stack = n.stack := by
  obtain ⟨a, o, hrun, ho, hs', hsame⟩ := h.asksValue (fun _ _ _ _ h => h.faithful hm) hn hs ""
    fun t ht => hq t (hs ▸ ht)
  refine ⟨o, hrun.trans ?_, ho, hs'⟩
  rw [blame_run_askValue, Provider.declaredName_blur] at hsame
  generalize m.asked _ _ _ = b at hsame ⊢
  cases b with
  | ok w =>
    cases hsame with
    | ok h =>
      obtain ⟨-, rfl⟩ := h
      rfl
  | error e =>
    cases hsame
    rfl

section

variable (hm : m.Minted)
  (ih : ∀ (q : Provider) (n : Machine), n.stack.room < m₁.stack.room → q.Fits m c n →
    m.atRest (.producer (q.blur m.supply)) (n.stack.blur m.supply) = .error f →
      m.atRest (.value (q.blur m.supply)) (n.stack.blur m.supply) = .error f ∨
        FailsAside (.producer q) n f)

include ih

/-- The producers of a provider that is asked inside the scope cannot be found. -/
theorem fails_inside (h : p.Fits m c m₁)
    (hq : ∀ t, m₁.stack.enter p.owner = .ok t → q.Fits m c { n with stack := t })
    (hr : ∀ t, m₁.stack.enter p.owner = .ok t →
      (rule (.producer p)).Raises m₁ (.producer q) { n with stack := t })
    (hf : m.asked (p.blur m.supply).owner (m₁.stack.blur m.supply)
      (.producer (q.blur m.supply)) = .error f) :
    m.asked (p.blur m.supply).owner (m₁.stack.blur m.supply)
        (.value (q.blur m.supply)) = .error f ∨ FailsAside (.producer p) m₁ f := by
  cases ht : m₁.stack.enter p.owner with
  | error e =>
    left
    rw [h.asked_of_enter_error ht] at hf ⊢
    cases hf
    rfl
  | ok t =>
    rw [h.asked_of_enter ht] at hf ⊢
    have hroom := ScopeStack.room_lt_of_enter ht
    exact (ih q { n with stack := t } hroom (hq t ht) hf).imp_right fun haside =>
      haside.raised (hr t ht)

include hm in
/-- The second side of a fallback is asked for its producers even if it has no part in the value. -/
theorem orElse_fails {i : Identity} {left right : Provider}
    (h : (Provider.orElse i left right).Fits m c m₁)
    (hf : m.atRest (.producer ((Provider.orElse i left right).blur m.supply))
      (m₁.stack.blur m.supply) = .error f) :
    m.atRest (.value ((Provider.orElse i left right).blur m.supply))
        (m₁.stack.blur m.supply) = .error f ∨
      FailsAside (.producer (.orElse i left right)) m₁ f := by
  have start := Machine.Evolves.refl m₁
  have hleft (t : ScopeStack) (ht : m₁.stack.enter (Provider.orElse i left right).owner = .ok t) :
      left.Fits m c { m₁ with stack := t } := h.part rfl ht (fun _ _ h => h.2.1) .left
  rw [Provider.blur, Machine.atRest_producer_orElse] at hf
  rcases bind_eq_error_iff.mp hf with hl | ⟨l, hl, hf⟩
  · have hvalue := fails_inside ih h hleft (fun t ht => ?_) hl
    · exact hvalue.imp_left (Machine.atRest_value_of_asked rfl)
    · refine Eval.raises_bindExcept.mpr (.inl ?_)
      exact Eval.raises_within.mpr ⟨t, ht, Eval.raises_ask.mpr ⟨rfl, rfl⟩⟩
  · rcases bind_eq_error_iff.mp hf with hr | ⟨b, -, hf⟩
    · obtain ⟨n, hrunl, hn, hs⟩ := h.run_producer_inside hm start rfl hleft
      have hright (t : ScopeStack)
          (ht : m₁.stack.enter (Provider.orElse i left right).owner = .ok t) :
          right.Fits m c { n with stack := t } :=
        (h.later hn hs).part rfl (hs ▸ ht) (fun _ _ h => h.2.2) .right
      obtain ⟨n', hrunr, -⟩ := h.run_producer_inside hm hn hs hright
      obtain ⟨o, hrunv, -⟩ := h.lenient.run_value_inside hm start rfl fun t ht =>
        (hleft t ht).lenient
      replace hrunl := hrunl.trans (congrArg (fun a => some (a, n)) hl)
      replace hrunr := hrunr.trans (congrArg (fun a => some (a, n')) hr)
      have hraises (t : ScopeStack)
          (ht : m₁.stack.enter (Provider.orElse i left right).owner = .ok t) :
          (rule (.producer (.orElse i left right))).Raises m₁ (.producer right)
            { n with stack := t } := by
        refine Eval.raises_bindExcept.mpr (.inr ⟨l, n, hrunl, ?_⟩)
        refine Eval.raises_bindExcept.mpr (.inl ?_)
        exact Eval.raises_within.mpr ⟨t, hs ▸ ht, Eval.raises_ask.mpr ⟨rfl, rfl⟩⟩
      rcases fails_inside ih h hright hraises hr with hvalue | haside
      · by_cases hmissing : ∃ path, m.asked ((Provider.orElse i left right).blur m.supply).owner
            (m₁.stack.blur m.supply) (.value (left.blur m.supply)) = .ok (.missing path)
        · obtain ⟨path, hmissing⟩ := hmissing
          exact .inl (Machine.atRest_value_orElse hmissing hvalue)
        · -- the first side supplies the value, or it fails
          refine .inr ⟨_, m₁, .self, .mk (fun path o' hread => hmissing ?_) hrunl hrunr⟩
          replace hread := hrunv.symm.trans hread
          generalize m.asked _ _ (.value (left.blur m.supply)) = b at hread ⊢
          cases b with
          | error e => cases hread
          | ok v =>
            cases v with
            | missing path' => exact ⟨path', rfl⟩
            | present x e => cases hread
      · exact .inr haside
    · cases hf

include hm in
/-- The producers of a flat map are those of the provider that it goes on with. -/
theorem flatMap_fails {i : Identity} {base : Provider} {choice : Recipe} {type : PayloadType}
    (h : (Provider.flatMap i base choice type).Fits m c m₁)
    (hf : m.atRest (.producer ((Provider.flatMap i base choice type).blur m.supply))
      (m₁.stack.blur m.supply) = .error f) :
    m.atRest (.value ((Provider.flatMap i base choice type).blur m.supply))
        (m₁.stack.blur m.supply) = .error f ∨
      FailsAside (.producer (.flatMap i base choice type)) m₁ f := by
  have hback := Provider.Fits.backs hm (fun _ _ _ _ h => h.faithful hm) h
  rw [Provider.blur, Machine.atRest_producer_flatMap] at hf
  rw [Provider.blur, Machine.atRest_value_flatMap]
  rcases bind_eq_error_iff.mp hf with hb | ⟨q', hb, hf⟩
  · left
    rw [Machine.chosenAtRest_eq] at hb
    refine bind_eq_error_iff.mpr ((bind_eq_error_iff.mp hb).imp_right ?_)
    rintro ⟨v, hv, hnext⟩
    refine ⟨v, hv, ?_⟩
    cases v with
    | missing path => cases hnext
    | present x e =>
      refine bind_eq_error_iff.mpr (.inl ?_)
      rw [Machine.chosenAtRest_eq, hv]
      exact hnext
  · obtain ⟨a, n, hrun, hn, hs, hsame⟩ := hback
    replace hsame : SameResult _ a (m.chosenAtRest _ (base.blur m.supply) choice type _) := hsame
    rw [Provider.blur, hb] at hsame
    cases hsame with
    | @ok q _ hq =>
      obtain ⟨hq, hplain⟩ := hq
      obtain rfl := hq.blur_eq
      have hfits (t : ScopeStack)
          (ht : m₁.stack.enter (Provider.flatMap i base choice type).owner = .ok t) :
          q.Fits m c { n with stack := t } := h.built rfl hn ht hq hplain
      have hraises (t : ScopeStack)
          (ht : m₁.stack.enter (Provider.flatMap i base choice type).owner = .ok t) :
          (rule (.producer (.flatMap i base choice type))).Raises m₁ (.producer q)
            { n with stack := t } := by
        refine Eval.raises_bindExcept.mpr (.inr ⟨q, n, hrun, ?_⟩)
        exact Eval.raises_within.mpr ⟨t, hs ▸ ht, Eval.raises_ask.mpr ⟨rfl, rfl⟩⟩
      refine (fails_inside ih h hfits hraises hf).imp_left fun hvalue => ?_
      have hv := hb
      rw [Machine.chosenAtRest_eq] at hv
      obtain ⟨v, hv, hnext⟩ := exists_of_bind_eq_ok hv
      refine bind_eq_error_iff.mpr (.inr ⟨v, hv, ?_⟩)
      cases v with
      | missing path =>
        -- the value would be that of a provider that has none
        obtain ⟨t, ht, -⟩ := exists_of_bind_eq_ok hv
        replace hvalue := (Machine.asked_of_enter ht).symm.trans hvalue
        rw [← Except.ok.inj hnext, Machine.atRest_eq] at hvalue
        cases hvalue
      | present x e =>
        refine bind_eq_error_iff.mpr (.inr ⟨_, hb, ?_⟩)
        exact bind_eq_error_iff.mpr (.inl hvalue)

end

/-- Where the producers of a plain provider cannot be found, its value cannot be found either, and
for the same reason, unless this is about the second side of a fallback that has no part in the
value. -/
theorem producer_fails (hm : m.Minted) (h : p.Fits m c m₁)
    (hf : m.atRest (.producer (p.blur m.supply)) (m₁.stack.blur m.supply) = .error f) :
    m.atRest (.value (p.blur m.supply)) (m₁.stack.blur m.supply) = .error f ∨
      FailsAside (.producer p) m₁ f := by
  generalize hr : m₁.stack.room = r
  induction r using Nat.strongRecOn generalizing p m₁ with
  | ind r ih =>
    have ih (q : Provider) (n : Machine) (hn : n.stack.room < m₁.stack.room) (h : q.Fits m c n)
        (hf : m.atRest (.producer (q.blur m.supply)) (n.stack.blur m.supply) = .error f) :
        m.atRest (.value (q.blur m.supply)) (n.stack.blur m.supply) = .error f ∨
          FailsAside (.producer q) n f := ih _ (hr ▸ hn) h hf rfl
    have asks {q : Provider} {t : ScopeStack} (ht : m₁.stack.enter p.owner = .ok t) :
        (within p.owner (Ask.producer q)).run.Raises m₁ (.producer q) { m₁ with stack := t } :=
      Eval.raises_within.mpr ⟨t, ht, Eval.raises_ask.mpr ⟨rfl, rfl⟩⟩
    cases p with
    | fixed | undefined =>
      rw [Machine.atRest_eq] at hf
      cases hf
    | changing i type node calls =>
      rw [Machine.atRest_eq] at hf
      cases node <;> cases hf
    | map i base g type =>
      rw [Provider.blur, Machine.atRest_producer_of_demand rfl] at hf
      have hbase := fails_inside ih h (fun t ht => h.part rfl ht (fun _ _ h => h.2) .map)
        (fun t ht => asks ht) hf
      exact hbase.imp_left (Machine.atRest_value_of_asked rfl)
    | flatMap i base choice type => exact flatMap_fails hm ih h hf
    | orElse i left right => exact orElse_fails hm ih h hf
    | withEffect i inner e =>
      rw [Provider.blur, Machine.atRest_producer_of_demand rfl] at hf
      have hinner := fails_inside ih h
        (fun t ht => h.part rfl ht (fun _ _ h => h.2) .withEffect) (fun t ht => asks ht) hf
      exact hinner.imp_left (Machine.atRest_value_of_asked rfl)
    | named i inner name =>
      rw [Provider.blur, Machine.atRest_producer_of_demand rfl] at hf
      have hinner := fails_inside ih h
        (fun t ht => h.part rfl ht (fun _ _ h => h.2) .named) (fun t ht => asks ht) hf
      exact hinner.imp_left (Machine.atRest_value_of_asked (Agenda.bind_pure _).symm)
    | property r =>
      rw [Provider.blur] at hf ⊢
      obtain ⟨q, hfrozen, hq⟩ := Machine.exists_of_producer_fails hf
      have hq₁ : (m₁.property r.id).effective = some q := by rw [h.evolves.property_eq, hq]
      rw [Machine.atRest_producer_property hfrozen hq] at hf
      rcases bind_eq_error_iff.mp hf with hf | ⟨a, -, hf⟩
      · rw [← (hm.effective _ _ hq).blur_eq] at hf
        have hheld := fails_inside ih h (fun t ht => h.held hm ht hq₁) (fun t ht => ?_) hf
        · refine hheld.imp_left fun hvalue => ?_
          rw [(hm.effective _ _ hq).blur_eq] at hvalue
          rw [Machine.atRest_value_property hq]
          exact congrArg (Except.map _) hvalue
        · refine Eval.raises_property_bind.mpr ?_
          rw [h.evolves.property_eq, hfrozen, hq]
          exact Eval.raises_bindExcept.mpr (.inl (asks ht))
      · cases hf
    | custom => exact h.plain.plain.elim

end Provider.Fits

end ProviderGraph
