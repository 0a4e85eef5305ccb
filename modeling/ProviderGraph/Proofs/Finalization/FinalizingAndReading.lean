import ProviderGraph.Proofs.Finalization.MarkedProperties
import ProviderGraph.Proofs.Producer.FoundProducers
import ProviderGraph.Proofs.Property.Permanence

/-!
# Finalizing and reading

To finalize a property is to find its producers and then its value. So it fails where a strict
reading does, and also where those that produce the second side of a fallback cannot be found
(`finalize_iff_read`).
-/

namespace ProviderGraph

variable {m n m₁ : Machine} {r : PropertyRef} {p q : Provider} {s t : ScopeStack} {f : Fault}
  {v : Outcome}

/-! ### Values with an effect -/

/-- If the value has an effect there is room for a scope. -/
def ScopeStack.RoomFor (s : ScopeStack) (v : Outcome) : Prop :=
  ∀ x e, v = .present x (some e) → s.depth < s.limit

/-- Where a scope was opened there was room for one. -/
theorem ScopeStack.RoomFor.of_enter {o : Owner} (ht : s.enter o = .ok t) : s.RoomFor v :=
  fun _ _ _ => (enter_eq_ok_iff.mp ht).2.1

/-- A payload with an effect is found through a scope. -/
theorem Machine.depth_lt_of_effect {x : Payload} {e : Effect}
    (h : m.atRest (.value p) s = .ok (.present x (some e))) : s.depth < s.limit := by
  by_contra hfull
  have hasked (o : Owner) (d : Demand) : ∃ f, m.asked o s d = .error f := by
    cases ht : m.enter s o with
    | error f => exact ⟨f, asked_of_enter_error ht⟩
    | ok t => exact absurd (enter_eq_ok_iff.mp ht).2.1 hfull
  have fails {q : Provider} {g : Outcome → Agenda Outcome}
      (hp : p.valueAgenda m = Agenda.askValue q >>= g) : False := by
    obtain ⟨f, hf⟩ := hasked p.owner (.value q)
    exact nomatch (atRest_value_of_asked hp hf).symm.trans h
  cases p with
  | map | flatMap | orElse | withEffect => exact fails rfl
  | named => exact fails (Agenda.bind_pure _).symm
  | property r =>
    cases hq : (m.property r.id).effective with
    | some q =>
      obtain ⟨f, hf⟩ := hasked (Provider.property r).owner (.value q)
      rw [atRest_value_property hq, hf] at h
      cases h
    | none => cases (atRest_value_unset hq).symm.trans h
  | changing i type node calls =>
    rw [atRest_eq] at h
    replace h := blame_eq_ok h
    change Except.mapError Failure.fault (blame _ ((calls.code 0).result calls.held (.int 0) >>=
      fun y => pure (Value.ofOption y))) = _ at h
    cases hy : (calls.code 0).result calls.held (.int 0) with
    | ok y =>
      rw [hy] at h
      cases y <;> cases h
    | error failure =>
      rw [hy] at h
      cases failure <;> cases h
  | fixed | undefined | custom =>
    rw [atRest_eq] at h
    cases h

/-! ### What is made for a value -/

/-- The provider was made for the value, with identities that were new. -/
structure Provider.MadeFor (k : Identity) (v : Outcome) (p : Provider) : Prop where
  kept : p.kept? = some v
  /-- To give the value it opens one scope if there is an effect, and none otherwise. -/
  scopes : p.keptScopes = [] ∨
    ∃ o x e, p.keptScopes = [o] ∧ k ≤ o.id ∧ v = .present x (some e)

/-- A computed value is turned into a provider that was made for it. -/
theorem Classification.run_toProvider_ofValue (v : Outcome) (type : PayloadType) (n : Machine) :
    ∃ p o, ((Classification.ofValue v).toProvider type).run engine n = some (p, o) ∧
      n.Evolves o ∧ o.stack = n.stack ∧ p.MadeFor n.supply v ∧ p.Minted o.supply := by
  have hlt := Nat.lt_succ_self n.supply
  match v with
  | .missing path => exact ⟨_, _, rfl, .fresh n, rfl, ⟨rfl, .inl rfl⟩, hlt⟩
  | .present x none => exact ⟨_, _, rfl, .fresh n, rfl, ⟨rfl, .inl rfl⟩, hlt⟩
  | .present x (some e) =>
    refine ⟨_, _, rfl, .trans (.fresh n) (.fresh _), rfl, ⟨rfl, .inr ⟨_, x, e, rfl, ?_, rfl⟩⟩, ?_⟩
    · exact Nat.le_succ _
    · exact ⟨Nat.lt_succ_self _, Nat.lt_succ_of_lt hlt⟩

theorem Provider.MadeFor.mono {j k : Identity} (h : p.MadeFor k v) (hj : j ≤ k) : p.MadeFor j v where
  kept := h.kept
  scopes := h.scopes.imp_right fun ⟨o, x, e, hscopes, ho, hv⟩ =>
    ⟨o, x, e, hscopes, Nat.le_trans hj ho, hv⟩

/-- Where there is room for one more scope, if there is an effect, the value is given. -/
theorem Provider.MadeFor.exists_enterAll {k : Identity} (h : p.MadeFor k v)
    (hs : ∀ o ∈ p.keptScopes, k ≤ o.id → s.isOpen o.id = false) (hroom : s.RoomFor v) :
    ∃ t, s.enterAll p.keptScopes = .ok t := by
  rcases h.scopes with hscopes | ⟨o, x, e, hscopes, ho, hv⟩
  · rw [hscopes]
    exact ⟨s, rfl⟩
  · have hopen := hs o (hscopes ▸ List.mem_singleton_self o) ho
    have ht := ScopeStack.enter_eq_ok_iff.mpr ⟨hopen, hroom x e hv, rfl⟩
    rw [hscopes, ScopeStack.enterAll_cons, ht]
    exact ⟨_, rfl⟩

/-! ### Finalizations -/

/-- How a finalization ends that comes to plain providers only, with its result and the machine
then. -/
inductive Machine.Freezes (m : Machine) (r : PropertyRef) : Except Fault Unit → Machine → Prop where
  /-- The property keeps its value. -/
  | keeps {p : Provider} {v : Outcome} {o : Machine}
    (hv : m.atRest (.value (.property r)) m.stack = .ok v) (hk : (o.property r.id).Keeps p v)
    (hp : p.MadeFor m.supply v) (hs : o.stack = m.stack) : Freezes m r (.ok ()) o
  /-- The value cannot be found, or its producers cannot. -/
  | fails {f : Fault} {o : Machine}
    (h : m.atRest (.value (.property r)) m.stack = .error f ∨ FailsAside (.finalize r) m f) :
    Freezes m r (.error f) o

section

variable (hm : m.Minted) (hr : r.id < m.supply) (h : m.SameButMark r.id n)
  (hplain : (Provider.property r).AllPlain n .strict)

include hm hr h hplain

/-- The property may be read leniently, with its mark or without. -/
theorem Machine.SameButMark.fits : (Provider.property r).Fits m .lenient m :=
  .start hm hr (h.allPlain_lenient hplain)

/-- In its scope a property may read strictly from the provider that it holds. -/
theorem Machine.SameButMark.fits_held (hq : (m.property r.id).effective = some q)
    (hm₁ : m.Evolves m₁) (hs : m₁.stack = m.stack)
    (ht : m.stack.enter (Provider.property r).owner = .ok t) :
    q.Fits m .strict { m₁ with stack := t } := by
  have hfits := ((h.fits hm hr hplain).later hm₁ hs).held hm (hs ▸ ht) (hm₁.property_eq r.id ▸ hq)
  have hopen : t.isOpen r.id = true :=
    ScopeStack.isOpen_of_frameOf? (ScopeStack.frameOf?_of_enter ht)
  refine ⟨hfits.toSits, hfits.evolves, ?_⟩
  rw [(hm.effective _ _ hq).blur_eq]
  exact h.allPlainIn (hplain.leads (.property (h.effective_eq _ ▸ hq))) hopen (by rw [hq]; rfl)

/-- Inside the scope of the property a demand is met as it is at rest. -/
theorem Machine.SameButMark.asked_of_enter (ht : m.stack.enter (Provider.property r).owner = .ok t)
    (d : Demand) :
    m.asked (Provider.property r).owner m.stack d = m.atRest d (t.blur m.supply) := by
  rw [← (h.fits hm hr hplain).asked_of_enter ht, ScopeStack.blur_eq hm.frames]
  rfl

/-- Where the scope of the property cannot be opened a demand fails as the opening does. -/
theorem Machine.SameButMark.asked_of_enter_error
    (ht : m.stack.enter (Provider.property r).owner = .error f) (d : Demand) :
    m.asked (Provider.property r).owner m.stack d = .error f := by
  rw [← (h.fits hm hr hplain).asked_of_enter_error ht d, ScopeStack.blur_eq hm.frames]
  rfl

/-- What a property that holds a provider would keep is its value, if its producers can be found. -/
theorem Machine.SameButMark.run_computeFrozen (hq : (m.property r.id).effective = some q) :
    ∃ a o, (computeFrozen r (some q)).run.run engine m = some (a, o) ∧ m.Evolves o ∧
      o.stack = m.stack ∧ SameResult (fun k v => k.1.MadeFor m.supply v) a
        (m.asked (Provider.property r).owner m.stack (.producer q) >>= fun _ =>
          m.atRest (.value (.property r)) m.stack) := by
  have hfits := h.fits hm hr hplain
  have hblur : m.stack.blur m.supply = m.stack := ScopeStack.blur_eq hm.frames
  have hqblur := (hm.effective _ _ hq).blur_eq
  have hrblur : (Provider.property r).blur m.supply = .property r := rfl
  obtain ⟨n₁, hrun₁, hn₁, hs₁⟩ := hfits.run_producer_inside hm (.refl m) rfl fun t ht =>
    h.fits_held hm hr hplain hq (.refl m) rfl ht
  obtain ⟨n₂, hrun₂, hn₂, hs₂⟩ := hfits.run_value_inside hm hn₁ hs₁ fun t ht =>
    h.fits_held hm hr hplain hq hn₁ hs₁ ht
  rw [hblur, hqblur, hrblur] at hrun₁ hrun₂
  rw [Machine.atRest_value_property hq]
  generalize m.asked (Provider.property r).owner m.stack (.producer q) = a at hrun₁ ⊢
  cases a with
  | error f => exact ⟨_, n₁, Eval.run_bind_error hrun₁ _, hn₁, hs₁, .error f⟩
  | ok t =>
    generalize (m.asked (Provider.property r).owner m.stack (.value q)).map
      (·.push q.declaredName) = b at hrun₂ ⊢
    cases b with
    | error f =>
      exact ⟨_, n₂, (Eval.run_bind_ok hrun₁ _).trans (Eval.run_bind_error hrun₂ _),
        hn₁.trans hn₂, hs₂.trans hs₁, .error f⟩
    | ok v =>
      obtain ⟨p, o, hrun, ho, hs, hp, -⟩ := Classification.run_toProvider_ofValue v r.type n₂
      have hev := hn₁.trans (hn₂.trans ho)
      refine ⟨.ok (p, t), o, ?_, hev, hs.trans (hs₂.trans hs₁), .ok ?_⟩
      · refine (Eval.run_bind_ok hrun₁ _).trans ((Eval.run_bind_ok hrun₂ _).trans ?_)
        rw [Eval.run_lift_bind, Eval.run_bind_of hrun]
        rfl
      · exact hp.mono (hn₁.trans hn₂).supply_le

/-- What keeps the value from being kept keeps it from being read. -/
theorem Machine.SameButMark.fails (hopen : (m.property r.id).finalized = false)
    (hq : (m.property r.id).effective = some q)
    (hf : (m.asked (Provider.property r).owner m.stack (.producer q) >>= fun _ =>
      m.atRest (.value (.property r)) m.stack) = .error f) :
    m.atRest (.value (.property r)) m.stack = .error f ∨ FailsAside (.finalize r) m f := by
  rcases bind_eq_error_iff.mp hf with hf | ⟨-, -, hf⟩
  · have hqblur := (hm.effective _ _ hq).blur_eq
    rw [Machine.atRest_value_property hq]
    cases ht : m.stack.enter (Provider.property r).owner with
    | error e =>
      rw [h.asked_of_enter_error hm hr hplain ht] at hf ⊢
      exact .inl (congrArg Except.error (Except.error.inj hf))
    | ok t =>
      rw [h.asked_of_enter hm hr hplain ht] at hf ⊢
      have hheld := h.fits_held hm hr hplain hq (.refl m) rfl ht
      rw [← hqblur] at hf ⊢
      rcases hheld.producer_fails hm hf with hvalue | haside
      · left
        rw [hqblur] at hvalue ⊢
        exact congrArg (Except.map _) hvalue
      · refine .inr (haside.raised (Eval.raises_property_bind.mpr ?_))
        rw [hopen, hq]
        refine Eval.raises_bindExcept.mpr (.inl (Eval.raises_bindExcept.mpr (.inl ?_)))
        exact Eval.raises_within.mpr ⟨t, ht, Eval.raises_ask.mpr ⟨rfl, rfl⟩⟩
  · exact .inl hf

/-- A property that is not finalized keeps the value that it has at rest, if it is found. -/
theorem Machine.SameButMark.finalize_freezes (hopen : (m.property r.id).finalized = false) :
    ∃ a o, engine (.finalize r) m = some (a, o) ∧ m.Freezes r a o := by
  rw [run_evalFinalize_of_open hopen]
  have keeps {p : Provider} {k : Producer} {o : Machine} {v : Outcome} (ho : m.Evolves o)
      (hp : p.MadeFor m.supply v) :
      ((o.setProperty r.id ((o.property r.id).commit p k)).property r.id).Keeps p v := by
    rw [Machine.property_setProperty_self, ho.property_eq]
    exact Property.keeps_commit hopen hp.kept
  cases hq : (m.property r.id).effective with
  | none =>
    have hp : (Provider.undefined m.supply r.type []).MadeFor m.supply (.missing []) := ⟨rfl, .inl rfl⟩
    have hrun : (computeFrozen r none).run.run engine m =
        some (.ok (.undefined m.supply r.type [], .none), { m with supply := m.supply + 1 }) := rfl
    refine ⟨_, _, Eval.run_bind_ok hrun _, ?_⟩
    exact .keeps (Machine.atRest_value_unset hq) (keeps (.fresh m) hp) hp rfl
  | some q =>
    obtain ⟨a, o, hrun, ho, hs, hsame⟩ := h.run_computeFrozen hm hr hplain hq
    generalize hb : (_ >>= fun _ => _ : Except Fault Outcome) = b at hsame
    cases hsame with
    | error f => exact ⟨_, o, Eval.run_bind_error hrun _, .fails (h.fails hm hr hplain hopen hq hb)⟩
    | @ok k v hp =>
      obtain ⟨_, -, hv⟩ := exists_of_bind_eq_ok hb
      exact ⟨_, _, Eval.run_bind_ok hrun _, .keeps hv (keeps ho hp) hp hs⟩

/-- If the value has an effect there is room for one more scope inside that of the property. -/
theorem Machine.SameButMark.depth_lt_of_effect {x : Payload} {e : Effect}
    (ht : m.stack.enter (Provider.property r).owner = .ok t)
    (hv : m.atRest (.value (.property r)) m.stack = .ok (.present x (some e))) :
    t.depth < t.limit := by
  cases hq : (m.property r.id).effective with
  | none => cases (Machine.atRest_value_unset hq).symm.trans hv
  | some q =>
    rw [Machine.atRest_value_property hq, h.asked_of_enter hm hr hplain ht] at hv
    obtain ⟨w, hw, hpush⟩ := map_eq_ok_iff.mp hv
    cases w with
    | missing path => cases hpush
    | present y e' =>
      cases hpush
      simpa using Machine.depth_lt_of_effect hw

/-- What the property keeps can be read where its scope can be opened. -/
theorem Machine.SameButMark.exists_enterAll
    (ht : m.stack.enter (Provider.property r).owner = .ok t)
    (hv : m.atRest (.value (.property r)) m.stack = .ok v) (hp : p.MadeFor m.supply v) :
    ∃ t', m.stack.enterAll ((Provider.property r).owner :: p.keptScopes) = .ok t' := by
  have hframes (o : Owner) (ho : o ∈ t.frames) : o.id < m.supply := by
    rcases ScopeStack.mem_frames_of_enter ht ho with rfl | ho
    · exact hr
    · exact hm.frames o ho
  rw [ScopeStack.enterAll_cons, ht]
  refine hp.exists_enterAll (fun o _ ho => ?_) fun x e hxe =>
    h.depth_lt_of_effect hm hr hplain ht (hv.trans (congrArg Except.ok hxe))
  exact ScopeStack.isOpen_eq_false_iff.mpr fun o' ho' hid =>
    absurd (hframes o' ho') (Nat.not_lt.mpr (hid ▸ ho))

/-- A strict reading that has to finalize the property gives its value at rest. It fails if the
producers cannot be found, or if the property holds nothing and its scope cannot be opened. -/
theorem Machine.SameButMark.run_value_of_mustFinalize
    (hmust : (m.property r.id).mustFinalize .strict = true)
    (hv : m.atRest (.value (.property r)) m.stack = .ok v) :
    ∃ c o, (Ask.value (.property r) .strict).run.run engine m = some (c, o) ∧
      (c = .ok (v.push r.name) ∨ ∃ f, c = .error f ∧ (FailsAside (.finalize r) m f ∨
        (m.property r.id).effective = none ∧
          m.stack.enter (Provider.property r).owner = .error f)) := by
  have hopen := (Property.mustFinalize_eq_true_iff.mp hmust).2.2
  obtain ⟨a, o, hfin, hfreezes⟩ := h.finalize_freezes hm hr hplain hopen
  cases hfreezes with
  | fails hf =>
    refine ⟨_, o, run_value_of_finalize_error hmust hfin, .inr ⟨_, rfl, .inl ?_⟩⟩
    rcases hf with hf | haside
    · cases hv.symm.trans hf
    · exact haside
  | @keeps p w _ hw hk hp hs =>
    obtain rfl := Except.ok.inj (hv.symm.trans hw)
    refine ⟨_, o, run_value_of_finalized hmust hfin hk, ?_⟩
    rw [hs]
    cases ht : m.stack.enter (Provider.property r).owner with
    | ok t =>
      obtain ⟨t', ht'⟩ := h.exists_enterAll hm hr hplain ht hv hp
      rw [ht']
      exact .inl rfl
    | error f =>
      rw [ScopeStack.enterAll_cons, ht]
      refine .inr ⟨f, rfl, .inr ⟨?_, rfl⟩⟩
      cases hq : (m.property r.id).effective with
      | none => rfl
      | some q =>
        rw [Machine.atRest_value_property hq, h.asked_of_enter_error hm hr hplain ht] at hv
        cases hv

end

/-- A property that is not finalized is finalized without fault only if it has a value when it is
read strictly without a mark. Where the finalization fails the reading fails in the same way, unless
those that produce the second side of a fallback, which has no part in the value, cannot be found.
If the reading gives a value, then so it does with the mark, unless the producers of such a fallback
cannot be found, or the property holds nothing and there is no room to read what it keeps. -/
theorem finalize_iff_read (hm : m.Minted) (hr : r.id < m.supply)
    (hopen : (m.property r.id).finalized = false)
    (hplain : (Provider.property r).AllPlain (m.mark r.id false) .strict) :
    ∃ a o b o', engine (.finalize r) m = some (a, o) ∧
      (Ask.value (.property r) .strict).run.run engine (m.mark r.id false) = some (b, o') ∧
      (a = .ok () → ∃ v, b = .ok v) ∧
      (∀ f, a = .error f → b = .error f ∨ FailsAside (.finalize r) m f) ∧
      ∀ v, b = .ok v → ∃ c o'',
        (Ask.value (.property r) .strict).run.run engine (m.mark r.id true) = some (c, o'') ∧
        (c = .ok v ∨ ∃ f, c = .error f ∧ (FailsAside (.finalize r) (m.mark r.id true) f ∨
          (m.property r.id).effective = none ∧
            m.stack.enter (Provider.property r).owner = .error f)) := by
  have hunmarked : m.SameButMark r.id (m.mark r.id false) := .of_mark m r.id false
  have hmarked : m.SameButMark r.id (m.mark r.id true) := .of_mark m r.id true
  obtain ⟨a, o, hfin, hfreezes⟩ := hunmarked.finalize_freezes hm hr hplain hopen
  obtain ⟨o', hread, -⟩ := run_value (hunmarked.minted hm) (p := .property r) hr hplain
  rw [← hunmarked.atRest_eq] at hread
  refine ⟨a, o, _, o', hfin, hread, ?_, ?_, ?_⟩
  · rintro rfl
    cases hfreezes with
    | keeps hv => exact ⟨_, map_eq_ok_iff.mpr ⟨_, hv, rfl⟩⟩
  · rintro f rfl
    cases hfreezes with
    | fails h => exact h.imp_left fun h => congrArg (Except.map _) h
  · intro v hv
    obtain ⟨w, hw, rfl⟩ := map_eq_ok_iff.mp hv
    have hmust : ((m.mark r.id true).property r.id).mustFinalize .strict = true := by
      rw [Machine.mark, Machine.property_setProperty_self]
      simpa [Property.mustFinalize, Property.mark] using hopen
    have hsame := hmarked.symm.trans hunmarked
    rw [hmarked.effective_eq]
    exact hsame.run_value_of_mustFinalize (hmarked.minted hm) hr hplain hmust
      ((hmarked.atRest_eq _ _).symm.trans hw)

/-! ### Fixed sessions -/

/-- A session with a property that reads from a map and is to be finalized by the first strict
reading. -/
def doublingSession : List Step :=
  [.newProperty "p" .int (some "p"),
    .setProvider "p" (.map (.fixed (.int 1)) (.compute fun x => .ok (x.add x)) .int),
    .property "p" .finalizeOnRead]

def doublingMachine : Machine := (Session.played 9 doublingSession (.fresh 8)).getD (.fresh 8)

theorem finalize_iff_read_doublingMachine :
    ∃ v o o' o'', engine (.finalize ⟨0, .int, some "p"⟩) doublingMachine = some (.ok (), o) ∧
      (Ask.value (.property ⟨0, .int, some "p"⟩) .strict).run.run engine
        (doublingMachine.mark 0 false) = some (.ok v, o') ∧
      (Ask.value (.property ⟨0, .int, some "p"⟩) .strict).run.run engine
        (doublingMachine.mark 0 true) = some (.ok v, o'') := by
  have hreached : doublingMachine.Reached :=
    (Machine.Reached.fresh 8).played 9 doublingSession rfl
  have hplain : (Provider.property ⟨0, .int, some "p"⟩).AllPlain
      (doublingMachine.mark 0 false) .strict := by
    refine .of_leads rfl fun q h => ?_
    cases h with
    | property h =>
      obtain rfl := Option.some.inj h
      refine .of_leads (.compute _) fun q h => ?_
      cases h
      exact .of_leads trivial fun q h => nomatch h
  have hfin : ∃ o, engine (.finalize ⟨0, .int, some "p"⟩) doublingMachine = some (.ok (), o) :=
    ⟨_, engine_eq_some_iff.mpr ⟨9, rfl⟩⟩
  have hmarked : ∃ w o'', (Ask.value (.property ⟨0, .int, some "p"⟩) .strict).run.run engine
      (doublingMachine.mark 0 true) = some (.ok w, o'') :=
    ⟨_, _, Eval.run_engine_of_answer 9 rfl⟩
  obtain ⟨o, hfin⟩ := hfin
  obtain ⟨w, o'', hmarked⟩ := hmarked
  obtain ⟨a, o₁, b, o', hrun, hread, hok, -, hvalue⟩ :=
    finalize_iff_read hreached.minted (r := ⟨0, .int, some "p"⟩) (by decide) rfl hplain
  obtain ⟨rfl, rfl⟩ := Prod.mk.inj (Option.some.inj (hfin.symm.trans hrun))
  obtain ⟨v, rfl⟩ := hok rfl
  obtain ⟨c, o₂, hrun', hc⟩ := hvalue v rfl
  obtain ⟨rfl, rfl⟩ := Prod.mk.inj (Option.some.inj (hmarked.symm.trans hrun'))
  rcases hc with hc | ⟨f, hc, -⟩
  · exact ⟨v, o, o', o'', hfin, hread, hc ▸ hmarked⟩
  · cases hc

/-- A session with a property that reads from a fallback whose second side fails, and has no part in
the value. -/
def unusedSession : List Step :=
  [.newProperty "p" .int none,
    .setProvider "p" (.orElse (.fixed (.int 1))
      (.flatMap (.fixed (.int 1)) (.result (.compute fun _ => .error (.rejected "x"))) .int))]

def unusedMachine : Machine := (Session.played 9 unusedSession (.fresh 8)).getD (.fresh 8)

/-- A session with a property that holds nothing, where no more scopes can be opened. -/
def shallowSession : List Step :=
  [.scope (.declare "o" "o" none), .scope (.enter "o" "s"), .newProperty "q" .int none]

def shallowMachine : Machine := (Session.played 9 shallowSession (.fresh 1)).getD (.fresh 1)

theorem unusedMachine_allPlain :
    (Provider.property ⟨0, .int, none⟩).AllPlain (unusedMachine.mark 0 false) .strict := by
  have fixed {i : Identity} {x : Payload} :
      (Provider.fixed i x).AllPlain (unusedMachine.mark 0 false) .strict :=
    .of_leads trivial fun q h => nomatch h
  refine .of_leads rfl fun q h => ?_
  cases h with
  | property h =>
    obtain rfl := Option.some.inj h
    refine .of_leads trivial fun q h => ?_
    cases h with
    | left => exact fixed
    | right =>
      refine .of_leads (.result (.compute _)) fun q h => ?_
      cases h with
      | chosen h => cases h
      | flatMap => exact fixed
      | absent => exact .of_leads trivial fun q h => nomatch h

theorem shallowMachine_allPlain :
    (Provider.property ⟨1, .int, none⟩).AllPlain (shallowMachine.mark 1 false) .strict := by
  refine .of_leads rfl fun q h => ?_
  cases h with
  | property h => cases h

/-- The first property has a value, but it cannot be finalized, nor read once it is marked. The
second one can be read and finalized, but it cannot be read once it is marked. -/
theorem marked_reading_fails :
    (unusedMachine.Reached ∧ (unusedMachine.property 0).finalized = false ∧
      (Provider.property ⟨0, .int, none⟩).AllPlain (unusedMachine.mark 0 false) .strict ∧
      (∃ v n, (Ask.value (.property ⟨0, .int, none⟩) .strict).run.run engine
        (unusedMachine.mark 0 false) = some (.ok v, n)) ∧
      (∃ n, engine (.finalize ⟨0, .int, none⟩) unusedMachine =
        some (.error (.transform "flatmap(fixed(1))" "x"), n)) ∧
      ∃ n, (Ask.value (.property ⟨0, .int, none⟩) .strict).run.run engine
        (unusedMachine.mark 0 true) = some (.error (.transform "flatmap(fixed(1))" "x"), n)) ∧
    shallowMachine.Reached ∧ (shallowMachine.property 1).finalized = false ∧
      (Provider.property ⟨1, .int, none⟩).AllPlain (shallowMachine.mark 1 false) .strict ∧
      (∃ v n, (Ask.value (.property ⟨1, .int, none⟩) .strict).run.run engine
        (shallowMachine.mark 1 false) = some (.ok v, n)) ∧
      (∃ n, engine (.finalize ⟨1, .int, none⟩) shallowMachine = some (.ok (), n)) ∧
      ∃ n, (Ask.value (.property ⟨1, .int, none⟩) .strict).run.run engine
        (shallowMachine.mark 1 true) = some (.error (.tooDeep 2 1), n) := by
  constructor
  · exact ⟨(Machine.Reached.fresh 8).played 9 unusedSession rfl, rfl, unusedMachine_allPlain,
      ⟨_, _, Eval.run_engine_of_answer 9 rfl⟩, ⟨_, engine_eq_some_iff.mpr ⟨9, rfl⟩⟩,
      ⟨_, Eval.run_engine_of_answer 9 rfl⟩⟩
  · exact ⟨(Machine.Reached.fresh 1).played 9 shallowSession rfl, rfl, shallowMachine_allPlain,
      ⟨_, _, Eval.run_engine_of_answer 9 rfl⟩, ⟨_, engine_eq_some_iff.mpr ⟨9, rfl⟩⟩,
      ⟨_, Eval.run_engine_of_answer 9 rfl⟩⟩

end ProviderGraph
