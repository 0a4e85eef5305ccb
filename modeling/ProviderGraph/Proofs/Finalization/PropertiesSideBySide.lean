import ProviderGraph.Proofs.Finalization.AnswersSideBySide

/-!
# Properties side by side

A property may be finalized on the second machine before it is on the first one, or it is finalized
there only. Then the value that it keeps there is the one that is found here, and what the
finalization came to is finalized there as well.
-/

namespace ProviderGraph

variable {R : Region} {m a a' b b' n : Machine} {p p' q q' : Provider} {s s' t : ScopeStack}
  {r : PropertyRef} {c : Reading} {v w w' : Outcome} {u u' : Producer} {i j : Identity} {k : Nat}

/-! ### What a finalization finalizes -/

/-- To finalize `r` the property with the identity `j` is finalized. -/
def PropertyRef.Closes (m : Machine) (r : PropertyRef) (j : Identity) : Prop :=
  (∃ q, (m.property r.id).effective = some q ∧ q.Closes m .strict j) ∨ r.id = j

/-- A strict reading finalizes at least as much. -/
theorem Provider.Closes.strict (h : p.Closes m c j) : p.Closes m .strict j := by
  cases c with
  | strict => exact h
  | lenient => exact nomatch h.1

theorem PropertyRef.closes_of_closes (h : (Provider.property r).Closes m c j) : r.Closes m j := by
  cases hq : (m.property r.id).effective with
  | none => exact .inr ((Provider.closes_unset_iff hq).mp h).2
  | some q =>
    exact ((Provider.closes_property_iff hq).mp h).elim (fun h => .inr h.2)
      fun h => .inl ⟨q, hq, h.strict⟩

/-- A property without the mark finalizes what it reads from finalizes. -/
theorem Provider.closes_property_iff_of_unmarked (hmust : (m.property r.id).mustFinalize c = false)
    (hq : (m.property r.id).effective = some q) :
    (Provider.property r).Closes m c j ↔ q.Closes m c j :=
  (closes_property_iff hq).trans (or_iff_right fun h => Bool.eq_false_iff.mp hmust h.1)

/-- A reading that has to finalize the property finalizes what its finalization does. -/
theorem PropertyRef.closes_iff (hmust : (m.property r.id).mustFinalize .strict = true) :
    (Provider.property r).Closes m .strict j ↔ r.Closes m j := by
  refine ⟨closes_of_closes, ?_⟩
  rintro (⟨q, hq, h⟩ | rfl)
  · exact ⟨h.1, .held hq h.2⟩
  · exact ⟨hmust, .self rfl⟩

/-- What need not be finalized need not be finalized later. -/
theorem Machine.Matured.mustFinalize_eq_false (h : m.Matured n)
    (hmust : (m.property r.id).mustFinalize c = false) :
    (n.property r.id).mustFinalize c = false := by
  rcases h.property r.id with heq | ⟨q, w, t, hr⟩
  · rw [heq, hmust]
  · exact hr.keeps.mustFinalize c

/-- A property that has been finalized since has matured. -/
theorem Machine.Matured.matures (h : m.Matured n) (hi : (m.property i).finalized = false)
    (hn : n.Final i) : ∃ q w t, m.Matures n i q w t := by
  refine (h.property i).resolve_left fun heq => ?_
  rw [Final, heq, hi] at hn
  cases hn

/-! ### What a property keeps -/

/-- Where the scopes of a kept provider could be opened there was room for its effect. -/
theorem Provider.roomFor_of_enterAll (hp : p.kept? = some w) (h : s.enterAll p.keptScopes = .ok t) :
    s.RoomFor w := by
  intro x e hw
  rcases kept?_eq_some_iff.mp hp with
    ⟨i, y, rfl, rfl⟩ | ⟨i, j, y, f, rfl, rfl⟩ | ⟨i, type, path, rfl, rfl⟩
  · cases hw
  · obtain ⟨_, ht, -⟩ := exists_of_bind_eq_ok ((ScopeStack.enterAll_cons ..).symm.trans h)
    exact (ScopeStack.enter_eq_ok_iff.mp ht).2.1
  · cases hw

theorem ScopeStack.RoomFor.of_blur (h : s.RoomFor v) (hs : s'.blur i = s.blur i) :
    s'.RoomFor v := by
  intro x e hv
  have hlt := h x e hv
  rw [← depth_blur s, ← limit_blur s, ← hs] at hlt
  rwa [depth_blur, limit_blur] at hlt

namespace Machine.Matures

section

variable (h : m.Matures n r.id q w u)

include h

/-- What the finalization comes to is finalized. -/
theorem final_of_closes (hj : r.Closes m j) : n.Final j := by
  rcases hj with ⟨p, hp, hj⟩ | rfl
  · have hpreserves := h.preserves
    rw [hp] at hpreserves
    cases hpreserves with
    | held _ _ hF => exact hF j hj
  · exact h.final

theorem means : m.Means (.value (.property r)) w := by
  have hpreserves := h.preserves
  cases hp : (m.property r.id).effective with
  | none =>
    rw [hp] at hpreserves
    cases hpreserves
    exact .unset hp
  | some p =>
    rw [hp] at hpreserves
    cases hpreserves with
    | held hw _ _ => exact .property hp hw

theorem meansProducer (hr : (m.property r.id).Settled) : m.Means (.producer (.property r))
    ((Producer.ofOption (m.property r.id).attached).plus u) := by
  have hpreserves := h.preserves
  have hfrozen := hr.unfrozen h.unfinalized
  cases hp : (m.property r.id).effective with
  | none =>
    rw [hp] at hpreserves
    cases hpreserves
    rw [Producer.plus_none]
    exact .ofUnset hfrozen hp
  | some p =>
    rw [hp] at hpreserves
    cases hpreserves with
    | held _ ht _ => exact .ofHeld hfrozen hp ht

end

/-- Where the scope of what is kept is not open yet the value is given. -/
theorem exists_enterAll (h : m.Matures n i q w u) (hfree : ∀ o ∈ s.frames, ¬ m.Reserved n o.id)
    (hroom : s.RoomFor w) : ∃ t, s.enterAll q.keptScopes = .ok t := by
  refine h.made.exists_enterAll (fun o ho hid => ?_) hroom
  refine ScopeStack.isOpen_eq_false_iff.mpr fun o' ho' heq => hfree o' ho' ?_
  exact heq ▸ ⟨hid, i, q, h.keeps.effective, o, ho, rfl⟩

end Machine.Matures

/-- What was not finalized on the second machine was not finalized on the first one. -/
theorem Machine.Abreast.property_eq (h : m.Abreast a p b p') (hb : b.property i = m.property i) :
    a.property i = m.property i := by
  refine (h.left.matured.property i).resolve_right fun ⟨q, w, u, ha⟩ => ?_
  have hfinal := h.final i ha.final
  rw [Machine.Final, hb, ha.unfinalized] at hfinal
  cases hfinal

/-- What is kept on the second machine can be read where the first one has room for it. -/
theorem Machine.Abreast.exists_enterAll (h : m.Abreast a (.property r) b (.property r))
    (hb : m.Matures b r.id q w u) (ht : a.stack.enter (Provider.property r).owner = .ok t)
    (hroom : t.RoomFor w) :
    ∃ s, b.stack.enterAll ((Provider.property r).owner :: q.keptScopes) = .ok s := by
  obtain ⟨t', ht', hs⟩ := h.enter ht
  rw [ScopeStack.enterAll_cons, ht']
  exact hb.exists_enterAll (h.right.free_of_enter ht') (hroom.of_blur hs)

/-! ### Reading a property -/

/-- The value of a property, once it was finalized if it had to be. -/
def readHeld (r : PropertyRef) (c : Reading) : Option Provider → Attempt Outcome
  | some q => within (Provider.property r).owner (Ask.value q c)
  | none => pure (.missing [])

/-- A property that holds something kept gives it where its scopes can be opened. -/
theorem run_readHeld_of_kept? (hq : q.kept? = some w) :
    (readHeld r c (some q)).run.run engine n =
      some ((n.stack.enterAll ((Provider.property r).owner :: q.keptScopes)).map fun _ => w, n) :=
  run_within_of_enters (Provider.run_value_of_kept? hq c)

/-- Read without being finalized first. -/
theorem run_ownValue_property (hmust : (n.property r.id).mustFinalize c = false) :
    (Ask.ownValue (.property r) c).run.run engine n =
      (readHeld r c (n.property r.id).effective).run.run engine n := by
  refine (Ask.run_rule (.ownValue (.property r) c) n).trans ?_
  refine (Eval.run_bind_ok (run_finalizeFor_of_not_mustFinalize hmust) _).trans ?_
  exact Eval.run_property_bind

namespace KeepsUp

variable (h : m.Abreast a (.property r) b (.property r))

include h

/-- Both properties are finalized. -/
theorem readKept (ha : m.Matures a r.id q w u) (hb : m.Matures b r.id q' w' u') :
    KeepsUp m (readHeld r c (a.property r.id).effective) a
      (readHeld r c (b.property r.id).effective) b
      (m.FoundValue c (.property r) a b) := by
  obtain ⟨rfl, -⟩ := ha.preserves.unique hb.preserves
  rw [ha.keeps.effective, hb.keeps.effective]
  intro v a' hrun
  rw [run_readHeld_of_kept? ha.keeps.kept] at hrun
  obtain ⟨hread, rfl⟩ := Prod.mk.inj (Option.some.inj hrun)
  obtain ⟨s, hs, rfl⟩ := map_eq_ok_iff.mp hread
  obtain ⟨t, ht, hs⟩ := exists_of_bind_eq_ok ((ScopeStack.enterAll_cons ..).symm.trans hs)
  obtain ⟨s', hs'⟩ := h.exists_enterAll hb ht (Provider.roomFor_of_enterAll ha.keeps.kept hs)
  refine .inl ⟨w, b, ?_, ⟨?_, ?_⟩, rfl, ha.means, .of_enter ht⟩
  · rw [run_readHeld_of_kept? hb.keeps.kept, hs']
    rfl
  · exact .refl h.left.matured fun _ hj => ha.final_of_closes (PropertyRef.closes_of_closes hj)
  · exact .refl h.right.matured fun _ hj => hb.final_of_closes (PropertyRef.closes_of_closes hj)

/-- A property that held nothing is finalized on the second machine only. There a scope has to be
opened to read it. -/
theorem ownValueUnset (hq : (m.property r.id).effective = none)
    (hmust : (m.property r.id).mustFinalize c = false) (ha : a.property r.id = m.property r.id)
    (hb : m.Matures b r.id q w u) :
    KeepsUp m (Ask.ownValue (.property r) c) a (Ask.ownValue (.property r) c) b
      (m.FoundValue c (.property r) a b) := by
  have hunset {i : Identity} (hi : (Provider.property r).Closes m c i) : False :=
    Bool.eq_false_iff.mp hmust ((Provider.closes_unset_iff hq).mp hi).1
  obtain rfl := hb.means.unique (.unset hq)
  have hrun := run_ownValue_property (h.right.matured.mustFinalize_eq_false hmust)
  rw [hb.keeps.effective, run_readHeld_of_kept? hb.keeps.kept, ScopeStack.enterAll_cons] at hrun
  intro v a' hleft
  rw [run_ownValue_property (ha ▸ hmust), ha, hq] at hleft
  cases hleft
  cases ht : b.stack.enter (Provider.property r).owner with
  | ok t =>
    obtain ⟨s, hs⟩ := hb.exists_enterAll (h.right.free_of_enter ht) fun _ _ hv => nomatch hv
    rw [ht, show (Except.ok t >>= fun t => t.enterAll q.keptScopes) = .ok s from hs] at hrun
    exact .inl ⟨_, b, hrun, h.rest fun _ => hunset, rfl, .unset hq, fun _ _ hv => nomatch hv⟩
  | error f =>
    rw [ht] at hrun
    refine .inr ⟨f, b, hrun, .ownValue (.property r) c, b, Eval.raises_ask.mpr ⟨rfl, rfl⟩, ?_⟩
    refine ⟨r, c, b, .self, hq, ?_, hb.final, ht⟩
    exact Bool.eq_false_iff.mp hb.unfinalized

end KeepsUp

/-! ### Finalizing a property -/

/-- On the way from `a` to `n` it was computed what a property that held `held` would keep. -/
structure Machine.Computed (m a n : Machine) (held : Option Provider) (f : Provider × Producer) :
    Prop where
  reads : m.Reads (fun j => ∃ q, held = some q ∧ q.Closes m .strict j) a n
  minted : f.1.Minted n.supply
  preserves : ∃ w, f.1.MadeFor a.supply w ∧ m.Preserves n.Final held w f.2

namespace Machine.Computed

theorem unset (h : m.Matured a) (type : PayloadType) :
    m.Computed a { a with supply := a.supply + 1 } none (.undefined a.supply type [], .none) where
  reads := .evolves h (.fresh a) rfl fun _ hj => nomatch hj
  minted := Nat.lt_succ_self _
  preserves := ⟨.missing [], ⟨rfl, .inl rfl⟩, .unset⟩

/-- What the provider is that is made for the value. -/
theorem held (hr : m.Reads (q.Closes m .strict) a n) (hw : q.Has m w)
    (hu : m.Means (.producer q) u) (type : PayloadType) :
    ∃ p o, ((Classification.ofValue w).toProvider type).run engine n = some (p, o) ∧
      m.Computed a o (some q) (p, u) := by
  obtain ⟨p, o, hrun, ho, hs, hp, hminted⟩ := Classification.run_toProvider_ofValue w type n
  have hreads := hr.then_evolves ho hs
  refine ⟨p, o, hrun, hreads.congr fun j => ?_, hminted, w, hp.mono hr.supply_le, ?_⟩
  · exact ⟨fun hj => ⟨q, rfl, hj⟩, fun ⟨q', hq', hj⟩ => Option.some.inj hq' ▸ hj⟩
  · exact .held hw hu fun j hj => (hreads.final_iff j).mpr (.inr hj)

/-- To commit what was computed finalizes the property and what was read for it. -/
theorem commit {f : Provider × Producer} (h : m.Computed a n (m.property r.id).effective f)
    (hr : (m.property r.id).finalized = false) (ha : m.supply ≤ a.supply) :
    m.Reads (r.Closes m) a (n.setProperty r.id ((n.property r.id).commit f.1 f.2)) := by
  obtain ⟨w, hmade, hpreserves⟩ := h.preserves
  exact h.reads.commit hr ha hmade h.minted hpreserves

end Machine.Computed

section Rules

variable (ih : ∀ {a p b p'}, a.stack.room < k → m.Abreast a p b p' →
    (p.blur m.supply).Twin R (p.blur m.supply) → m.Answers a p b p')
  (hm : m.Minted) (hg : m.Twin R m) (hr : R.property r.id)

include ih hm hg hr

/-- What is asked of the held provider inside the scope of the property is found. -/
theorem Machine.Abreast.answersHeld (h : m.Abreast a (.property r) b (.property r))
    (hk : a.stack.room ≤ k) (hq : (m.property r.id).effective = some q) :
    m.AnswersInside a (.property r) b (.property r) q q := by
  intro t t' ht ht' hs
  have hold := hm.effective r.id q hq
  refine ih (Nat.lt_of_lt_of_le (ScopeStack.room_lt_of_enter ht) hk) (h.held ht ht' hs hm hold) ?_
  have htwin := hg.effective r.id hr
  rw [hq] at htwin
  rw [hold.blur_eq]
  cases htwin with
  | some htwin => exact htwin

namespace KeepsUp

/-- What the property would keep is computed alike on both machines. -/
theorem computes (h : m.Abreast a (.property r) b (.property r)) (hk : a.stack.room ≤ k) :
    KeepsUp m (computeFrozen r (m.property r.id).effective) a
      (computeFrozen r (m.property r.id).effective) b fun a' b' f f' =>
        m.Computed a a' (m.property r.id).effective f ∧
          m.Computed b b' (m.property r.id).effective f' := by
  cases hq : (m.property r.id).effective with
  | none =>
    exact .of_runs rfl rfl ⟨.unset h.left.matured r.type, .unset h.right.matured r.type⟩
  | some q =>
    have hblur := (hm.effective r.id q hq).blur_eq
    refine .bind (.partProducer h (h.answersHeld ih hm hg hr hk hq)) fun a₁ b₁ u u' hu => ?_
    obtain rfl := hu.eq
    have h₁ := h.later hu.toBoth
    have hk₁ : a₁.stack.room ≤ k := by rwa [hu.left.stack_eq]
    refine .bind (.partValue h₁ (h₁.answersHeld ih hm hg hr hk₁ hq) .strict) fun a₂ b₂ w w' hw => ?_
    obtain ⟨-, hw⟩ := hw
    obtain rfl := hw.eq
    have hboth : m.Both (q.Closes m .strict) a b a₂ b₂ := by
      rw [← hblur]
      exact (hu.toBoth.trans hw.toBoth).congr fun _ => or_iff_right id
    have hmeans := hu.holds
    have hhas := hw.holds
    rw [hblur] at hmeans hhas
    obtain ⟨p, a₃, hrun, hp⟩ := Machine.Computed.held hboth.left hhas hmeans r.type
    obtain ⟨p', b₃, hrun', hp'⟩ := Machine.Computed.held hboth.right hhas hmeans r.type
    exact .lift_bind hrun hrun' (.pure ⟨hp, hp'⟩)

/-- Neither property is finalized. -/
theorem finalizeOpen (h : m.Abreast a (.property r) b (.property r)) (hk : a.stack.room ≤ k)
    (hopen : (m.property r.id).finalized = false) (ha : a.property r.id = m.property r.id)
    (hb : b.property r.id = m.property r.id) :
    KeepsUp m (Ask.finalize r) a (Ask.finalize r) b fun a' b' _ _ =>
      m.Both (r.Closes m) a b a' b' := by
  refine .finalize (.property_bind ?_)
  rw [ha, hb, hopen]
  refine .bind (.computes ih hm hg hr h hk) fun a₁ b₁ f f' hf => ?_
  exact .of_runs rfl rfl ⟨hf.1.commit hopen h.left.matured.supply_le,
    hf.2.commit hopen h.right.matured.supply_le⟩

end KeepsUp

end Rules

namespace KeepsUp

/-- It is enough to look at properties that are not finalized, where a finalized one is left as it
is. -/
theorem of_open {x : Attempt Unit} (h : m.Abreast a (.property r) b (.property r))
    (hdone : ∀ n : Machine, n.Final r.id → x.run.run engine n = some (.ok (), n))
    (hx : ∀ {b}, m.Abreast a (.property r) b (.property r) → a.property r.id = m.property r.id →
      b.property r.id = m.property r.id → KeepsUp m x a x b fun a' b' _ _ =>
        m.Both (r.Closes m) a b a' b') :
    KeepsUp m x a x b fun a' b' _ _ => m.Both (r.Closes m) a b a' b' := by
  rcases h.right.matured.property r.id with hb | ⟨q', w', u', hb⟩
  · exact hx h (h.property_eq hb) hb
  · have hclosed : m.Reads (r.Closes m) b b := .refl h.right.matured fun _ => hb.final_of_closes
    rcases h.left.matured.property r.id with ha | ⟨q, w, u, ha⟩
    · exact (hx (.self h.left) ha ha).of_right (hdone b hb.final)
        fun a' _ hboth => ⟨hboth.left, hclosed⟩
    · refine .of_runs (hdone a ha.final) (hdone b hb.final) ⟨?_, hclosed⟩
      exact .refl h.left.matured fun _ => ha.final_of_closes

end KeepsUp

section Rules

variable (ih : ∀ {a p b p'}, a.stack.room < k → m.Abreast a p b p' →
    (p.blur m.supply).Twin R (p.blur m.supply) → m.Answers a p b p')
  (hm : m.Minted) (hg : m.Twin R m) (hr : R.property r.id)
  (h : m.Abreast a (.property r) b (.property r)) (hk : a.stack.room ≤ k)

include ih hm hg hr h hk

namespace KeepsUp

/-- The property is finalized on both machines. -/
theorem finalizes (hopen : (m.property r.id).finalized = false) :
    KeepsUp m (Ask.finalize r) a (Ask.finalize r) b fun a' b' _ _ =>
      m.Both (r.Closes m) a b a' b' := by
  refine .of_open h (fun n hn => ?_) fun h ha hb => .finalizeOpen ih hm hg hr h hk hopen ha hb
  exact (Eval.run_ask engine n (.finalize r)).trans (run_evalFinalize_of_finalized hn)

/-- A strict reading finalizes the property on both machines. -/
theorem finalizesFor (hmust : (m.property r.id).mustFinalize .strict = true) :
    KeepsUp m (finalizeFor r .strict) a (finalizeFor r .strict) b fun a' b' _ _ =>
      m.Both ((Provider.property r).Closes m .strict) a b a' b' := by
  have hopen := (Property.mustFinalize_eq_true_iff.mp hmust).2.2
  refine (KeepsUp.of_open h (fun n hn => ?_) fun h ha hb => ?_).imp fun _ _ _ _ hboth =>
    hboth.congr fun _ => (PropertyRef.closes_iff hmust).symm
  · refine run_finalizeFor_of_not_mustFinalize (Bool.eq_false_iff.mpr fun hn' => ?_)
    exact Bool.eq_false_iff.mp (Property.mustFinalize_eq_true_iff.mp hn').2.2 hn
  · refine .property_bind ?_
    rw [ha, hb, hmust]
    exact .finalizeOpen ih hm hg hr h hk hopen ha hb

/-- A property that is finalized on the second machine only. What is found on the first one is kept
there. -/
theorem readAhead (hmust : (m.property r.id).mustFinalize c = false)
    (hq : (m.property r.id).effective = some q) (hb : m.Matures b r.id q' w u) :
    KeepsUp m (readHeld r c (some q)) a (readHeld r c (b.property r.id).effective) b
      (m.FoundValue c (.property r) a b) := by
  have hself := Machine.Abreast.self h.left
  intro v a' hrun
  have hv := (KeepsUp.partValue hself (hself.answersHeld ih hm hg hr hk hq) c).of_self hrun
  rw [(hm.effective r.id q hq).blur_eq] at hv
  obtain ⟨⟨t, ht, hroom⟩, hv⟩ := hv
  obtain rfl := hb.means.unique (.property hq hv.holds)
  obtain ⟨s, hs⟩ := h.exists_enterAll hb ht hroom
  refine .inl ⟨w, b, ?_, ⟨hv.left.congr fun _ => ?_, ?_⟩, rfl, hb.means, .of_enter ht⟩
  · rw [hb.keeps.effective, run_readHeld_of_kept? hb.keeps.kept, hs]
    rfl
  · exact (Provider.closes_property_iff_of_unmarked hmust hq).symm
  · exact .refl h.right.matured fun _ hj => hb.final_of_closes (PropertyRef.closes_of_closes hj)

/-- A property that is as it was on both machines. -/
theorem readSame (hmust : (m.property r.id).mustFinalize c = false) :
    KeepsUp m (readHeld r c (m.property r.id).effective) a
      (readHeld r c (m.property r.id).effective) b
      (m.FoundValue c (.property r) a b) := by
  cases hq : (m.property r.id).effective with
  | none =>
    have hunset (i : Identity) (hi : (Provider.property r).Closes m c i) : False :=
      Bool.eq_false_iff.mp hmust ((Provider.closes_unset_iff hq).mp hi).1
    exact .pure ⟨h.rest hunset, rfl, .unset hq, fun _ _ hv => nomatch hv⟩
  | some q =>
    have inside := h.answersHeld ih hm hg hr hk hq
    refine (KeepsUp.partValue h inside c).imp fun a' b' v v' hv => ?_
    rw [(hm.effective r.id q hq).blur_eq] at hv
    obtain ⟨⟨t, ht, -⟩, hv⟩ := hv
    refine ⟨hv.toBoth.congr fun _ => ?_, hv.eq, .property hq hv.holds, .of_enter ht⟩
    exact (Provider.closes_property_iff_of_unmarked hmust hq).symm

end KeepsUp

namespace Machine.Answers

/-- A strict reading that had to finalize the property at first. -/
theorem propertyMarked (hmust : (m.property r.id).mustFinalize .strict = true) :
    KeepsUp m (Ask.ownValue (.property r) .strict) a (Ask.ownValue (.property r) .strict) b
      (m.FoundValue .strict (.property r) a b) := by
  have hopen := (Property.mustFinalize_eq_true_iff.mp hmust).2.2
  refine .ownValue (.bind (.finalizesFor ih hm hg hr h hk hmust) fun a₁ b₁ _ _ hboth => ?_)
  have h₁ := h.later hboth
  have hself : (Provider.property r).Closes m .strict r.id := ⟨hmust, .self rfl⟩
  obtain ⟨q, w, u, ha⟩ := h₁.left.matured.matures hopen
    ((hboth.left.final_iff r.id).mpr (.inr hself))
  obtain ⟨q', w', u', hb⟩ := h₁.right.matured.matures hopen
    ((hboth.right.final_iff r.id).mpr (.inr hself))
  refine .property_bind ((KeepsUp.readKept h₁ ha hb).imp fun a₂ b₂ v v' hv => ?_)
  obtain ⟨hmeans, hroom⟩ := hv.holds
  rw [hboth.left.stack_eq] at hroom
  exact ⟨(hboth.trans hv.toBoth).congr fun _ => or_self_iff, hv.eq, hmeans, hroom⟩

/-- A property that the reading does not finalize. -/
theorem propertyUnmarked (hmust : (m.property r.id).mustFinalize c = false) :
    KeepsUp m (Ask.ownValue (.property r) c) a (Ask.ownValue (.property r) c) b
      (m.FoundValue c (.property r) a b) := by
  have hfor {n : Machine} (hn : m.Matured n) :
      (finalizeFor r c).run.run engine n = some (.ok (), n) :=
    run_finalizeFor_of_not_mustFinalize (hn.mustFinalize_eq_false hmust)
  have reads {P : Machine → Machine → Outcome → Outcome → Prop}
      (hread : KeepsUp m (readHeld r c (a.property r.id).effective) a
        (readHeld r c (b.property r.id).effective) b P) :
      KeepsUp m (Ask.ownValue (.property r) c) a (Ask.ownValue (.property r) c) b P := by
    refine .ownValue (.bind (P := fun a' b' _ _ => a' = a ∧ b' = b)
      (.of_runs (hfor h.left.matured) (hfor h.right.matured) ⟨rfl, rfl⟩) ?_)
    rintro _ _ _ _ ⟨rfl, rfl⟩
    exact .property_bind hread
  rcases h.right.matured.property r.id with hb | ⟨q', w', u', hb⟩
  · refine reads ?_
    rw [h.property_eq hb, hb]
    exact .readSame ih hm hg hr h hk hmust
  · rcases h.left.matured.property r.id with ha | ⟨q, w, u, ha⟩
    · cases hq : (m.property r.id).effective with
      | none => exact .ownValueUnset h hq hmust ha hb
      | some q =>
        refine reads ?_
        rw [ha, hq]
        exact .readAhead ih hm hg hr h hk hmust hq hb
    · exact reads (.readKept h ha hb)

/-- The producers of a property are found on both machines. -/
theorem propertyProducer (hsettled : (m.property r.id).Settled) :
    KeepsUp m (evalProducer (.property r)) a (evalProducer (.property r)) b
      (m.FoundProducer (.property r) a b) := by
  have held {b : Machine} {q : Provider} (h : m.Abreast a (.property r) b (.property r))
      (hu : (m.property r.id).frozenProducer = none)
      (hq : (m.property r.id).effective = some q) :
      let producer : Attempt Producer := do
        return (Producer.ofOption (m.property r.id).attached).plus
          (← within (Provider.property r).owner (Ask.producer q))
      KeepsUp m producer a producer b
        (m.FoundProducer (.property r) a b) := by
    refine .bind (.partProducer h (h.answersHeld ih hm hg hr hk hq)) fun a' b' t t' ht => ?_
    rw [(hm.effective r.id q hq).blur_eq] at ht
    exact .pure ⟨ht.toBoth, by rw [ht.eq], .ofHeld hu hq ht.holds⟩
  have hrest : m.Both (fun _ => False) a b a b := h.rest fun _ => id
  refine .property_bind ?_
  rcases h.right.matured.property r.id with hb | ⟨q', w', u', hb⟩
  · rw [h.property_eq hb, hb]
    cases hu : (m.property r.id).frozenProducer with
    | some u => exact .pure ⟨hrest, rfl, .ofFrozen hu⟩
    | none =>
      cases hq : (m.property r.id).effective with
      | none => exact .pure ⟨hrest, rfl, .ofUnset hu hq⟩
      | some q =>
        exact held h hu hq
  · have hmeans := hb.meansProducer hsettled
    rw [hb.frozenProducer, hb.attached]
    rcases h.left.matured.property r.id with ha | ⟨q, w, u, ha⟩
    · have hu := hsettled.unfrozen hb.unfinalized
      rw [ha, hu]
      cases hq : (m.property r.id).effective with
      | none => exact .pure ⟨hrest, hmeans.unique (.ofUnset hu hq), .ofUnset hu hq⟩
      | some q =>
        exact (held (.self h.left) hu hq).of_right rfl fun a' t ht =>
          ⟨⟨ht.left, hrest.right⟩, hmeans.unique ht.holds, ht.holds⟩
    · obtain ⟨rfl, rfl⟩ := ha.preserves.unique hb.preserves
      rw [ha.frozenProducer, ha.attached]
      exact .pure ⟨hrest, rfl, hmeans⟩

theorem property (hsettled : (m.property r.id).Settled) :
    m.Answers a (.property r) b (.property r) := by
  refine of_own h (fun c => ?_) (propertyProducer ih hm hg hr h hk hsettled).producer
  cases hmust : (m.property r.id).mustFinalize c with
  | true =>
    obtain rfl := (Property.mustFinalize_eq_true_iff.mp hmust).1
    exact propertyMarked ih hm hg hr h hk hmust
  | false => exact propertyUnmarked ih hm hg hr h hk hmust

end Machine.Answers

end Rules

end ProviderGraph
