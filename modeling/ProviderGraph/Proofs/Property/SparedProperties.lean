import ProviderGraph.Proofs.Engine.Trails
import ProviderGraph.Proofs.Property.Permanence

/-!
# Properties that user code leaves alone

Questions to providers change a property in no other way than by finalizing it, and a property that
reads from a provider cannot be finalized while its scope is open. So a property that is being
evaluated stays as it is, as long as user code spares it (`Query.Spares.property_eq`), and a
finalization finds it at the end as it was at the start (`Query.Spares.property_of_computeFrozen`).
-/

namespace ProviderGraph

variable {α : Type} {m n : Machine} {r : PropertyRef} {o : Owner} {q q' : Query} {i : Identity}

/-! ### Evaluations that change no property -/

namespace Eval

/-- The evaluation changes no property by itself. -/
def Inert (x : Eval α) : Prop :=
  ∀ S, x.Abides (fun _ _ _ => False) (fun _ _ => True) S fun _ _ => True

theorem Inert.elementary : Elementary @Inert where
  pure _ := fun _ => trivial
  bind hx hf := by
    intro S
    rw [abides_bind]
    refine (hx S).imp (fun _ _ _ h => h) (fun _ _ h => h) ?_
    intro S a _
    exact hf a S
  ask _ _ := fun _ _ _ _ => trivial
  machine := fun _ _ _ => trivial
  identity := fun _ _ => trivial
  bump _ := fun _ => ⟨trivial, trivial⟩
  note _ := fun _ => ⟨trivial, trivial⟩
  inScope hr hb := fun S => ⟨fun f => hr f S, hb S⟩

/-- All that the evaluation raises it poses on its own thread. -/
def Upfront (x : Eval α) : Prop := ∀ m q n, x.Raises m q n → x.Poses m q n

theorem Upfront.elementary : Elementary @Upfront where
  pure _ := fun _ _ _ h => h
  bind hx hf := by
    intro m q n h
    rcases (raises_bind _ _).mp h with h | ⟨s, hs, h⟩
    · exact (poses_bind _ _).mpr (.inl (hx m q n h))
    · exact (poses_bind _ _).mpr (.inr ⟨s, hs, hf _ _ q n h⟩)
  ask _ _ := fun _ _ _ h => h
  machine := fun _ _ _ h => h
  identity := fun _ _ _ h => h
  bump _ := fun _ _ _ h => h
  note _ := fun _ _ _ h => h
  inScope := by
    intro α o refused body hr hb m q n h
    change (Eval.inScope o body _).Raises m q n at h
    change (Eval.inScope o body _).Poses m q n
    simp only [Raises, Poses] at h ⊢
    cases hs : m.stack.enter o with
    | error f =>
      rw [hs] at h
      exact hr f m q n h
    | ok s =>
      rw [hs] at h
      rcases h with h | ⟨s, -, h⟩
      · exact .inl (hb _ q n h)
      · exact h.elim

end Eval

/-- Without user code and finalizations the rules change no property. -/
theorem rule_inert (hq : ¬ q.RunsCode) (hf : ∀ r, q ≠ .finalize r) : (rule q).Inert := by
  refine Eval.Inert.elementary.rule ?_ ?_ hf
  · cases q <;> first | trivial | exact hq trivial
  · rintro a held x rfl
    exact hq trivial

/-- Without user code the rules pose questions on their own thread only. -/
theorem rule_upfront (hq : ¬ q.RunsCode) : (rule q).Upfront := by
  have parts := Eval.Upfront.elementary
  by_cases hf : ∃ r, q = .finalize r
  · obtain ⟨r, rfl⟩ := hf
    refine parts.bindExcept (parts.lift (parts.property _)) fun s => ?_
    split
    · exact parts.pure _
    · refine parts.bindExcept (parts.computeFrozen r _) fun kept => parts.lift ?_
      exact parts.bind (parts.property _) fun _ _ _ _ h => h
  · refine parts.rule ?_ ?_ fun r hr => hf ⟨r, hr⟩
    · cases q <;> first | trivial | exact hq trivial
    · rintro a held x rfl
      exact hq trivial

/-! ### The parts of a finalization -/

/-- What a finalization asks. -/
theorem raises_finalize_of_open (h : (m.property r.id).finalized = false) :
    (rule (.finalize r)).Raises m q n ↔
      (computeFrozen r (m.property r.id).effective).run.Raises m q n := by
  rw [rule, evalFinalize, Eval.raises_property_bind, if_neg (by simp [h]), Eval.raises_bindExcept]
  constructor
  · rintro (h | ⟨kept, m₁, -, h⟩)
    · exact h
    · exact h.elim
  · exact .inl

/-- A finalization without fault has computed what it commits. -/
theorem run_computeFrozen_of_finalize_ok (hopen : (m.property r.id).finalized = false)
    (hfin : engine (.finalize r) m = some (.ok (), n)) :
    ∃ p t k, (computeFrozen r (m.property r.id).effective).run.run engine m =
        some (.ok (p, t), k) ∧
      n = k.setProperty r.id ((k.property r.id).commit p t) := by
  rw [run_evalFinalize_of_open hopen] at hfin
  obtain ⟨⟨p, t⟩, k, hk, h⟩ := Eval.run_bindExcept_ok hfin
  cases h
  exact ⟨p, t, k, hk, rfl⟩

/-- A finalization that fails found the property not finalized. -/
theorem open_of_finalize_error {f : Fault} (h : engine (.finalize r) m = some (.error f, n)) :
    (m.property r.id).finalized = false := by
  cases hf : (m.property r.id).finalized with
  | false => rfl
  | true => cases (run_evalFinalize_of_finalized hf).symm.trans h

/-- Where it fails it is the computation of the value that does. -/
theorem run_computeFrozen_of_finalize_error {f : Fault}
    (h : engine (.finalize r) m = some (.error f, n)) :
    (computeFrozen r (m.property r.id).effective).run.run engine m = some (.error f, n) := by
  rw [run_evalFinalize_of_open (open_of_finalize_error h), ExceptT.run_bind, Eval.run_bind] at h
  obtain ⟨⟨kept, k⟩, hk, h⟩ := Option.bind_eq_some_iff.mp h
  cases kept with
  | ok kept => cases h
  | error f' =>
    cases h
    exact hk

/-! ### What answers make of properties -/

section Keeping

variable {L : States → States → Prop} (hrefl : ∀ S, L S S)
  (htrans : ∀ {S S' S''}, L S S' → L S' S'' → L S S'')

include hrefl htrans

/-- An evaluation that changes no property by itself makes of the properties what the answers to its
questions make of them. -/
theorem Eval.Inert.keeps {x : Eval α} (hx : x.Inert)
    (hask : ∀ q n, x.Raises m q n → L m.property n.property →
      ∀ s, engine q n = some s → L n.property s.2.property)
    {a : α × Machine} (ha : x.run engine m = some a) : L m.property a.2.property := by
  refine ((hx m.property).run (J := L m.property) (fun _ _ _ _ h => h.elim) (hrefl _) ?_ ha).1
  intro q n hr hn s hs
  exact ⟨htrans hn (hask q n hr hn s hs), trivial⟩

/-- An answer makes of the properties what user code and the commits of finalizations make of them,
as long as the condition `C` holds of all that comes up. -/
theorem engine_keeps {C : Query → Machine → Prop}
    (hraise : ∀ {q m q' n}, C q m → ¬ q.RunsCode → (rule q).Raises m q' n →
      L m.property n.property → C q' n)
    (hcode : ∀ {q m s}, C q m → q.RunsCode → engine q m = some s → L m.property s.2.property)
    (hcommit : ∀ {r m p t k}, C (.finalize r) m → (m.property r.id).finalized = false →
      (computeFrozen r (m.property r.id).effective).run.run engine m = some (.ok (p, t), k) →
      L m.property k.property →
      L m.property (k.setProperty r.id ((k.property r.id).commit p t)).property)
    (hC : C q m) {s : q.Answer × Machine} (hs : engine q m = some s) :
    L m.property s.2.property := by
  refine engine_induction (R := fun q m s => C q m → L m.property s.2.property) ?_ hs hC
  intro q m s hs ih hC
  by_cases hq : q.RunsCode
  · exact hcode hC hq hs
  have answers q' n (hr : (rule q).Raises m q' n) (hn : L m.property n.property) s
      (hs : engine q' n = some s) : L n.property s.2.property :=
    ih q' n hr s hs (hraise hC hq hr hn)
  by_cases hfin : ∃ r, q = .finalize r
  · obtain ⟨r, rfl⟩ := hfin
    obtain ⟨a, n⟩ := s
    cases hf : (m.property r.id).finalized with
    | true =>
      cases (run_evalFinalize_of_finalized hf).symm.trans hs
      exact hrefl _
    | false =>
      have computed {b : Except Fault (Provider × Producer) × Machine}
          (hb : (computeFrozen r (m.property r.id).effective).run.run engine m = some b) :
          L m.property b.2.property :=
        (Eval.Inert.elementary.computeFrozen r _).keeps hrefl htrans
          (fun q' n hr => answers q' n ((raises_finalize_of_open hf).mpr hr)) hb
      cases a with
      | error f => exact computed (run_computeFrozen_of_finalize_error hs)
      | ok _ =>
        obtain ⟨p, t, k, hk, rfl⟩ := run_computeFrozen_of_finalize_ok hf hs
        exact hcommit hC hf hk (computed hk)
  · exact (rule_inert hq fun r hr => hfin ⟨r, hr⟩).keeps hrefl htrans answers
      ((engine_eq_rule q m).symm.trans hs)

end Keeping

/-! ### User code that spares a property -/

/-- Each call of user code that comes up while the question is answered leaves the property as the
call found it. -/
def Query.Spares (q : Query) (m : Machine) (i : Identity) : Prop :=
  ∀ q' n, Brings q m q' n → q'.RunsCode → ∀ s, engine q' n = some s → s.2.property i = n.property i

/-- While its scope is open, nothing is computed for a property that reads from a provider. -/
theorem run_computeFrozen_of_isOpen (h : m.stack.isOpen r.id = true)
    (heff : (m.property r.id).effective.isSome = true) :
    (computeFrozen r (m.property r.id).effective).run.run engine m =
      some (.error (.circular (m.stack.cycleFrom r.id ++ [r.label])), m) := by
  obtain ⟨p, hp⟩ := Option.isSome_iff_exists.mp heff
  rw [hp]
  exact Eval.run_bind_error (run_within_of_isOpen h _) _

namespace Query.Spares

/-- User code spares the property in all that a question comes to. -/
theorem raised (h : q.Spares m i) (hr : (rule q).Raises m q' n) : q'.Spares n i :=
  fun q'' k hb => h q'' k (.raised hr hb)

/-- Where no code runs, no property is touched by code. -/
theorem of_trail (fuel : Nat) {s : q.Answer × Machine} (hs : answer fuel q m = some s)
    (h : ((trailUpTo fuel q m).all fun e => !e.1.runsCode) = true) : q.Spares m i := by
  intro q' n hb hcode
  have hmem := (mem_trail_iff (engine_of_answer hs)).mpr hb
  rw [trail_of_answer hs] at hmem
  have hquiet := List.all_eq_true.mp h _ hmem
  simp [runsCode_iff.mpr hcode] at hquiet

/-- A property that is being evaluated stays as it is. -/
theorem property_eq (h : q.Spares m o.id) (hm : m.Holds [o])
    (heff : (m.property o.id).effective.isSome = true) {s : q.Answer × Machine}
    (hs : engine q m = some s) : s.2.property o.id = m.property o.id := by
  refine engine_keeps (L := fun S S' => S' o.id = S o.id)
    (C := fun q m => q.Spares m o.id ∧ m.Holds [o] ∧ (m.property o.id).effective.isSome = true)
    (fun _ => rfl) (fun h h' => h'.trans h) ?_ ?_ ?_ ⟨h, hm, heff⟩ hs
  · rintro q m q' n ⟨hspares, hm, heff⟩ hcode hr hn
    exact ⟨hspares.raised hr, (rule_upfront hcode m q' n hr).holds hm, hn ▸ heff⟩
  · rintro q m s ⟨hspares, -⟩ hcode hs
    exact hspares q m .self hcode s hs
  · rintro r m p t k ⟨-, hm, heff⟩ - hk hn
    have hne : o.id ≠ r.id := by
      intro hr
      have hopen := ScopeStack.isOpen_of_frameOf? (hm.isOpen o List.mem_cons_self)
      rw [hr] at hopen heff
      cases (run_computeFrozen_of_isOpen hopen heff).symm.trans hk
    exact (k.property_setProperty_of_ne hne _).trans hn

end Query.Spares

/-! ### Finalization -/

/-- It is asked for in the scope of the property. -/
theorem Eval.Raises.of_computeFrozen {held : Option Provider}
    (h : (computeFrozen r held).run.Raises m q n) (hm : m.Holds []) :
    n.Holds [(Provider.property r).owner] := by
  cases held with
  | none => exact h.elim
  | some p =>
    rcases Eval.raises_bindExcept.mp h with h | ⟨t, m₁, hm₁, h⟩
    · obtain ⟨s, hs, h⟩ := Eval.raises_within.mp h
      obtain ⟨-, rfl⟩ := Eval.raises_ask.mp h
      exact hm.enter hs
    · rcases Eval.raises_bindExcept.mp h with h | ⟨v, m₂, -, h⟩
      · obtain ⟨s, hs, h⟩ := Eval.raises_within.mp h
        obtain ⟨-, rfl⟩ := Eval.raises_value.mp h
        exact (Eval.run_holds hm hm₁).enter hs
      · match v with
        | .missing _ | .present _ none | .present _ (some _) => exact h.elim

/-- A finalization that is under way leaves the property as it is, until it commits. -/
theorem Query.Spares.property_of_computeFrozen (h : (Query.finalize r).Spares m r.id)
    (hm : m.Holds []) (hopen : (m.property r.id).finalized = false)
    {s : Except Fault (Provider × Producer) × Machine}
    (hs : (computeFrozen r (m.property r.id).effective).run.run engine m = some s) :
    s.2.property r.id = m.property r.id := by
  cases heff : (m.property r.id).effective with
  | none =>
    rw [heff] at hs
    cases hs
    rfl
  | some p =>
    have habides := Eval.Inert.elementary.computeFrozen r (m.property r.id).effective m.property
    refine (habides.run (J := fun S => S r.id = m.property r.id) (fun _ _ _ _ h => h.elim) rfl ?_
      hs).1
    intro q n hr hn s' hs'
    have hholds : n.Holds [(Provider.property r).owner] := hr.of_computeFrozen hm
    have hspares := h.raised ((raises_finalize_of_open hopen).mpr hr)
    refine ⟨(hspares.property_eq (o := (Provider.property r).owner) hholds ?_ hs').trans hn,
      trivial⟩
    change (n.property r.id).effective.isSome = true
    rw [hn, heff]
    rfl

end ProviderGraph
