import ProviderGraph.Proofs.Property.Permanence

/-!
# Updates of properties

An update that is accepted while no finalization of the property is going on takes effect: the
property reads from the provider it was given until the next update, and when it is finalized
meanwhile, the value that is kept was computed from that provider (`accepted_update_takes_effect`).
A finalization that is going on has read the provider before, and commits over the update
(`update_during_finalization_is_lost`).
-/

namespace ProviderGraph

open Relation (ReflTransGen)

variable {i : Identity} {q : Provider}

namespace Stage

variable {s₁ s t : Stage}

/-- The stage has an update of a property accepted: the property is to read from `v`. -/
inductive Puts (i : Identity) (v : Option Provider) : Stage → Prop where
  | mk {α : Type} {next : Eval α} {k : Pending α} {m : Machine}
    (hopen : (m.property i).finalized = false)
    (hallowed : (m.property i).changesDisallowed = false) :
    Puts i v ⟨.change (.setProperty i { m.property i with value := v }) next, k, m⟩

/-- An update that no lock refuses is accepted. -/
theorem Sets.puts {v : Option Provider} {x : Property} (h : s.Sets i x)
    (hopen : (s.machine.property i).finalized = false)
    (hallowed : (s.machine.property i).changesDisallowed = false)
    (hx : x = { s.machine.property i with value := v }) : s.Puts i v := by
  cases h with
  | @mk _ next k m =>
    obtain rfl : x = { m.property i with value := v } := hx
    exact .mk hopen hallowed

/-- The stage where user code updates a property. It goes on with the result. -/
def update {α : Type} (r : PropertyRef) (v : Option Provider) (next : Except Fault Unit → Eval α)
    (k : Pending α) (m : Machine) : Stage :=
  ⟨(changeProperty r fun s => { s with value := v }).run >>= next, k, m⟩

/-- A part of a session in which a property is not updated, unless to the same provider again. -/
def Without (i : Identity) (q : Provider) : Stage → Stage → Prop :=
  ReflTransGen fun s t => s.Moves t ∧ ∀ v, s.Puts i v → v = some q

/-- Between the stages `s` and `t` a strict reading of the provider gives the value. -/
def Computes (q : Provider) (v : Outcome) (s t : Stage) : Prop :=
  ∃ u, s.Course u ∧ u.Course t ∧ u.Answers (.ownValue q .strict) (.ok v)

/-- At the stage `t` the property reads from the provider, or it keeps a value that was computed
from the provider after the stage `s`. -/
def Reflects (i : Identity) (q : Provider) (s t : Stage) : Prop :=
  ((t.machine.property i).finalized = false ∧ (t.machine.property i).value = some q) ∨
    ∃ p v, (t.machine.property i).Keeps p (v.push q.declaredName) ∧ Computes q v s t

/-- To go without updates is to take a course. -/
theorem Without.course (h : Without i q s t) : s.Course t :=
  ReflTransGen.mono (fun _ _ h => h.1) _ _ h

/-- What a finalization of the property `i` keeps was computed from `q` between two stages. -/
def Computed (i : Identity) (q : Provider) (s t : Stage) (j : Identity) (w : Outcome) : Prop :=
  j = i → ∃ v, Computes q v s t ∧ w = v.push q.declaredName

/-- The answers that are given between two stages. -/
def Given (s t : Stage) : Trust := fun q a => ∃ u, s.Course u ∧ u.Course t ∧ u.Answers q a

/-- From the stage `s₁` to `t` the property `i` reflects the provider, and will reflect it at `s`:
until then only values that were computed from the provider are kept in it. -/
structure Holds (i : Identity) (q : Provider) (s₁ s t : Stage) : Prop where
  abides : t.Abides (License (Computed i q s₁ s)) (Given s₁ s)
  state : ((t.machine.property i).finalized = false ∧ (t.machine.property i).value = some q) ∨
    ∃ p w, (t.machine.property i).Keeps p w ∧ Computed i q s₁ s i w

/-- While no finalization of the property is going on, an update establishes this. -/
theorem Holds.start (hs : s₁.Licensed)
    (hidle : ∀ r : PropertyRef, r.id = i → .finalize r ∉ s₁.pending.questions)
    (hopen : (s₁.machine.property i).finalized = false)
    (hvalue : (s₁.machine.property i).value = some q) : Holds i q s₁ s s₁ where
  abides := by
    refine hs.imp (fun own hown j x y hlaw => ?_) fun _ _ _ => trivial
    refine hlaw.imp_right ?_
    rintro ⟨r, rfl, rfl, frozen, t, w, -, hw, hy⟩
    refine ⟨r, rfl, rfl, frozen, t, w, fun hr => ?_, hw, hy⟩
    exact absurd (hown _ rfl) (hidle r hr)
  state := .inl ⟨hopen, hvalue⟩

/-- The rule of each question keeps to it: a finalization of the property reads from `q`. -/
theorem Holds.rule_abides (h : Holds i q s₁ s t) (q' : Query) :
    (rule q').Abides (License (Computed i q s₁ s) (some q')) (Given s₁ s) t.machine.property
      fun _ _ => True := by
  by_cases hq : ∃ r, q' = .finalize r
  · obtain ⟨r, rfl⟩ := hq
    have heff (hr : r.id = i) (hopen : (t.machine.property r.id).finalized = false) :
        (t.machine.property r.id).effective = some q := by
      rcases h.state with ⟨-, hvalue⟩ | ⟨p, w, hk, -⟩
      · rw [hr, Property.effective, hvalue]
        rfl
      · rw [hr, hk.finalized] at hopen
        cases hopen
    refine evalFinalize_abides r (fun hopen hnone hr => ?_) (fun q' v hopen hq' hv hr => ?_)
    · rw [heff hr hopen] at hnone
      cases hnone
    · obtain rfl := Option.some.inj ((heff hr hopen).symm.trans hq')
      exact ⟨v, hv, rfl⟩
  · exact (rule_tame q' fun r hr => hq ⟨r, hr⟩).abides (fun _ _ _ h => .inl h) _ _

/-- A change of the property keeps to it, unless the property is updated. -/
theorem Holds.sets {x : Property} (h : Holds i q s₁ s t) (hput : ∀ v, t.Puts i v → v = some q)
    (hset : t.Sets i x) :
    (x.finalized = false ∧ x.value = some q) ∨
      ∃ p w, x.Keeps p w ∧ Computed i q s₁ s i w := by
  have hlaw := h.abides.lawful hset
  rcases h.state with ⟨hopen, hvalue⟩ | ⟨p, w, hk, hw⟩
  · rcases hlaw with hturn | ⟨r, -, hr, frozen, b, w, hE, hw, rfl⟩
    · cases hturn with
      | put v hf hd =>
        left
        exact ⟨hopen, hput v (hset.puts hf hd rfl)⟩
      | convention | attach | markFinalizeOnRead | disallowChanges =>
        left
        exact ⟨hopen, hvalue⟩
    · right
      exact ⟨frozen, w, Property.keeps_commit hopen hw, hE⟩
  · right
    refine ⟨p, w, Property.Shifts.keeps ?_ hk, hw⟩
    rcases hlaw with hturn | ⟨r, -, hr, frozen, b, w, hE, hw, rfl⟩
    · exact .inl hturn
    · exact .inr ⟨frozen, b, w, trivial, hw, rfl⟩

/-- No step breaks it, unless the property is updated. -/
theorem Holds.moves {u : Stage} (h : Holds i q s₁ s t) (hmove : t.Moves u)
    (hput : ∀ v, t.Puts i v → v = some q) (hst : s₁.Course t) (hts : t.Course s) :
    Holds i q s₁ s u := by
  cases hmove with
  | next r m step => exact ⟨fun _ _ _ => trivial, h.state⟩
  | advance hadv =>
    have habides := h.abides.advance hadv (fun q' _ => h.rule_abides q')
      fun q' a ha => ⟨t, hst, hts, ha⟩
    refine ⟨habides, ?_⟩
    rcases hadv.property i with heq | hset
    · rw [heq]
      exact h.state
    · exact h.sets hput hset

/-- What holds of the start holds for as long as the property is not updated. -/
theorem Holds.course (h : Holds i q s₁ s s₁) (hs : Without i q s₁ s) : Holds i q s₁ s s := by
  have hall : ∀ t, Without i q s₁ t → t.Course s → Holds i q s₁ s t := by
    intro t ht
    induction ht with
    | refl => exact fun _ => h
    | tail ht hstep ih =>
      intro hts
      have hrest := ReflTransGen.head hstep.1 hts
      exact (ih hrest).moves hstep.1 hstep.2 (Without.course ht) hrest
  exact hall s hs .refl

/-- A property that holds the provider reflects it. -/
theorem Holds.reflects (h : Holds i q s₁ s s) : Reflects i q s₁ s := by
  rcases h.state with hopen | ⟨p, w, hk, hw⟩
  · exact .inl hopen
  · obtain ⟨v, hv, rfl⟩ := hw rfl
    exact .inr ⟨p, v, hk, hv⟩

end Stage

open Stage

/-- User code that updates a property has the update accepted, unless the property is locked. -/
theorem Stage.advances_update {α : Type} (r : PropertyRef) (v : Option Provider)
    (next : Except Fault Unit → Eval α) (k : Pending α) (m : Machine) :
    if (m.property r.id).finalized then
      (update r v next k m).Advances ⟨next (.error (.finalized r.label)), k, m⟩
    else if (m.property r.id).changesDisallowed then
      (update r v next k m).Advances ⟨next (.error (.changesDisallowed r.label)), k, m⟩
    else ∃ s, (update r v next k m).Advances s ∧ s.Puts r.id v ∧
      s.Advances ⟨next (.ok ()), k, m.setProperty r.id { m.property r.id with value := v }⟩ := by
  have looks {f : Property → Attempt Unit} : Stage.Advances
      ⟨((liftM (Eval.property r.id) : Attempt Property) >>= f).run >>= next, k, m⟩
      ⟨(f (m.property r.id)).run >>= next, k, m⟩ := rfl
  have hlook : (update r v next k m).Advances _ := looks
  split
  · next hf =>
    rw [Property.change, if_pos hf] at hlook
    exact hlook
  · next hf =>
    split
    · next hd =>
      rw [Property.change, if_neg hf, if_pos hd] at hlook
      exact hlook
    · next hd =>
      rw [Property.change, if_neg hf, if_neg hd] at hlook
      exact ⟨_, hlook, .mk (Bool.eq_false_iff.mpr hf) (Bool.eq_false_iff.mpr hd), rfl⟩

/-- An update that is accepted while the property is not being finalized takes effect: until the
property is updated again, it reads from the provider it was given, or it keeps a value that was
computed from this provider. All other updates are refused. -/
theorem accepted_update_takes_effect {s₀ s₁ s : Stage} {r : PropertyRef} {q : Provider}
    (hs : s₀.Reached) (hput : s₀.Puts r.id (some q)) (hmove : s₀.Moves s₁)
    (hidle : ∀ r' : PropertyRef, r'.id = r.id → .finalize r' ∉ s₁.pending.questions)
    (hcourse : Without r.id q s₁ s) :
    Reflects r.id q s₁ s ∧
      ∀ {α : Type} (v : Option Provider) (next : Except Fault Unit → Eval α) (k : Pending α)
        (m : Machine),
        if (m.property r.id).finalized then
          (update r v next k m).Advances ⟨next (.error (.finalized r.label)), k, m⟩
        else if (m.property r.id).changesDisallowed then
          (update r v next k m).Advances ⟨next (.error (.changesDisallowed r.label)), k, m⟩
        else ∃ s, (update r v next k m).Advances s ∧ s.Puts r.id v ∧
          s.Advances ⟨next (.ok ()), k,
            m.setProperty r.id { m.property r.id with value := v }⟩ := by
  refine ⟨?_, fun v next k m => advances_update r v next k m⟩
  have hreached : s₁.Reached := hs.course (.single hmove)
  have hholds : Holds r.id q s₁ s s₁ := by
    cases hput with
    | @mk _ next k m hopen hallowed =>
      cases hmove with
      | advance hadv =>
        cases hadv
        refine .start hreached.licensed hidle ?_ ?_
        · simp [Machine.after, hopen]
        · simp [Machine.after]
  exact (hholds.course hcourse).reflects

/-! ### Fixed sessions -/

namespace Stage

/-- The state that a stage gives a property, if it does. -/
def sets? (s : Stage) (i : Identity) : Option Property :=
  match s.code with
  | .change (.setProperty j x) _ => if j = i then some x else none
  | _ => none

/-- A stage that finalizes the property updates it by no user code. -/
theorem not_puts_of_sets? {s : Stage} {v : Option Provider}
    (h : (s.sets? i).all (·.finalized) = true) : ¬ s.Puts i v := by
  intro hput
  cases hput with
  | mk hopen hallowed => simp [sets?, hopen] at h

/-- The property is not updated in a number of steps, if each of them gives it no state but a
finalized one. -/
theorem without_of_advanceBy {s t : Stage} (n : Nat) (h : s.advanceBy n = some t)
    (hset : ∀ k < n, ((s.advanceBy k).bind (·.sets? i)).all (·.finalized) = true) :
    Without i q s t := by
  induction n generalizing s with
  | zero =>
    obtain rfl := Option.some.inj h
    exact .refl
  | succ n ih =>
    obtain ⟨u, hu, h⟩ := Option.bind_eq_some_iff.mp h
    have hfirst := hset 0 (Nat.succ_pos n)
    have hrest : ∀ k < n, ((u.advanceBy k).bind (·.sets? i)).all (·.finalized) = true := by
      intro k hk
      have hlater := hset (k + 1) (Nat.succ_lt_succ hk)
      rw [advanceBy, hu] at hlater
      exact hlater
    exact .head ⟨.advance hu, fun v hput => absurd hput (not_puts_of_sets? hfirst)⟩ (ih h hrest)

end Stage

def declaredMachine : Machine :=
  (Session.played 9 [.newProperty "p" .int none] (.fresh 8)).getD (.fresh 8)

/-- The stage where this property is about to be set and finalized. -/
def settingStage : Stage :=
  ⟨.ask (.step (.iterate 1 [.setProvider "p" countingLeaf, .property "p" .finalize])) .done, .nil,
    declaredMachine⟩

/-- The property keeps a value of the leaf that it was set to before. -/
theorem accepted_update_takes_effect_settingStage :
    ∃ (s₀ s₁ s : Stage) (q : Provider), s₀.Reached ∧ s₀.Puts 0 (some q) ∧ s₀.Moves s₁ ∧
      (∀ r : PropertyRef, r.id = 0 → .finalize r ∉ s₁.pending.questions) ∧ Without 0 q s₁ s ∧
      (s.machine.property 0).finalized = true ∧ Reflects 0 q s₁ s := by
  have hreached : declaredMachine.Reached :=
    (Machine.Reached.fresh 8).played 9 [.newProperty "p" .int none] rfl
  have hposed : settingStage.Reached := hreached.pose _
  have hrun : ∃ s₀ s₁ s q a b, settingStage.advanceBy 8 = some s₀ ∧ s₀.Puts 0 (some q) ∧
      s₀.Advances s₁ ∧ s₁.pending.questions = [.step a, .step b] ∧ s₁.advanceBy 23 = some s ∧
      (∀ k < 23, ((s₁.advanceBy k).bind (·.sets? 0)).all (·.finalized) = true) ∧
      (s.machine.property 0).finalized = true :=
    ⟨_, _, _, _, _, _, rfl, .mk rfl rfl, rfl, rfl, rfl, by decide, rfl⟩
  obtain ⟨s₀, s₁, s, q, a, b, h₀, hput, h₁, hpending, h, hset, hfinal⟩ := hrun
  have hs₀ := hposed.course (course_of_advanceBy 8 h₀)
  have hidle : ∀ r : PropertyRef, r.id = 0 → .finalize r ∉ s₁.pending.questions := by
    intro r _
    simp [hpending]
  have hcourse : Without 0 q s₁ s := without_of_advanceBy 23 h hset
  exact ⟨s₀, s₁, s, q, hs₀, hput, .advance h₁, hidle, hcourse, hfinal,
    (accepted_update_takes_effect (r := ⟨0, .int, none⟩) hs₀ hput (.advance h₁) hidle hcourse).1⟩

/-- A session that sets a property to a map whose transform sets the property. -/
def overwritingSession : List Step :=
  [.newProperty "p" .int none, .setProvider "p" <|
    .map (.fixed (.int 1)) (.assign "p" (.compute fun _ => .ok (some (.int 5)))) .int]

def overwritingMachine : Machine :=
  (Session.played 9 overwritingSession (.fresh 8)).getD (.fresh 8)

def overwritingStage : Stage :=
  ⟨.ask (.step (.property "p" .finalize)) .done, .nil, overwritingMachine⟩

/-- While the property is being finalized it is set to five, and the update is accepted. No update
follows, and yet the property keeps the one that its provider gave before. -/
theorem update_during_finalization_is_lost :
    ∃ (s₀ s₁ s : Stage) (q p : Provider), s₀.Reached ∧ s₀.Puts 0 (some q) ∧ s₀.Moves s₁ ∧
      Without 0 q s₁ s ∧
      (∀ c m, engine (.ownValue q c) m = some (.ok (.present (.int 5) none), m)) ∧
      (s.machine.property 0).Keeps p (.present (.int 1) none) := by
  have hreached : overwritingMachine.Reached :=
    (Machine.Reached.fresh 8).played 9 overwritingSession rfl
  have hposed : overwritingStage.Reached := hreached.pose _
  have hrun : ∃ s₀ s₁ s i p, overwritingStage.advanceBy 25 = some s₀ ∧
      s₀.Puts 0 (some (.fixed i (.int 5))) ∧ s₀.Advances s₁ ∧ s₁.advanceBy 9 = some s ∧
      (∀ k < 9, ((s₁.advanceBy k).bind (·.sets? 0)).all (·.finalized) = true) ∧
      (s.machine.property 0).Keeps p (.present (.int 1) none) :=
    ⟨_, _, _, _, _, rfl, .mk rfl rfl, rfl, rfl, by decide, rfl, rfl, rfl⟩
  obtain ⟨s₀, s₁, s, i, p, h₀, hput, h₁, h, hset, hkeeps⟩ := hrun
  refine ⟨s₀, s₁, s, .fixed i (.int 5), p, hposed.course (course_of_advanceBy 25 h₀), hput,
    .advance h₁, without_of_advanceBy 9 h hset, fun c m => ?_, hkeeps⟩
  rw [engine_eq_rule]
  rfl

end ProviderGraph
