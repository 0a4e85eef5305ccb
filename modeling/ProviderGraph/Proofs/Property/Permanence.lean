import ProviderGraph.Proofs.Property.KeptValues

/-!
# Finalization is permanent

While the value of a property is computed for a finalization, user code may do anything, and it may
finalize the property itself. `Machine.Finalizes` lists how a finalization can end. The one that
commits first decides, and what it keeps is all that the property gives from then on.
-/

namespace ProviderGraph

variable {m n : Machine} {r : PropertyRef}

/-- What a finalization would keep has been made for a value. -/
theorem kept?_of_computeFrozen {held : Option Provider} {p : Provider} {t : Producer}
    (h : (computeFrozen r held).run.run engine m = some (.ok (p, t), n)) :
    ∃ w, p.kept? = some w := by
  cases held with
  | none =>
    cases h
    exact ⟨_, rfl⟩
  | some q =>
    obtain ⟨_, _, -, h⟩ := Eval.run_bindExcept_ok h
    obtain ⟨v, m₁, -, h⟩ := Eval.run_bindExcept_ok h
    refine ⟨v, ?_⟩
    match v with
    | .missing _ | .present _ none | .present _ (some _) =>
      cases h
      rfl

/-- How a finalization of a property ends, with its result and the machine then. The value is
computed first. -/
inductive Machine.Finalizes (m : Machine) (r : PropertyRef) : Except Fault Unit → Machine → Prop
  /-- The property keeps a value already. -/
  | already {p : Provider} {w : Outcome} (h : (m.property r.id).Keeps p w) :
    Finalizes m r (.ok ()) m
  /-- The value cannot be computed. Nothing is kept for it. -/
  | fails {f : Fault} {n : Machine} (h : (m.property r.id).finalized = false)
    (hc : (computeFrozen r (m.property r.id).effective).run.run engine m = some (.error f, n)) :
    Finalizes m r (.error f) n
  /-- The value is kept. -/
  | commits {p : Provider} {t : Producer} {w : Outcome} {n : Machine}
    (h : (m.property r.id).finalized = false)
    (hc : (computeFrozen r (m.property r.id).effective).run.run engine m = some (.ok (p, t), n))
    (hn : (n.property r.id).finalized = false) (hk : ((n.property r.id).commit p t).Keeps p w) :
    Finalizes m r (.ok ()) (n.setProperty r.id ((n.property r.id).commit p t))
  /-- Another finalization has committed a value meanwhile, which stays. -/
  | late {p q : Provider} {t : Producer} {w : Outcome} {n : Machine}
    (h : (m.property r.id).finalized = false)
    (hc : (computeFrozen r (m.property r.id).effective).run.run engine m = some (.ok (p, t), n))
    (hk : (n.property r.id).Keeps q w) :
    Finalizes m r (.ok ()) (n.setProperty r.id (n.property r.id))

/-- A property that is not finalized computes what it keeps and commits it. -/
theorem run_evalFinalize_of_open (h : (m.property r.id).finalized = false) :
    engine (.finalize r) m =
      (computeFrozen r (m.property r.id).effective >>= fun k =>
        (updateProperty r.id (·.commit k.1 k.2) : Attempt Unit)).run.run engine m := by
  rw [engine_eq_rule]
  change (if (m.property r.id).finalized then pure () else
    computeFrozen r (m.property r.id).effective >>= fun k =>
        (updateProperty r.id (·.commit k.1 k.2) : Attempt Unit)).run.run engine m = _
  rw [h]
  rfl

/-- A property that is finalized is not finalized again. -/
theorem run_evalFinalize_of_finalized (h : (m.property r.id).finalized = true) :
    engine (.finalize r) m = some (.ok (), m) := by
  rw [engine_eq_rule]
  change (if (m.property r.id).finalized then pure () else
    computeFrozen r (m.property r.id).effective >>= fun k =>
        (updateProperty r.id (·.commit k.1 k.2) : Attempt Unit)).run.run engine m = _
  rw [h]
  rfl

/-- A change is refused by the locks of the property, of which finalization is reported first. -/
theorem run_changeProperty (r : PropertyRef) (g : Property → Property) (m : Machine) :
    (changeProperty r g).run.run engine m =
      if (m.property r.id).finalized then some (.error (.finalized r.label), m)
      else if (m.property r.id).changesDisallowed then some (.error (.changesDisallowed r.label), m)
      else some (.ok (), m.setProperty r.id (g (m.property r.id))) := by
  rw [changeProperty, Eval.run_property_bind, Property.change]
  cases (m.property r.id).finalized <;> cases (m.property r.id).changesDisallowed <;> rfl

/-- A finalization ends in one of these ways. -/
theorem engine_finalize_iff (hm : ∀ i, (m.property i).Settled) {a : Except Fault Unit} :
    engine (.finalize r) m = some (a, n) ↔ m.Finalizes r a n := by
  constructor
  · intro h
    cases hf : (m.property r.id).finalized with
    | true =>
      obtain ⟨p, w, hk⟩ := (hm r.id).keeps hf
      cases (run_evalFinalize_of_finalized hf).symm.trans h
      exact .already hk
    | false =>
      rw [run_evalFinalize_of_open hf, ExceptT.run_bind, Eval.run_bind] at h
      obtain ⟨⟨b, n₁⟩, hc, h⟩ := Option.bind_eq_some_iff.mp h
      cases b with
      | error f =>
        cases h
        exact .fails hf hc
      | ok k =>
        obtain ⟨w, hw⟩ := kept?_of_computeFrozen hc
        cases h
        cases hf₁ : (n₁.property r.id).finalized with
        | true =>
          have hn₁ := (hm r.id).shifts ((Eval.Tame.parts.computeFrozen r _).shifts hc r.id)
          obtain ⟨q, w', hk⟩ := hn₁.keeps hf₁
          change m.Finalizes r _ (n₁.setProperty r.id ((n₁.property r.id).commit k.1 k.2))
          rw [Property.commit_of_finalized hf₁]
          exact .late hf hc hk
        | false => exact .commits hf hc hf₁ (Property.keeps_commit hf₁ hw)
  · intro h
    cases h with
    | already h => exact run_evalFinalize_of_finalized h.finalized
    | fails hf hc =>
      rw [run_evalFinalize_of_open hf]
      exact Eval.run_bind_error hc _
    | commits hf hc =>
      rw [run_evalFinalize_of_open hf]
      exact Eval.run_bind_ok hc _
    | late hf hc hk =>
      rw [run_evalFinalize_of_open hf]
      refine (Eval.run_bind_ok hc _).trans ?_
      rw [← Property.commit_of_finalized hk.finalized]
      rfl

/-- A finalization without fault leaves a value that is kept. -/
theorem Machine.Finalizes.keeps (h : m.Finalizes r (.ok ()) n) :
    ∃ p w, (n.property r.id).Keeps p w := by
  cases h with
  | already h => exact ⟨_, _, h⟩
  | @commits p t w n _ _ _ hk =>
    rw [property_setProperty_self]
    exact ⟨p, w, hk⟩
  | @late p q t w n _ _ hk =>
    rw [property_setProperty_self]
    exact ⟨q, w, hk⟩

section

variable (h : (m.property r.id).mustFinalize .strict = true)

include h

/-- A strict reading that has to finalize a property does so first. -/
theorem run_finalizeFor_of_mustFinalize :
    (finalizeFor r .strict).run.run engine m = engine (.finalize r) m := by
  change (if (m.property r.id).mustFinalize .strict then Ask.finalize r
    else pure ()).run.run engine m = _
  rw [h]
  exact Eval.run_ask engine m (.finalize r)

/-- A strict reading that has to finalize the property gives what is kept then. -/
theorem run_value_of_finalized {p : Provider} {w : Outcome}
    (hfin : engine (.finalize r) m = some (.ok (), n)) (hk : (n.property r.id).Keeps p w) :
    (Ask.value (.property r) .strict).run.run engine m =
      some ((n.stack.enterAll ((Provider.property r).owner :: p.keptScopes)).map
        fun _ => w.push r.name, n) := by
  have hread : (Ask.ownValue (.property r) .strict).run.run engine m =
      some ((n.stack.enterAll ((Provider.property r).owner :: p.keptScopes)).map fun _ => w, n) := by
    refine (Ask.run_rule (.ownValue (.property r) .strict) m).trans ?_
    refine (Eval.run_bind_ok ((run_finalizeFor_of_mustFinalize h).trans hfin) _).trans ?_
    refine Eval.run_property_bind.trans ?_
    rw [hk.effective]
    exact run_within_of_enters (Provider.run_value_of_kept? hk.kept .strict)
  cases hs : n.stack.enterAll ((Provider.property r).owner :: p.keptScopes) with
  | error f =>
    rw [hs] at hread
    exact Eval.run_bind_error hread _
  | ok t =>
    rw [hs] at hread
    exact Eval.run_bind_ok hread _

/-- It fails where the finalization does. -/
theorem run_value_of_finalize_error {f : Fault}
    (hfin : engine (.finalize r) m = some (.error f, n)) :
    (Ask.value (.property r) .strict).run.run engine m = some (.error f, n) := by
  refine Eval.run_bind_error ((Ask.run_rule (.ownValue (.property r) .strict) m).trans ?_) _
  exact Eval.run_bind_error ((run_finalizeFor_of_mustFinalize h).trans hfin) _

/-- What such a reading gives is what is kept then. -/
theorem value_of_mustFinalize (hm : ∀ i, (m.property i).Settled) {v : Outcome}
    (hv : (Ask.value (.property r) .strict).run.run engine m = some (.ok v, n)) :
    ∃ p w, (n.property r.id).Keeps p w ∧ v = w.push r.name := by
  obtain ⟨u, m₁, hown, -⟩ := Eval.run_bindExcept_ok hv
  replace hown := (Ask.run_rule (.ownValue (.property r) .strict) m).symm.trans hown
  obtain ⟨_, m₂, hfin, -⟩ := Eval.run_bindExcept_ok hown
  rw [run_finalizeFor_of_mustFinalize h] at hfin
  obtain ⟨p, w, hk⟩ := ((engine_finalize_iff hm).mp hfin).keeps
  obtain ⟨hread, rfl⟩ :=
    Prod.mk.inj (Option.some.inj (hv.symm.trans (run_value_of_finalized h hfin hk)))
  obtain ⟨_, -, rfl⟩ := map_eq_ok_iff.mp hread.symm
  exact ⟨p, w, hk, rfl⟩

end

/-- Once a property is finalized it stays so, and every question about its value is answered by the
value that it keeps. When finalizations of a property overlap, the first one that commits decides,
and each one ends without fault unless its value could not be computed. A reading that had to
finalize the property gives what is kept. -/
theorem finalized_for_good {s : Stage} (hs : s.Reached) (r : PropertyRef) :
    ((s.machine.property r.id).finalized = true →
      ∃ p w, ∀ s', s.Course s' → (s'.machine.property r.id).Keeps p w ∧
        s'.machine.Gives r w ((Provider.property r).owner :: p.keptScopes)) ∧
    (∀ a n, engine (.finalize r) s.machine = some (a, n) ↔ s.machine.Finalizes r a n) ∧
    ∀ v n, (s.machine.property r.id).mustFinalize .strict = true →
      (Ask.value (.property r) .strict).run.run engine s.machine = some (.ok v, n) →
      ∃ p w, (n.property r.id).Keeps p w ∧ v = w.push r.name := by
  refine ⟨fun hf => ?_, fun a n => engine_finalize_iff hs.settled,
    fun v n hmust hv => value_of_mustFinalize hmust hs.settled hv⟩
  obtain ⟨p, w, hk⟩ := (hs.settled r.id).keeps hf
  refine ⟨p, w, fun s' hs' => ?_⟩
  have hk' := hs.keeps hs' hk
  exact ⟨hk', Machine.gives_of_keeps hk'⟩

/-! ### Fixed sessions -/

/-- A leaf whose calls give their numbers. -/
def countingLeaf : Recipe :=
  .changing .int fun n => .compute fun _ => .ok (some (.int (Int64.ofNat n)))

/-- A session with two properties that read from such leaves. The first is finalized, and the second
is to be finalized by the first strict reading. -/
def countersSession : List Step :=
  [.newProperty "p" .int none, .setProvider "p" countingLeaf, .property "p" .finalize,
    .newProperty "q" .int (some "q"), .setProvider "q" countingLeaf, .property "q" .finalizeOnRead]

def countersMachine : Machine := (Session.played 9 countersSession (.fresh 8)).getD (.fresh 8)

/-- The machine comes up between the steps of a session. -/
theorem countersMachine_reached : countersMachine.Reached :=
  (Machine.Reached.fresh 8).played 9 countersSession rfl

theorem finalized_for_good_countersMachine :
    ∃ s : Stage, s.Reached ∧ (s.machine.property 0).finalized = true ∧
      (s.machine.property 4).mustFinalize .strict = true ∧
      (∃ p w, ∀ s', s.Course s' → (s'.machine.property 0).Keeps p w ∧
        s'.machine.Gives ⟨0, .int, none⟩ w
          ((Provider.property ⟨0, .int, none⟩).owner :: p.keptScopes)) ∧
      (∃ n, engine (.finalize ⟨4, .int, some "q"⟩) s.machine = some (.ok (), n) ∧
        s.machine.Finalizes ⟨4, .int, some "q"⟩ (.ok ()) n) ∧
      ∃ v n, (Ask.value (.property ⟨4, .int, some "q"⟩) .strict).run.run engine s.machine =
          some (.ok v, n) ∧
        ∃ p w, (n.property 4).Keeps p w ∧ v = w.push (some "q") := by
  obtain ⟨reply, hs⟩ := countersMachine_reached.stage
  have hfin : (countersMachine.property 0).finalized = true := rfl
  have hmust : (countersMachine.property 4).mustFinalize .strict = true := rfl
  have hrun : ∃ n, engine (.finalize ⟨4, .int, some "q"⟩) countersMachine = some (.ok (), n) :=
    ⟨_, engine_eq_some_iff.mpr ⟨5, rfl⟩⟩
  have hread : ∃ v n, (Ask.value (.property ⟨4, .int, some "q"⟩) .strict).run.run engine
      countersMachine = some (.ok v, n) := ⟨_, _, Eval.run_engine_of_answer 5 rfl⟩
  obtain ⟨n, hrun⟩ := hrun
  obtain ⟨v, n', hread⟩ := hread
  refine ⟨_, hs, hfin, hmust, (finalized_for_good hs ⟨0, .int, none⟩).1 hfin, ⟨n, hrun, ?_⟩,
    v, n', hread, ?_⟩
  · exact ((finalized_for_good hs ⟨4, .int, some "q"⟩).2.1 _ n).mp hrun
  · exact (finalized_for_good hs ⟨4, .int, some "q"⟩).2.2 v n' hmust hread

/-- Calls of which the first finalizes a property on another thread, and fails then. -/
def overlappingCalls : Nat → Action
  | 0 => .andThen (.elsewhere (.finalize "p")) (.compute fun _ => .error (.rejected "x"))
  | _ + 1 => .compute fun _ => .ok (some (.int 5))

/-- A session that sets a property to a leaf with these calls. -/
def overlapSession : List Step :=
  [.newProperty "p" .int none, .setProvider "p" (.changing .int overlappingCalls)]

def overlapMachine : Machine := (Session.played 9 overlapSession (.fresh 8)).getD (.fresh 8)

/-- Of two finalizations that overlap the second one commits, and the first one fails. -/
theorem overlapping_finalization_fails :
    Occurs (.finalize ⟨0, .int, none⟩) overlapMachine ∧
      (∃ n, engine (.finalize ⟨0, .int, none⟩) overlapMachine =
        some (.error (.transform "changing" "x"), n)) ∧
      ∃ m n, Brings (.finalize ⟨0, .int, none⟩) overlapMachine (.finalize ⟨0, .int, none⟩) m ∧
        (m.property 0).finalized = false ∧
        engine (.finalize ⟨0, .int, none⟩) m = some (.ok (), n) := by
  have hreached : overlapMachine.Reached :=
    (Machine.Reached.fresh 8).played 9 overlapSession rfl
  let r : PropertyRef := ⟨0, .int, none⟩
  let m : Machine := { overlapMachine with stack := ⟨[⟨0, "property"⟩], 8⟩ }
  have reads : (rule (.finalize r)).Raises overlapMachine
      (.ownValue (.changing 1 .int none ⟨2, overlappingCalls, none⟩) .strict) m :=
    .inr ⟨_, Eval.run_engine_of_answer 5 rfl, .inl (.inl ⟨rfl, rfl⟩)⟩
  have calls : (rule (.ownValue (.changing 1 .int none ⟨2, overlappingCalls, none⟩) .strict)).Raises m
      (.act (overlappingCalls 0) none (.int 0)) (m.bump 2) := .inl ⟨rfl, rfl⟩
  have begins : (rule (.act (overlappingCalls 0) none (.int 0))).Raises (m.bump 2)
      (.act (.elsewhere (.finalize "p")) none (.int 0)) (m.bump 2) := .inl ⟨rfl, rfl⟩
  have starts : (rule (.act (.elsewhere (.finalize "p")) none (.int 0))).Raises (m.bump 2)
      (.act (.finalize "p") none (.int 0)) (Eval.newThread (m.bump 2)) := .inl (.inl ⟨rfl, rfl⟩)
  have finalizes : (rule (.act (.finalize "p") none (.int 0))).Raises (Eval.newThread (m.bump 2))
      (.finalize r) (Eval.newThread (m.bump 2)) := .inl ⟨rfl, rfl⟩
  refine ⟨.raised (.step hreached (.property "p" .finalize)) (.inl ⟨rfl, rfl⟩),
    ⟨_, engine_eq_some_iff.mpr ⟨9, rfl⟩⟩, Eval.newThread (m.bump 2), ?_⟩
  exact ⟨_, .raised reads (.raised calls (.raised begins (.raised starts (.raised finalizes .self)))),
    rfl, engine_eq_some_iff.mpr ⟨9, rfl⟩⟩

end ProviderGraph
