import ProviderGraph.Proofs.Property.KeptValues

/-!
# Trails

All that comes up while a question is answered, in the order in which it comes up, is the trail of
the question. The calls of user code among it tell how often, and on what, each piece of code runs.
-/

namespace ProviderGraph

variable {α β ε : Type} {m n : Machine} {q q' : Query} {o : Owner} {fuel : Nat}

/-! ### Questions of an evaluation -/

namespace Eval

/-- The questions that an evaluation raises, in their order, each with the machine it is raised
on. -/
def questions (answers : Answerer) : {α : Type} → Eval α → Machine → List (Query × Machine)
  | _, .done _, _ => []
  | _, .ask q next, m =>
    (q, m) :: (answers q m).elim [] fun r => (next r.1).questions answers r.2
  | _, .look next, m => (next m).questions answers m
  | _, .fresh next, m => (next m.supply).questions answers { m with supply := m.supply + 1 }
  | _, .change c next, m => next.questions answers (m.after c)
  | _, .openScope name o next, m =>
    match m.openScope name o with
    | .error f => (next (.error f)).questions answers m
    | .ok m => (next (.ok ())).questions answers m
  | _, .inScope o body next, m =>
    match m.stack.enter o with
    | .error f => (next (.error f)).questions answers m
    | .ok s => body.questions answers { m with stack := s } ++
      (body.run answers { m with stack := s }).elim [] fun r =>
        (next (.ok r.1)).questions answers { r.2 with stack := r.2.stack.leave o.id }
  | _, .onThread body next, m => body.questions answers (newThread m) ++
    (body.run answers (newThread m)).elim [] fun r =>
      (next r.1).questions answers { r.2 with stack := m.stack, locals := m.locals }
  | _, .withOwnLocals body next, m => body.questions answers { m with locals := .empty } ++
    (body.run answers { m with locals := .empty }).elim [] fun r =>
      (next r.1).questions answers (dropLocals m r.2)

/-- The list is that of the questions raised. -/
theorem mem_questions {x : Eval α} : (q, n) ∈ x.questions engine m ↔ x.Raises m q n := by
  have elim {ρ : Type} (a : Option ρ) (f : ρ → List (Query × Machine)) :
      (q, n) ∈ a.elim [] f ↔ ∃ r, a = some r ∧ (q, n) ∈ f r := by
    cases a <;> simp
  induction x generalizing m with
  | done => simp [questions, Raises]
  | ask q' next ih =>
    simp only [questions, Raises, List.mem_cons, Prod.mk.injEq, elim, ih]
  | look next ih => exact ih _
  | fresh next ih => exact ih _
  | change c next ih => exact ih
  | openScope name o next ih =>
    cases hn : m.openScope name o <;> simp only [questions, Raises, hn, ih]
  | inScope o body next ihb ih =>
    cases hs : m.stack.enter o with
    | error f => simp only [questions, Raises, hs, ih]
    | ok s => simp only [questions, Raises, hs, List.mem_append, elim, ihb, ih]
  | onThread body next ihb ih | withOwnLocals body next ihb ih =>
    simp only [questions, Raises, List.mem_append, elim, ihb, ih]

/-- A sequence raises what its first part raises, and then what the second one does. -/
theorem questions_bind (answers : Answerer) (x : Eval α) (f : α → Eval β) :
    (x >>= f).questions answers m = x.questions answers m ++
      (x.run answers m).elim [] fun r => (f r.1).questions answers r.2 := by
  have elim {ρ σ : Type} (a : Option ρ) (f : ρ → List (Query × Machine)) (g : ρ → Option σ)
      (k : σ → List (Query × Machine)) :
      (a.elim [] fun r => f r ++ (g r).elim [] k) = a.elim [] f ++ (a.bind g).elim [] k := by
    cases a <;> rfl
  induction x generalizing m with
  | done a => rfl
  | ask q next ih =>
    change (ask q fun a => next a >>= f).questions answers m = _
    simp only [questions, run, ih, elim, List.cons_append]
  | look next ih => exact ih _ f
  | fresh next ih => exact ih _ f
  | change c next ih => exact ih f
  | openScope name o next ih =>
    change (openScope name o fun r => next r >>= f).questions answers m = _
    cases hn : m.openScope name o <;> simp only [questions, run, hn, ih]
  | inScope o body next _ ih =>
    change (inScope o body fun r => next r >>= f).questions answers m = _
    cases hs : m.stack.enter o with
    | error e => simp only [questions, run, hs, ih]
    | ok s => simp only [questions, run, hs, ih, elim, List.append_assoc]
  | onThread body next _ ih =>
    change (onThread body fun r => next r >>= f).questions answers m = _
    simp only [questions, run, ih, elim, List.append_assoc]
  | withOwnLocals body next _ ih =>
    change (withOwnLocals body fun r => next r >>= f).questions answers m = _
    simp only [questions, run, ih, elim, List.append_assoc]

/-- A computation that is one question raises it where it stands. -/
theorem questions_ask (answers : Answerer) (q : Query) :
    (ask q Pure.pure).questions answers m = [(q, m)] := by
  simp only [questions]
  cases answers q m <;> rfl

/-- A run that ends with some fuel raises what it raises with any. -/
theorem questions_of_run {x : Eval α} {r : α × Machine} (hr : x.run (answer fuel) m = some r) :
    x.questions (answer fuel) m = x.questions engine m := by
  induction x generalizing m with
  | done => rfl
  | ask q next ih =>
    obtain ⟨s, hs, hr⟩ := Option.bind_eq_some_iff.mp hr
    simp only [questions, hs, engine_of_answer hs, Option.elim_some, ih _ hr]
  | look next ih => exact ih _ hr
  | fresh next ih => exact ih _ hr
  | change c next ih => exact ih hr
  | openScope name o next ih =>
    rw [run] at hr
    rw [questions, questions]
    cases hn : m.openScope name o with
    | error f =>
      rw [hn] at hr
      exact ih _ hr
    | ok n =>
      rw [hn] at hr
      exact ih _ hr
  | inScope o body next ihb ih =>
    rw [run] at hr
    rw [questions, questions]
    cases hs : m.stack.enter o with
    | error f =>
      rw [hs] at hr
      exact ih _ hr
    | ok s =>
      rw [hs] at hr
      obtain ⟨r, hb, hr⟩ := Option.bind_eq_some_iff.mp hr
      simp only [hb, run_engine_of_answer fuel hb, Option.elim_some, ihb hb, ih _ hr]
  | onThread body next ihb ih | withOwnLocals body next ihb ih =>
    obtain ⟨s, hb, hr⟩ := Option.bind_eq_some_iff.mp hr
    simp only [questions, hb, run_engine_of_answer fuel hb, Option.elim_some, ihb hb, ih _ hr]

end Eval

/-! ### Trails -/

/-- All that comes up with so much fuel, in the order in which it comes up. -/
def trailUpTo : Nat → Query → Machine → List (Query × Machine)
  | 0, _, _ => []
  | fuel + 1, q, m =>
    (q, m) :: ((rule q).questions (answer fuel) m).flatMap fun e => trailUpTo fuel e.1 e.2

/-- With enough fuel for an answer one more unit brings up nothing more. -/
theorem trailUpTo_succ (hr : ∃ r, answer fuel q m = some r) :
    trailUpTo (fuel + 1) q m = trailUpTo fuel q m := by
  induction fuel generalizing q m with
  | zero =>
    obtain ⟨r, hr⟩ := hr
    exact absurd hr (by simp)
  | succ fuel ih =>
    obtain ⟨r, hr⟩ := hr
    have hquestions : (rule q).questions (answer (fuel + 1)) m =
        (rule q).questions (answer fuel) m :=
      (Eval.questions_of_run (answer_mono_succ _ q m r hr)).trans (Eval.questions_of_run hr).symm
    rw [trailUpTo, trailUpTo, hquestions]
    refine congrArg _ (List.flatMap_congr fun e he => ih ?_)
    rw [Eval.questions_of_run hr] at he
    exact (Eval.mem_questions.mp he).answered hr

/-- With enough fuel for an answer more of it brings up nothing more. -/
theorem trailUpTo_mono {fuel' : Nat} (hf : fuel ≤ fuel') (hr : ∃ r, answer fuel q m = some r) :
    trailUpTo fuel' q m = trailUpTo fuel q m := by
  induction hf with
  | refl => rfl
  | step hle ih =>
    obtain ⟨r, hr⟩ := hr
    exact (trailUpTo_succ ⟨r, answer_mono hle hr⟩).trans ih

open Classical in
/-- All that comes up while a question is answered, in the order in which it comes up. -/
noncomputable def Query.trail (q : Query) (m : Machine) : List (Query × Machine) :=
  if h : ∃ fuel r, answer fuel q m = some r then trailUpTo h.choose q m else []

namespace Query

/-- The trail is found with any fuel that is enough for the answer. -/
theorem trail_of_answer {r : q.Answer × Machine} (hr : answer fuel q m = some r) :
    q.trail m = trailUpTo fuel q m := by
  have hex : ∃ fuel r, answer fuel q m = some r := ⟨fuel, r, hr⟩
  rw [trail, dif_pos hex, ← trailUpTo_mono (Nat.le_max_left _ fuel) hex.choose_spec,
    trailUpTo_mono (Nat.le_max_right _ fuel) ⟨r, hr⟩]

/-- The trail of a question consists of the trails of all that its rule raises. -/
theorem trail_eq {r : q.Answer × Machine} (hr : engine q m = some r) :
    q.trail m = (q, m) :: ((rule q).questions engine m).flatMap fun e => e.1.trail e.2 := by
  obtain ⟨fuel, hfuel⟩ := engine_eq_some_iff.mp hr
  rw [trail_of_answer hfuel]
  cases fuel with
  | zero => exact absurd hfuel (by simp)
  | succ fuel =>
    rw [trailUpTo, Eval.questions_of_run hfuel]
    refine congrArg _ (List.flatMap_congr fun e he => ?_)
    obtain ⟨s, hs⟩ := (Eval.mem_questions.mp he).answered hfuel
    exact (trail_of_answer hs).symm

/-- What is on the trail of a question that is answered comes up, and all that comes up is. -/
theorem mem_trail_iff {r : q.Answer × Machine} (hr : engine q m = some r) :
    (q', n) ∈ q.trail m ↔ Brings q m q' n := by
  constructor
  · refine engine_induction
      (R := fun q m _ => (q', n) ∈ q.trail m → Brings q m q' n) ?_ hr
    intro q m r hr ih h
    rw [trail_eq hr] at h
    rcases List.mem_cons.mp h with h | h
    · cases h
      exact .self
    · obtain ⟨e, he, h⟩ := List.mem_flatMap.mp h
      have hraised := Eval.mem_questions.mp he
      obtain ⟨fuel, hfuel⟩ := Eval.exists_fuel _ ((engine_eq_rule q m).symm.trans hr)
      obtain ⟨s, hs⟩ := hraised.answered hfuel
      exact .raised hraised (ih _ _ hraised s (engine_of_answer hs) h)
  · intro h
    induction h with
    | self =>
      rw [trail_eq hr]
      exact List.mem_cons_self
    | raised hraised h ih =>
      rw [trail_eq hr]
      obtain ⟨fuel, hfuel⟩ := Eval.exists_fuel _ ((engine_eq_rule _ _).symm.trans hr)
      obtain ⟨s, hs⟩ := hraised.answered hfuel
      refine List.mem_cons_of_mem _ (List.mem_flatMap.mpr ⟨(_, _), Eval.mem_questions.mpr hraised, ?_⟩)
      exact ih (engine_of_answer hs)

/-! ### Calls of user code -/

def runsCode : Query → Bool
  | .act _ _ _ | .build _ _ | .step _ => true
  | _ => false

theorem runsCode_iff : q.runsCode = true ↔ q.RunsCode := by
  cases q <;> simp [runsCode, RunsCode]

/-- The calls of user code while a question is answered, in their order. -/
noncomputable def calls (q : Query) (m : Machine) : List Query :=
  ((q.trail m).map Prod.fst).filter runsCode

/-- The calls are found with any fuel that is enough for the answer. -/
theorem calls_of_answer (fuel : Nat) {r : q.Answer × Machine} (hr : answer fuel q m = some r) :
    q.calls m = ((trailUpTo fuel q m).map Prod.fst).filter runsCode := by
  rw [calls, trail_of_answer hr]

/-- A question to a provider makes the calls of all that its rule raises. -/
theorem calls_eq {r : q.Answer × Machine} (hq : ¬ q.RunsCode) (hr : engine q m = some r) :
    q.calls m = ((rule q).questions engine m).flatMap fun e => e.1.calls e.2 := by
  have hcode : q.runsCode = false := Bool.eq_false_iff.mpr fun h => hq (runsCode_iff.mp h)
  rw [calls, trail_eq hr, List.map_cons, List.filter_cons_of_neg (by simp [hcode]),
    List.map_flatMap, List.filter_flatMap]
  rfl

end Query

end ProviderGraph
