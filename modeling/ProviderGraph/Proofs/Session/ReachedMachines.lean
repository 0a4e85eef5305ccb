import ProviderGraph.Proofs.Engine.Fuel
import ProviderGraph.Proofs.Identity.RollSteps
import ProviderGraph.Session.Run

/-!
# Machines of sessions

Every machine that comes up in a session, between two steps or in the middle of one, knows old
identities only, and a provider that is asked there is told from all others by its identity
(`Occurs.identified`).
-/

namespace ProviderGraph

variable {α : Type} {roll : Roll} {m n : Machine} {q q' : Query}

/-! ### The engine -/

/-- The rule of a question keeps to the roll. -/
theorem rule_enrolls (hq : q.Enrolled roll) :
    (rule q).Enrolls roll fun roll' a => q.Answered roll' a := by
  cases q with
  | ownValue p c => exact Eval.Enrolls.imp (evalValue_enrolling hq c) fun _ _ _ => trivial
  | presence p c => exact Eval.Enrolls.imp (evalPresence_enrolling hq c) fun _ _ _ => trivial
  | producer p => exact Eval.Enrolls.imp (evalProducer_enrolling hq) fun _ _ _ => trivial
  | classification p => exact evalClassification_enrolling hq
  | text p label => exact render_enrolls hq label
  | finalize r => exact Eval.Enrolls.imp (evalFinalize_enrolling hq) fun _ _ _ => trivial
  | act a held x => exact Eval.Enrolls.imp (evalAction_enrolling a held x) fun _ _ _ => trivial
  | build r held => exact evalRecipe_enrolling r held
  | step s => exact evalStep_enrolls s

/-- Questions leave the machine and their answer on the roll, which only grows. -/
theorem answer_enrolled {fuel : Nat} {r : q.Answer × Machine} (hm : m.Enrolled roll)
    (hq : q.Enrolled roll) (hr : answer fuel q m = some r) :
    ∃ roll', roll <+: roll' ∧ r.2.Enrolled roll' ∧ q.Answered roll' r.1 := by
  induction fuel generalizing q m roll with
  | zero => exact absurd hr (by simp)
  | succ fuel ih => exact (rule_enrolls hq).run (fun _ _ _ _ => ih) hm hr

/-- What the engine does to a machine keeps to the roll. -/
theorem engine_enrolled {r : q.Answer × Machine} (hm : m.Enrolled roll) (hq : q.Enrolled roll)
    (hr : engine q m = some r) :
    ∃ roll', roll <+: roll' ∧ r.2.Enrolled roll' ∧ q.Answered roll' r.1 := by
  obtain ⟨fuel, hr⟩ := engine_eq_some_iff.mp hr
  exact answer_enrolled hm hq hr

/-- A computation leaves the machine and its result on the roll, which only grows. -/
theorem Eval.Enrolls.run_engine {x : Eval α} {post : Roll → α → Prop} (hx : x.Enrolls roll post)
    (hm : m.Enrolled roll) {r : α × Machine} (hr : x.run engine m = some r) :
    ∃ roll', roll <+: roll' ∧ r.2.Enrolled roll' ∧ post roll' r.1 :=
  hx.run (fun _ _ _ _ => engine_enrolled) hm hr

/-! ### Questions in the course of a session -/

/-- On the machine `m` the evaluation poses the question `q` on the machine `n`, on its own thread
or on another. -/
def Eval.Raises : {α : Type} → Eval α → (m : Machine) → (q : Query) → (n : Machine) → Prop
  | _, .done _, _, _, _ => False
  | _, .ask q' next, m, q, n =>
    (q = q' ∧ n = m) ∨ ∃ r, engine q' m = some r ∧ (next r.1).Raises r.2 q n
  | _, .look next, m, q, n => (next m).Raises m q n
  | _, .fresh next, m, q, n => (next m.supply).Raises { m with supply := m.supply + 1 } q n
  | _, .change c next, m, q, n => next.Raises (m.after c) q n
  | _, .openScope name o next, m, q, n =>
    match m.openScope name o with
    | .error f => (next (.error f)).Raises m q n
    | .ok m => (next (.ok ())).Raises m q n
  | _, .inScope o body next, m, q, n =>
    match m.stack.enter o with
    | .error f => (next (.error f)).Raises m q n
    | .ok s => body.Raises { m with stack := s } q n ∨
      ∃ r, body.run engine { m with stack := s } = some r ∧
        (next (.ok r.1)).Raises { r.2 with stack := r.2.stack.leave o.id } q n
  | _, .onThread body next, m, q, n => body.Raises (newThread m) q n ∨
    ∃ r, body.run engine (newThread m) = some r ∧
      (next r.1).Raises { r.2 with stack := m.stack, locals := m.locals } q n
  | _, .withOwnLocals body next, m, q, n => body.Raises { m with locals := .empty } q n ∨
    ∃ r, body.run engine { m with locals := .empty } = some r ∧
      (next r.1).Raises (dropLocals m r.2) q n

/-- The machines between the steps of a session. -/
inductive Machine.Reached : Machine → Prop where
  | fresh (limit : Nat) : Reached (.fresh limit)
  | step {m n : Machine} {s : Step} {r : Reply} (h : Reached m)
      (hr : engine (.step s) { m with events := [] } = some (r, n)) : Reached n

/-- The question comes up on the machine in the course of a session. -/
inductive Occurs : Query → Machine → Prop where
  | step {m : Machine} (h : m.Reached) (s : Step) : Occurs (.step s) { m with events := [] }
  | raised {q q' : Query} {m n : Machine} (h : Occurs q m) (h' : (rule q).Raises m q' n) :
    Occurs q' n

/-- What is asked on the way is on the roll. -/
theorem Eval.Enrolls.raises {x : Eval α} {post : Roll → α → Prop} (hx : x.Enrolls roll post)
    (hm : m.Enrolled roll) (h : x.Raises m q n) : ∃ roll', n.Enrolled roll' ∧ q.Enrolled roll' := by
  induction x generalizing m roll with
  | done a => exact h.elim
  | ask q' next ih =>
    rcases h with ⟨rfl, rfl⟩ | ⟨r, hr, h⟩
    · exact ⟨roll, hm, hx.1⟩
    · obtain ⟨roll₁, hle, hm₁, ha⟩ := engine_enrolled hm hx.1 hr
      exact ih _ (hx.2 _ _ hle ha) hm₁ h
  | look next ih => exact ih _ (hx m hm) hm h
  | fresh next ih =>
    obtain ⟨e, hx⟩ := hx
    rw [← hm.supply] at hx
    exact ih _ hx (hm.fresh e) h
  | change c next ih => exact ih hx.2 (hm.after hx.1) h
  | openScope name o next ih =>
    simp only [Raises] at h
    split at h
    · exact ih _ (hx.2 _) hm h
    · next hn => exact ih _ (hx.2 _) (hm.openScope hx.1 hn) h
  | inScope o body next ihb ih =>
    obtain ⟨ho, herror, hbody⟩ := hx
    simp only [Raises] at h
    split at h
    · exact ih _ (herror _) hm h
    · next hs =>
      rcases h with h | ⟨r, hr, h⟩
      · exact ihb hbody (hm.enter ho hs) h
      · obtain ⟨roll₁, -, hm₁, hnext⟩ := hbody.run_engine (hm.enter ho hs) hr
        exact ih _ hnext (hm₁.leave o.id) h
  | onThread body next ihb ih =>
    have hbody : body.Enrolls roll _ := hx
    rcases h with h | ⟨r, hr, h⟩
    · exact ihb hbody hm.newThread h
    · obtain ⟨roll₁, hle, hm₁, hnext⟩ := hbody.run_engine hm.newThread hr
      exact ih _ hnext (hm.rejoin hm₁ hle) h
  | withOwnLocals body next ihb ih =>
    have hbody : body.Enrolls roll _ := hx
    rcases h with h | ⟨r, hr, h⟩
    · exact ihb hbody hm.ownLocals h
    · obtain ⟨roll₁, hle, hm₁, hnext⟩ := hbody.run_engine hm.ownLocals hr
      exact ih _ hnext (hm.dropLocals hm₁ hle) h

/-- A fresh machine needs no roll. -/
theorem Machine.enrolled_fresh (limit : Nat) : (Machine.fresh limit).Enrolled [] where
  supply := rfl
  frames _ ho := by cases ho
  owners _ _ ho := by cases ho
  providers _ _ hp := by cases hp
  references _ _ hr := by cases hr
  properties _ := ⟨fun _ hq => (by cases hq), fun _ hq => (by cases hq)⟩
  classifications _ _ hc := by cases hc

/-- All that a session knows is on some roll. -/
theorem Machine.Reached.enrolled (h : m.Reached) : ∃ roll, m.Enrolled roll := by
  induction h with
  | fresh limit => exact ⟨[], Machine.enrolled_fresh limit⟩
  | @step m n s r _ hr ih =>
    obtain ⟨roll, hm⟩ := ih
    have hm : Machine.Enrolled roll { m with events := [] } := { hm with }
    obtain ⟨roll', -, hn, -⟩ := engine_enrolled (q := .step s) hm trivial hr
    exact ⟨roll', hn⟩

/-- All that is asked in a session is on some roll. -/
theorem Occurs.enrolled (h : Occurs q m) : ∃ roll, m.Enrolled roll ∧ q.Enrolled roll := by
  induction h with
  | step h s =>
    obtain ⟨roll, hm⟩ := h.enrolled
    exact ⟨roll, { hm with }, trivial⟩
  | raised _ h' ih =>
    obtain ⟨roll, hm, hq⟩ := ih
    exact (rule_enrolls hq).raises hm h'

/-- All identities that a session knows were handed out. -/
theorem Machine.Reached.minted (h : m.Reached) : m.Minted := by
  obtain ⟨roll, hm⟩ := h.enrolled
  exact hm.minted

/-- Whatever is in a register has old identities, each for one provider. -/
theorem Machine.Reached.identified (h : m.Reached) {name : String} {p : Provider}
    (hp : m.providerRegisters.find? name = some p) : p.Minted m.supply ∧ p.Identified m := by
  obtain ⟨roll, hm⟩ := h.enrolled
  have hp := hm.providers name p hp
  exact ⟨hm.supply ▸ hp.minted, hm.identified hp⟩

/-- All identities on the machine of a question were handed out. -/
theorem Occurs.minted (h : Occurs q m) : m.Minted := by
  obtain ⟨roll, hm, -⟩ := h.enrolled
  exact hm.minted

/-- Whatever is asked in a session has old identities, each for one provider. -/
theorem Occurs.identified {c : Reading} {d : Demand} (h : Occurs (d.query c) m) :
    d.provider.Minted m.supply ∧ d.provider.Identified m := by
  obtain ⟨roll, hm, hq⟩ := h.enrolled
  have hp : d.provider.Enrolled roll := by cases d <;> exact hq
  exact ⟨hm.supply ▸ hp.minted, hm.identified hp⟩

end ProviderGraph
