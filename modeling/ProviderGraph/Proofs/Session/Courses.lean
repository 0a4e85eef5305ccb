import Mathlib.Logic.Relation
import ProviderGraph.Proofs.Session.ReachedMachines

/-!
# The course of a session

User code may look at a property, or change it, in the middle of whatever else is going on. To speak
of such a moment the engine is run one step at a time: a `Stage` is what is being done, what waits
for it, and the machine. A session may be at any stage of a `Stage.Course` from its start
(`Stage.Reached`), whether or not it ever ends, and the courses of a question are just the runs of
the engine (`engine_step_iff_course`).
-/

namespace ProviderGraph

open Relation (ReflTransGen)

/-! ### Stages -/

/-- What waits for a result, the innermost first. -/
inductive Pending : Type → Type 1 where
  /-- Nothing waits. The result is the reply to a step of the session. -/
  | nil : Pending Reply
  /-- The result is the answer to a question. -/
  | asked {α : Type} (q : Query) (next : q.Answer → Eval α) (rest : Pending α) : Pending q.Answer
  /-- The scope of an owner is to be closed. -/
  | inScope {α β : Type} (o : Owner) (next : Except Fault β → Eval α) (rest : Pending α) :
    Pending β
  /-- The thread that waits has the scopes and registers of `m`. -/
  | elsewhere {α β : Type} (m : Machine) (next : β → Eval α) (rest : Pending α) : Pending β
  /-- The part that waits has the registers of `m`. -/
  | apart {α β : Type} (m : Machine) (next : β → Eval α) (rest : Pending α) : Pending β

/-- A moment in the course of a session. -/
structure Stage where
  {type : Type}
  code : Eval type
  pending : Pending type
  machine : Machine

/-- The stage where the innermost pending part goes on with a result. -/
def Pending.resume : {α : Type} → Pending α → α → Machine → Option Stage
  | _, .nil, _, _ => none
  | _, .asked _ next rest, a, m => some ⟨next a, rest, m⟩
  | _, .inScope o next rest, b, m =>
    some ⟨next (.ok b), rest, { m with stack := m.stack.leave o.id }⟩
  | _, .elsewhere m next rest, b, n =>
    some ⟨next b, rest, { n with stack := m.stack, locals := m.locals }⟩
  | _, .apart m next rest, b, n => some ⟨next b, rest, Eval.dropLocals m n⟩

/-- The stage that follows when a piece of code does its first step. -/
def Eval.advance : {α : Type} → Eval α → Pending α → Machine → Option Stage
  | _, .done a, k, m => k.resume a m
  | _, .ask q next, k, m => some ⟨rule q, .asked q next k, m⟩
  | _, .look next, k, m => some ⟨next m, k, m⟩
  | _, .fresh next, k, m => some ⟨next m.supply, k, { m with supply := m.supply + 1 }⟩
  | _, .change c next, k, m => some ⟨next, k, m.after c⟩
  | _, .openScope name o next, k, m =>
    match m.openScope name o with
    | .error f => some ⟨next (.error f), k, m⟩
    | .ok n => some ⟨next (.ok ()), k, n⟩
  | _, .inScope o body next, k, m =>
    match m.stack.enter o with
    | .error f => some ⟨next (.error f), k, m⟩
    | .ok s => some ⟨body, .inScope o next k, { m with stack := s }⟩
  | _, .onThread body next, k, m => some ⟨body, .elsewhere m next k, newThread m⟩
  | _, .withOwnLocals body next, k, m => some ⟨body, .apart m next k, { m with locals := .empty }⟩

namespace Stage

/-- The stage that follows, unless a reply has been given. -/
def advance (s : Stage) : Option Stage := s.code.advance s.pending s.machine

/-- One stage follows another while a question is answered. -/
def Advances (s s' : Stage) : Prop := s.advance = some s'

/-- One stage follows another in a session: the engine goes on, or the session poses its next
step. -/
inductive Moves : Stage → Stage → Prop where
  | advance {s s' : Stage} (h : s.Advances s') : Moves s s'
  | next (r : Reply) (m : Machine) (step : Step) :
    Moves ⟨.done r, .nil, m⟩ ⟨.ask (.step step) .done, .nil, { m with events := [] }⟩

/-- The second stage comes after the first, or is the first. -/
def Course : Stage → Stage → Prop := ReflTransGen Moves

def start (limit : Nat) : Stage := ⟨.done Reply.done, .nil, .fresh limit⟩

/-- The stage comes up in the course of a session. -/
def Reached (s : Stage) : Prop := ∃ limit, Course (start limit) s

variable {s s' : Stage}

/-- What follows a stage that comes up comes up. -/
theorem Reached.course (h : s.Reached) (hs : s.Course s') : s'.Reached := by
  obtain ⟨limit, h⟩ := h
  exact ⟨limit, h.trans hs⟩

/-- A question takes its course in the course of a session. -/
theorem Advances.course (h : ReflTransGen Advances s s') : s.Course s' :=
  ReflTransGen.mono (fun _ _ h => Moves.advance h) _ _ h

def advanceBy : Nat → Stage → Option Stage
  | 0, s => some s
  | n + 1, s => s.advance.bind (advanceBy n)

/-- Counted steps are a course. -/
theorem course_of_advanceBy (n : Nat) (h : s.advanceBy n = some s') : s.Course s' := by
  induction n generalizing s with
  | zero =>
    obtain rfl := Option.some.inj h
    exact .refl
  | succ n ih =>
    obtain ⟨t, ht, h⟩ := Option.bind_eq_some_iff.mp h
    exact .head (.advance ht) (ih h)

end Stage

open Stage

/-! ### Runs and courses -/

section Runs

variable {α : Type} {m n : Machine} {q : Query}

/-- A run takes its steps one after the other, whatever waits for it. -/
theorem Eval.advances_of_run {answers : Answerer} {x : Eval α} {r : α × Machine} (k : Pending α)
    (ha : ∀ (q : Query) m r, answers q m = some r → ∀ {β : Type} (next : q.Answer → Eval β) k,
      ReflTransGen Advances ⟨.ask q next, k, m⟩ ⟨next r.1, k, r.2⟩)
    (hr : x.run answers m = some r) :
    ReflTransGen Advances ⟨x, k, m⟩ ⟨.done r.1, k, r.2⟩ := by
  induction x generalizing m with
  | done a =>
    obtain rfl := Option.some.inj hr
    exact .refl
  | ask q next ih =>
    obtain ⟨r₁, h₁, hr⟩ := Option.bind_eq_some_iff.mp hr
    exact (ha q m r₁ h₁ next k).trans (ih _ k hr)
  | look next ih => exact .head rfl (ih _ k hr)
  | fresh next ih => exact .head rfl (ih _ k hr)
  | change c next ih => exact .head rfl (ih k hr)
  | openScope name o next ih =>
    simp only [run] at hr
    split at hr
    · next hn => exact .head (by simp only [Advances, Stage.advance, advance, hn]) (ih _ k hr)
    · next hn => exact .head (by simp only [Advances, Stage.advance, advance, hn]) (ih _ k hr)
  | inScope o body next ihb ih =>
    simp only [run] at hr
    split at hr
    · next hs => exact .head (by simp only [Advances, Stage.advance, advance, hs]) (ih _ k hr)
    · next hs =>
      obtain ⟨r₁, h₁, hr⟩ := Option.bind_eq_some_iff.mp hr
      refine .head (by simp only [Advances, Stage.advance, advance, hs]; rfl) ?_
      exact (ihb (.inScope o next k) h₁).trans (.head rfl (ih _ k hr))
  | onThread body next ihb ih =>
    obtain ⟨r₁, h₁, hr⟩ := Option.bind_eq_some_iff.mp hr
    exact .head rfl ((ihb (.elsewhere m next k) h₁).trans (.head rfl (ih _ k hr)))
  | withOwnLocals body next ihb ih =>
    obtain ⟨r₁, h₁, hr⟩ := Option.bind_eq_some_iff.mp hr
    exact .head rfl ((ihb (.apart m next k) h₁).trans (.head rfl (ih _ k hr)))

/-- A question that is answered takes the stage past it. -/
theorem advances_of_answer {fuel : Nat} {r : q.Answer × Machine} (hr : answer fuel q m = some r)
    (next : q.Answer → Eval α) (k : Pending α) :
    ReflTransGen Advances ⟨.ask q next, k, m⟩ ⟨next r.1, k, r.2⟩ := by
  induction fuel generalizing q m α with
  | zero => exact absurd hr (by simp)
  | succ fuel ih =>
    have body := Eval.advances_of_run (x := rule q) (.asked q next k)
      (fun _ _ _ h _ next k => ih h next k) hr
    exact .head rfl (body.tail rfl)

/-- What the engine answers it answers step by step. -/
theorem Eval.course_of_run {x : Eval α} {r : α × Machine} (hr : x.run engine m = some r)
    (k : Pending α) : ReflTransGen Advances ⟨x, k, m⟩ ⟨.done r.1, k, r.2⟩ := by
  refine advances_of_run k (fun q m r h _ next k => ?_) hr
  obtain ⟨fuel, h⟩ := engine_eq_some_iff.mp h
  exact advances_of_answer h next k

/-- What comes of a result in the end. -/
noncomputable def Pending.finish : {α : Type} → Pending α → α → Machine → Option (Reply × Machine)
  | _, .nil, r, m => some (r, m)
  | _, .asked _ next rest, a, m => ((next a).run engine m).bind fun r => rest.finish r.1 r.2
  | _, .inScope o next rest, b, m =>
    ((next (.ok b)).run engine { m with stack := m.stack.leave o.id }).bind fun r =>
      rest.finish r.1 r.2
  | _, .elsewhere m next rest, b, n =>
    ((next b).run engine { n with stack := m.stack, locals := m.locals }).bind fun r =>
      rest.finish r.1 r.2
  | _, .apart m next rest, b, n =>
    ((next b).run engine (Eval.dropLocals m n)).bind fun r => rest.finish r.1 r.2

/-- The reply that a stage leads to, and the machine then. -/
noncomputable def Stage.finish (s : Stage) : Option (Reply × Machine) :=
  (s.code.run engine s.machine).bind fun r => s.pending.finish r.1 r.2

/-- A step changes nothing of what comes in the end. -/
theorem Stage.Advances.finish_eq {s s' : Stage} (h : s.Advances s') : s.finish = s'.finish := by
  obtain ⟨code, pending, m⟩ := s
  cases code with
  | done a => cases pending <;> cases h <;> rfl
  | ask q next =>
    cases h
    simp only [finish, Eval.run, engine_eq_rule q m, Option.bind_assoc, Pending.finish]
  | look | fresh | change =>
    cases h
    rfl
  | openScope name o next =>
    simp only [Advances, Stage.advance, Eval.advance] at h
    simp only [finish, Eval.run]
    split at h <;> cases h <;> simp_all
  | inScope o body next =>
    simp only [Advances, Stage.advance, Eval.advance] at h
    simp only [finish, Eval.run]
    split at h <;> cases h <;> simp_all [Pending.finish, Option.bind_assoc]
  | onThread | withOwnLocals =>
    cases h
    simp only [finish, Eval.run, Option.bind_assoc, Pending.finish]

/-- So nothing that comes in the end changes along the way. -/
theorem Stage.finish_eq_of_advances {s s' : Stage} (h : ReflTransGen Advances s s') :
    s.finish = s'.finish := by
  induction h with
  | refl => rfl
  | tail _ h ih => exact ih.trans h.finish_eq

/-- A step of a session has a reply if and only if the engine gets to it step by step. -/
theorem engine_step_iff_course {step : Step} {r : Reply} :
    engine (.step step) m = some (r, n) ↔
      ReflTransGen Advances ⟨.ask (.step step) .done, .nil, m⟩ ⟨.done r, .nil, n⟩ := by
  rw [← Eval.run_ask engine m (.step step)]
  constructor
  · intro h
    exact Eval.course_of_run h .nil
  · intro h
    exact (Option.bind_fun_some _).symm.trans (Stage.finish_eq_of_advances h)

/-- The machine after some steps of a session. -/
def Session.played (fuel : Nat) : List Step → Machine → Option Machine
  | [], m => some m
  | s :: ss, m => (answer fuel (.step s) { m with events := [] }).bind fun r => played fuel ss r.2

/-- Playing steps ends on a machine that comes up between steps. -/
theorem Machine.Reached.played (h : m.Reached) (fuel : Nat) (ss : List Step)
    (hn : Session.played fuel ss m = some n) : n.Reached := by
  induction ss generalizing m with
  | nil =>
    cases hn
    exact h
  | cons s ss ih =>
    obtain ⟨r, hr, hn⟩ := Option.bind_eq_some_iff.mp hn
    exact ih (h.step (engine_of_answer hr)) hn

/-- The machines between the steps of a session come up in its course. -/
theorem Machine.Reached.stage (h : m.Reached) : ∃ r, Stage.Reached ⟨.done r, .nil, m⟩ := by
  induction h with
  | fresh limit => exact ⟨.done, limit, .refl⟩
  | @step m n s r _ hr ih =>
    obtain ⟨r₀, ih⟩ := ih
    refine ⟨r, ih.course (.head (.next r₀ m s) ?_)⟩
    exact Advances.course (engine_step_iff_course.mp hr)

/-- After each of them any step may be posed. -/
theorem Machine.Reached.pose (h : m.Reached) (step : Step) :
    Stage.Reached ⟨.ask (.step step) .done, .nil, { m with events := [] }⟩ := by
  obtain ⟨r, h⟩ := h.stage
  exact h.course (.single (.next r m step))

/-- What is raised comes up at some stage. -/
theorem Eval.course_of_raises {x : Eval α} (h : x.Raises m q n) (k : Pending α) :
    ∃ (β : Type) (next : q.Answer → Eval β) (k' : Pending β),
      ReflTransGen Advances ⟨x, k, m⟩ ⟨.ask q next, k', n⟩ := by
  induction x generalizing m with
  | done a => exact h.elim
  | ask q' next ih =>
    rcases h with ⟨rfl, rfl⟩ | ⟨r, hr, h⟩
    · exact ⟨_, next, k, .refl⟩
    · obtain ⟨β, next', k', hcourse⟩ := ih _ h k
      obtain ⟨fuel, hr⟩ := engine_eq_some_iff.mp hr
      exact ⟨β, next', k', (advances_of_answer hr next k).trans hcourse⟩
  | look next ih =>
    obtain ⟨β, next', k', hcourse⟩ := ih _ h k
    exact ⟨β, next', k', .head rfl hcourse⟩
  | fresh next ih =>
    obtain ⟨β, next', k', hcourse⟩ := ih _ h k
    exact ⟨β, next', k', .head rfl hcourse⟩
  | change c next ih =>
    obtain ⟨β, next', k', hcourse⟩ := ih h k
    exact ⟨β, next', k', .head rfl hcourse⟩
  | openScope name o next ih =>
    simp only [Raises] at h
    split at h
    · next hs =>
      obtain ⟨β, next', k', hcourse⟩ := ih _ h k
      refine ⟨β, next', k', .head ?_ hcourse⟩
      simp only [Advances, Stage.advance, advance, hs]
    · next hs =>
      obtain ⟨β, next', k', hcourse⟩ := ih _ h k
      refine ⟨β, next', k', .head ?_ hcourse⟩
      simp only [Advances, Stage.advance, advance, hs]
  | inScope o body next ihb ih =>
    simp only [Raises] at h
    split at h
    · next hs =>
      obtain ⟨β, next', k', hcourse⟩ := ih _ h k
      refine ⟨β, next', k', .head ?_ hcourse⟩
      simp only [Advances, Stage.advance, advance, hs]
    · next s hs =>
      have hbegin : Advances ⟨.inScope o body next, k, m⟩
          ⟨body, .inScope o next k, { m with stack := s }⟩ := by
        simp only [Advances, Stage.advance, advance, hs]
      rcases h with h | ⟨r, hr, h⟩
      · obtain ⟨β, next', k', hcourse⟩ := ihb h (.inScope o next k)
        exact ⟨β, next', k', .head hbegin hcourse⟩
      · obtain ⟨β, next', k', hcourse⟩ := ih _ h k
        refine ⟨β, next', k', .head hbegin ?_⟩
        exact (course_of_run hr (.inScope o next k)).trans (.head rfl hcourse)
  | onThread body next ihb ih =>
    rcases h with h | ⟨r, hr, h⟩
    · obtain ⟨β, next', k', hcourse⟩ := ihb h (.elsewhere m next k)
      exact ⟨β, next', k', .head rfl hcourse⟩
    · obtain ⟨β, next', k', hcourse⟩ := ih _ h k
      refine ⟨β, next', k', .head rfl ?_⟩
      exact (course_of_run hr (.elsewhere m next k)).trans (.head rfl hcourse)
  | withOwnLocals body next ihb ih =>
    rcases h with h | ⟨r, hr, h⟩
    · obtain ⟨β, next', k', hcourse⟩ := ihb h (.apart m next k)
      exact ⟨β, next', k', .head rfl hcourse⟩
    · obtain ⟨β, next', k', hcourse⟩ := ih _ h k
      refine ⟨β, next', k', .head rfl ?_⟩
      exact (course_of_run hr (.apart m next k)).trans (.head rfl hcourse)

/-- Every question that comes up in a session comes up at a stage of it. -/
theorem Occurs.stage (h : Occurs q m) :
    ∃ (β : Type) (next : q.Answer → Eval β) (k : Pending β),
      Stage.Reached ⟨.ask q next, k, m⟩ := by
  induction h with
  | step h s => exact ⟨_, _, _, h.pose s⟩
  | @raised q q' m n _ h' ih =>
    obtain ⟨β, next, k, hreached⟩ := ih
    obtain ⟨β', next', k', hcourse⟩ := Eval.course_of_raises h' (.asked q next k)
    exact ⟨β', next', k', hreached.course (Advances.course (.head rfl hcourse))⟩

end Runs

end ProviderGraph
