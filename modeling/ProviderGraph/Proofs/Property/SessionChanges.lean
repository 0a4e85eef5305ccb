import ProviderGraph.Proofs.Property.TameRules

/-!
# What happens to a property in a session

Each change of a property in the course of a session is one that user code may make, or it is made
by a finalization of this very property, which keeps a value (`Stage.Reached.abides`). What every
such change keeps is kept by whole courses (`Stage.Course.shifts`).
-/

namespace ProviderGraph

open Relation (ReflTransGen)
open Property (Turn)

/-- While a question is answered properties are changed as user code may change them, and only to
finalize a property a value of it is kept. `E` tells which. -/
def License (E : Identity → Outcome → Prop) (own : Option Query) : Law := fun i s s' =>
  s.Turn s' ∨ ∃ r : PropertyRef, own = some (.finalize r) ∧ r.id = i ∧ s.Settles (E i) s'

variable {E : Identity → Outcome → Prop} {own : Option Query} {trust : Trust} {S : States}

/-! ### Finalization -/

namespace Eval

variable {α β ε : Type} {law : Law}

theorem abides_property {i : Identity} {post : States → Property → Prop} (h : post S (S i)) :
    (Eval.property i).Abides law trust S post := by
  intro m hm
  subst hm
  exact h

/-- The same for computations that may fail; `post` is about their successes. -/
theorem abides_bindExcept {x : ExceptT ε Eval α} {f : α → ExceptT ε Eval β}
    {post : States → β → Prop}
    (h : x.run.Abides law trust S fun S r => ∀ a, r = .ok a →
      (f a).run.Abides law trust S fun S r => ∀ b, r = .ok b → post S b) :
    (x >>= f).run.Abides law trust S fun S r => ∀ b, r = .ok b → post S b := by
  rw [ExceptT.run_bind, abides_bind]
  refine h.imp (fun _ _ _ h => h) (fun _ _ h => h) ?_
  intro S r hr
  cases r with
  | ok a => exact hr a rfl
  | error e =>
    intro b hb
    cases hb

/-- What is run in a scope abides by the law where it is run. -/
theorem abides_within {o : Owner} {x : Attempt α} {post : States → α → Prop}
    (h : x.run.Abides law trust S fun S r => ∀ a, r = .ok a → post S a) :
    (ProviderGraph.within o x).run.Abides law trust S fun S r => ∀ a, r = .ok a → post S a := by
  refine ⟨?_, h⟩
  intro f a ha
  cases ha

theorem abides_lift {x : Eval α} {post : States → α → Prop} (h : x.Abides law trust S post) :
    (liftM x : ExceptT ε Eval α).run.Abides law trust S fun S r => ∀ a, r = .ok a → post S a := by
  refine (abides_bind x _).mpr (h.imp (fun _ _ _ h => h) (fun _ _ h => h) ?_)
  intro S a ha b hb
  cases hb
  exact ha

end Eval

/-- What reproduces a computed value gives this value. -/
theorem toProvider_abides {law : Law} (type : PayloadType) (v : Outcome) :
    ((Classification.ofValue v).toProvider type).Abides law trust S
      fun _ q => q.kept? = some v := by
  match v with
  | .missing path => exact fun i => rfl
  | .present x none => exact fun i => rfl
  | .present x (some e) => exact fun i j => rfl

/-- The value that a property would keep is that of the provider it reads from. -/
theorem computeFrozen_abides {law : Law} (r : PropertyRef) (held : Option Provider) :
    (computeFrozen r held).run.Abides law trust S fun _ res => ∀ kept, res = .ok kept →
      match held with
      | none => kept.1.kept? = some (.missing [])
      | some q => ∃ v, trust (.ownValue q .strict) (.ok v) ∧
          kept.1.kept? = some (v.push q.declaredName) := by
  cases held with
  | none =>
    refine Eval.abides_bindExcept (Eval.abides_lift ?_)
    intro i kept hkept
    cases hkept
    rfl
  | some q =>
    refine Eval.abides_bindExcept (Eval.abides_within ?_)
    intro S₁ t _ t' _
    refine Eval.abides_bindExcept (Eval.abides_within (Eval.abides_bindExcept ?_))
    intro S₂ res hres v hv w hw
    cases hw
    subst hv
    refine Eval.abides_bindExcept (Eval.abides_lift ?_)
    refine (toProvider_abides r.type _).imp (fun _ _ _ h => h) (fun _ _ h => h) ?_
    intro S₃ p hp kept hkept
    cases hkept
    exact ⟨v, hres, hp⟩

/-- A finalization keeps the value that the property had for it. -/
theorem evalFinalize_abides (r : PropertyRef)
    (hunset : (S r.id).finalized = false → (S r.id).effective = none → E r.id (.missing []))
    (hset : ∀ q v, (S r.id).finalized = false → (S r.id).effective = some q →
      trust (.ownValue q .strict) (.ok v) → E r.id (v.push q.declaredName)) :
    (rule (.finalize r)).Abides (License E (some (.finalize r))) trust S fun _ _ => True := by
  rw [rule, evalFinalize, Eval.run_lift_bind, Eval.abides_bind]
  refine Eval.abides_property ?_
  split
  · trivial
  · next hopen =>
    rw [ExceptT.run_bind, Eval.abides_bind]
    refine (computeFrozen_abides r _).imp (fun _ _ _ h => h) (fun _ _ h => h) ?_
    intro S' res hres
    cases res with
    | error f => trivial
    | ok kept =>
      have hE : ∃ w, E r.id w ∧ kept.1.kept? = some w := by
        have hopen := Bool.eq_false_iff.mpr hopen
        have hkept := hres kept rfl
        cases heff : (S r.id).effective with
        | none =>
          rw [heff] at hkept
          exact ⟨_, hunset hopen heff, hkept⟩
        | some q =>
          rw [heff] at hkept
          obtain ⟨v, hv, hkept⟩ := hkept
          exact ⟨_, hset q v hopen heff hv, hkept⟩
      obtain ⟨w, hw, hkept⟩ := hE
      intro m hm
      subst hm
      exact ⟨.inr ⟨r, rfl, rfl, kept.1, kept.2, w, hw, hkept, rfl⟩, trivial⟩

/-- The rule of every question keeps to the license of the question. -/
theorem rule_abides (q : Query) :
    (rule q).Abides (License (fun _ _ => True) (some q)) trust S fun _ _ => True := by
  by_cases hq : ∃ r, q = .finalize r
  · obtain ⟨r, rfl⟩ := hq
    exact evalFinalize_abides r (fun _ _ => trivial) fun _ _ _ _ _ => trivial
  · refine (rule_tame q fun r hr => hq ⟨r, hr⟩).abides ?_ trust S
    intro i s s' h
    exact .inl h

/-! ### Courses -/

/-- What happens to a property in one step, if anything. -/
def Property.Shifts (s s' : Property) : Prop := s.Turn s' ∨ s.Settles (fun _ => True) s'

namespace Stage

variable {s s' : Stage}

/-- Everything in the course of a session keeps to the licenses of the questions. -/
abbrev Licensed (s : Stage) : Prop := s.Abides (License fun _ _ => True) fun _ _ => True

/-- A step that starts from a stage that keeps to the licenses leads to one that does, and shifts
each property at most once. -/
theorem Licensed.moves (h : s.Licensed) (hs : s.Moves s') :
    s'.Licensed ∧ ∀ i, s'.machine.property i = s.machine.property i ∨
      (s.machine.property i).Shifts (s'.machine.property i) := by
  cases hs with
  | next r m step => exact ⟨fun _ _ _ => trivial, fun i => .inl rfl⟩
  | advance hs =>
    refine ⟨h.advance hs (fun q _ => rule_abides q) fun _ _ _ => trivial, fun i => ?_⟩
    refine (hs.property i).imp_right fun hset => ?_
    refine (h.lawful hset).imp_right ?_
    rintro ⟨r, -, -, hsettles⟩
    exact hsettles

/-- In a course each property is shifted from time to time. -/
theorem Licensed.course (h : s.Licensed) (hs : s.Course s') :
    s'.Licensed ∧ ∀ i, ReflTransGen Property.Shifts (s.machine.property i)
      (s'.machine.property i) := by
  induction hs with
  | refl => exact ⟨h, fun i => .refl⟩
  | tail _ hs ih =>
    obtain ⟨h, hshifts⟩ := ih
    obtain ⟨h', hstep⟩ := h.moves hs
    refine ⟨h', fun i => ?_⟩
    rcases hstep i with heq | hshift
    · rw [heq]
      exact hshifts i
    · exact (hshifts i).tail hshift

/-- The start of a session keeps to the licenses. -/
theorem licensed_start (limit : Nat) : (start limit).Licensed := trivial

/-- What comes up in a session keeps to the licenses. -/
theorem Reached.licensed (h : s.Reached) : s.Licensed := by
  obtain ⟨limit, h⟩ := h
  exact ((licensed_start limit).course h).1

/-- Each property of a session has come from a blank one. -/
theorem Reached.shifts (h : s.Reached) (i : Identity) :
    ReflTransGen Property.Shifts .blank (s.machine.property i) := by
  obtain ⟨limit, h⟩ := h
  exact ((licensed_start limit).course h).2 i

end Stage

/-- The same for what an evaluation that does no more than user code may makes of a machine. -/
theorem Eval.Tame.shifts {α : Type} {x : Eval α} (hx : x.Tame) {m n : Machine} {a : α}
    (hr : x.run engine m = some (a, n)) (i : Identity) :
    ReflTransGen Property.Shifts (m.property i) (n.property i) := by
  -- nothing but a reply waits for the result
  let k : Pending α := .elsewhere m (fun _ => .done .done) .nil
  have hstart : Stage.Licensed ⟨x, k, m⟩ :=
    (hx _).imp (fun _ _ _ h => .inl h) (fun _ _ h => h) fun _ _ _ => trivial
  exact (hstart.course (Stage.Advances.course (course_of_run hr k))).2 i

end ProviderGraph
