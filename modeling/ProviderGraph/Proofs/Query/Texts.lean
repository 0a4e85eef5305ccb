import ProviderGraph.Proofs.Property.KeptValues

/-!
# What a text shows

A text is the picture that the open scopes allow: the structure of a provider, with labels for the
providers whose scopes cannot be opened where they stand (`Machine.picture`). Every scope that is
opened takes from the room that the limit leaves, so the picture ends even where properties refer to
each other in a circle. Drawing it runs no code and leaves the machine as it is.
-/

namespace ProviderGraph

open Eval (RaisesOnly)

variable {m n : Machine} {p : Provider} {s : ScopeStack} {o : Owner} {label : String}

/-! ### Scopes that cannot be opened -/

namespace ScopeStack

/-- The scope of an owner cannot be opened: it is open already, or no further scope may be opened. -/
def Refuses (s : ScopeStack) (i : Identity) : Prop := s.isOpen i = true ∨ s.limit ≤ s.depth

instance (s : ScopeStack) (i : Identity) : Decidable (s.Refuses i) :=
  inferInstanceAs (Decidable (_ ∨ _))

def push (s : ScopeStack) (o : Owner) : ScopeStack := { s with frames := o :: s.frames }

/-- A scope that is not refused can be opened. -/
theorem enter_of_not_refuses (h : ¬ s.Refuses o.id) : s.enter o = .ok (s.push o) := by
  obtain ⟨hopen, hlimit⟩ := not_or.mp h
  exact enter_eq_ok_iff.mpr ⟨Bool.eq_false_iff.mpr hopen, Nat.not_le.mp hlimit, rfl⟩

theorem exists_enter_error (h : s.Refuses o.id) : ∃ f, s.enter o = .error f := by
  cases ht : s.enter o with
  | error f => exact ⟨f, rfl⟩
  | ok t =>
    obtain ⟨hopen, hlimit, -⟩ := enter_eq_ok_iff.mp ht
    rcases h with h | h
    · exact absurd (h.symm.trans hopen) (by simp)
    · exact absurd hlimit (Nat.not_lt.mpr h)

/-- There is less room inside a scope. -/
theorem room_push (h : ¬ s.Refuses o.id) : (s.push o).room < s.room :=
  room_lt_of_enter (enter_of_not_refuses h)

end ScopeStack

/-! ### Pictures -/

namespace Machine

/-- The structure of a provider, where a provider whose scope cannot be opened is shown by its
label. -/
def picture (m : Machine) (p : Provider) (label : String) (s : ScopeStack) : String :=
  if s.Refuses p.id then label
  else m.describe (M := Id) (fun q => m.picture q q.kind (s.push ⟨p.id, label⟩)) p
termination_by s.room
decreasing_by exact ScopeStack.room_push ‹_›

/-- A provider whose scope is refused is shown by its label. -/
theorem picture_of_refuses (h : s.Refuses p.id) : m.picture p label s = label := by
  rw [picture, if_pos h]

/-- A provider whose scope is not refused is described inside it. -/
theorem picture_of_not_refuses (h : ¬ s.Refuses p.id) :
    m.picture p label s =
      m.describe (M := Id) (fun q => m.picture q q.kind (s.push ⟨p.id, label⟩)) p := by
  rw [picture, if_neg h]

end Machine

/-! ### Drawing -/

/-- A provider is described by the texts of its parts, and by the states of properties. -/
theorem run_describe {answers : Answerer} {text : Provider → String}
    (hprop : ∀ i, n.property i = m.property i)
    (htext : ∀ q, answers (.text q q.kind) n = some (text q, n)) (p : Provider) :
    (describe p).run answers n = some (m.describe (M := Id) text p, n) := by
  have part (q : Provider) : (Ask.text q).run answers n = some (text q, n) :=
    (Eval.run_ask _ _ _).trans (htext q)
  cases p with
  | fixed | undefined | named => rfl
  | changing i type node calls => cases node <;> rfl
  | map i base | flatMap i base => exact Eval.run_bind_of (part base) _
  | orElse i left right =>
    exact (Eval.run_bind_of (part left) _).trans (Eval.run_bind_of (part right) _)
  | withEffect i inner e => exact part inner
  | property r =>
    simp only [describe, Machine.describe_property]
    cases r.name with
    | some name => rfl
    | none =>
      refine (Eval.run_bind_of (Eval.run_property _ _ _) _).trans ?_
      rw [hprop]
      cases (m.property r.id).effective with
      | none => rfl
      | some q => exact Eval.run_bind_of (part q) _
  | custom i form =>
    simp only [describe, Machine.describe]
    cases form.kind <;> rfl

/-- The text of a provider is its picture. More fuel than there is room for scopes is enough. -/
theorem answer_text {fuel : Nat} (hprop : ∀ i, n.property i = m.property i)
    (hroom : n.stack.room < fuel) (p : Provider) (label : String) :
    answer fuel (.text p label) n = some (m.picture p label n.stack, n) := by
  induction fuel generalizing n p label with
  | zero => exact absurd hroom (Nat.not_lt_zero _)
  | succ fuel ih =>
    rw [answer_succ]
    change (Eval.inScope ⟨p.id, label⟩ (describe p) _).run (answer fuel) n = _
    by_cases h : n.stack.Refuses p.id
    · obtain ⟨f, hf⟩ := ScopeStack.exists_enter_error (o := ⟨p.id, label⟩) h
      simp only [Eval.run, hf, Machine.picture_of_refuses h]
      rfl
    · have ht := ScopeStack.enter_of_not_refuses (o := ⟨p.id, label⟩) h
      have hless : (n.stack.push ⟨p.id, label⟩).room < fuel :=
        Nat.lt_of_lt_of_le (ScopeStack.room_push h) (Nat.le_of_lt_succ hroom)
      have hbody := run_describe (n := { n with stack := n.stack.push ⟨p.id, label⟩ }) hprop
        (fun q => ih (n := { n with stack := n.stack.push ⟨p.id, label⟩ }) hprop hless q q.kind) p
      simp only [Eval.run, ht, hbody, Option.bind_some, Machine.picture_of_not_refuses h,
        ScopeStack.leave_of_enter _ _ ht]
      rfl

/-- The text of a provider is its picture, and drawing it changes nothing. -/
theorem engine_text (m : Machine) (p : Provider) (label : String) :
    engine (.text p label) m = some (m.picture p label m.stack, m) :=
  engine_of_answer (answer_text (fun _ => rfl) (Nat.lt_succ_self _) p label)

namespace Eval.RaisesOnly

variable {P : Query → Prop}

/-- A description asks for texts. -/
theorem describe (hP : ∀ q label, P (.text q label)) (p : Provider) :
    (ProviderGraph.describe p).RaisesOnly P := by
  have text (q : Provider) : (Ask.text q).RaisesOnly P := ask (hP q q.kind)
  cases p with
  | fixed | undefined | changing | named => exact pure _
  | map i base | flatMap i base => exact (text base).bind fun _ => pure _
  | orElse i left right => exact (text left).bind fun _ => (text right).bind fun _ => pure _
  | withEffect i inner => exact text inner
  | property r =>
    rw [ProviderGraph.describe]
    split
    · exact pure _
    · refine .bind (.property _) fun s => ?_
      split
      · exact (text _).bind fun _ => pure _
      · exact pure _
  | custom i form =>
    rw [ProviderGraph.describe]
    split <;> exact pure _

/-- To draw a provider is to ask for texts only. -/
theorem render (hP : ∀ q label, P (.text q label)) (p : Provider) (label : String) :
    (ProviderGraph.render p label).RaisesOnly P :=
  inScope (fun _ => pure _) (describe hP p)

end Eval.RaisesOnly

/-- Nothing but texts comes up for a text. -/
theorem Brings.isText {q : Query} (h : Brings (.text p label) m q n) : q.IsText := by
  refine h.mem (P := fun q _ => q.IsText) ⟨p, label, rfl⟩ ?_
  rintro _ m q' n ⟨p, label, rfl⟩ hr
  exact RaisesOnly.render (P := Query.IsText) (fun q label => ⟨q, label, rfl⟩) p label m q' n hr

/-- A text is only a view. On every machine, whatever refers to itself there, whichever scopes are
open and whatever the limit is, a provider is shown by its picture under its kind and a property
under its label; the machine stays as it is, user code does not run, and fuel is needed only for the
scopes that there is room for. -/
theorem text_is_view (m : Machine) :
    (∀ p fuel, m.stack.room < fuel →
      (Ask.text p).run (answer fuel) m = some (m.picture p p.kind m.stack, m)) ∧
    (∀ r fuel, m.stack.room < fuel →
      (Ask.propertyText r).run (answer fuel) m =
        some (m.picture (.property r) r.label m.stack, m)) ∧
    ∀ p label, engine (.text p label) m = some (m.picture p label m.stack, m) ∧
      ∀ q n, Brings (.text p label) m q n → ¬ q.RunsCode := by
  refine ⟨fun p fuel h => ?_, fun r fuel h => ?_, fun p label => ⟨engine_text m p label, ?_⟩⟩
  · exact (Eval.run_ask _ _ _).trans (answer_text (fun _ => rfl) h p p.kind)
  · exact (Eval.run_ask _ _ _).trans (answer_text (fun _ => rfl) h (.property r) r.label)
  · intro q n h
    obtain ⟨q', label', rfl⟩ := h.isText
    exact id

end ProviderGraph
