import ProviderGraph.Proofs.Engine.RaisedQuestions
import ProviderGraph.Proofs.Property.SessionChanges
import ProviderGraph.Proofs.Reference.EngineAgreement

/-!
# What a property keeps

Once a property keeps a value nothing that happens in a session takes it away
(`Property.Shifts.keeps`), and every question about the property has it as the answer
(`Machine.gives_of_keeps`): the only scopes that are opened are those of the property and of the
provider that was made for the value, and no user code runs.
-/

namespace ProviderGraph

open Relation (ReflTransGen)
open Eval (RaisesOnly)

/-! ### The state of a property -/

namespace Property

variable {s s' : Property} {p : Provider} {w : Outcome}

/-- The property is finalized, and the provider made for its value is `p`. -/
structure Keeps (s : Property) (p : Provider) (w : Outcome) : Prop where
  finalized : s.finalized = true
  value : s.value = some p
  kept : p.kept? = some w

/-- A property is either finalized, and keeps a value, or nothing was left in it by a
finalization. -/
structure Settled (s : Property) : Prop where
  keeps : s.finalized = true → ∃ p w, s.Keeps p w
  unfrozen : s.finalized = false → s.frozenProducer = none

/-- A new property keeps nothing. -/
theorem settled_blank : blank.Settled where
  keeps h := nomatch h
  unfrozen _ := rfl

/-- A property that keeps a value reads from what was made for it. -/
theorem Keeps.effective (h : s.Keeps p w) : s.effective = some p := by
  rw [Property.effective, h.value]
  rfl

theorem keeps_commit {t : Producer} (hs : s.finalized = false) (hp : p.kept? = some w) :
    (s.commit p t).Keeps p w := by
  rw [commit, if_neg (by simp [hs])]
  exact ⟨rfl, rfl, hp⟩

/-- What is kept is not changed by user code, nor by another finalization. -/
theorem Shifts.keeps (h : s.Shifts s') (hs : s.Keeps p w) : s'.Keeps p w := by
  rcases h with h | ⟨frozen, t, _, -, -, rfl⟩
  · cases h with
    | put v h | convention q h => exact absurd (h.symm.trans hs.finalized) (by simp)
    | attach | markFinalizeOnRead | disallowChanges => exact ⟨hs.finalized, hs.value, hs.kept⟩
  · rw [commit_of_finalized hs.finalized]
    exact hs

/-- One step leaves a property that keeps a value or that was never finalized. -/
theorem Shifts.settled (h : s.Shifts s') (hs : s.Settled) : s'.Settled := by
  rcases h with h | ⟨frozen, t, w, -, hw, rfl⟩
  · refine ⟨fun hf => ?_, fun hf => ?_⟩
    · have hf : s.finalized = true := by cases h <;> exact hf
      obtain ⟨p, w, hk⟩ := hs.keeps hf
      exact ⟨p, w, Shifts.keeps (.inl h) hk⟩
    · cases h <;> exact hs.unfrozen hf
  · cases hf : s.finalized with
    | true =>
      rw [commit_of_finalized hf]
      exact hs
    | false =>
      refine ⟨fun _ => ⟨frozen, w, keeps_commit hf hw⟩, fun h => ?_⟩
      rw [finalized_commit] at h
      cases h

/-- A value that is kept is kept, whatever steps follow. -/
theorem Keeps.shifts (hs : s.Keeps p w) (h : ReflTransGen Shifts s s') : s'.Keeps p w := by
  induction h with
  | refl => exact hs
  | tail _ h ih => exact h.keeps ih

/-- Any steps leave a property that keeps a value or that was never finalized. -/
theorem Settled.shifts (hs : s.Settled) (h : ReflTransGen Shifts s s') : s'.Settled := by
  induction h with
  | refl => exact hs
  | tail _ h ih => exact h.settled ih

end Property

/-- Every property of a session is settled, at every stage. -/
theorem Stage.Reached.settled {s : Stage} (h : s.Reached) (i : Identity) :
    (s.machine.property i).Settled := Property.settled_blank.shifts (h.shifts i)

/-- Wherever a question comes up, a finalized property keeps a value. -/
theorem Occurs.settled {q : Query} {m : Machine} (h : Occurs q m) (i : Identity) :
    (m.property i).Settled := by
  obtain ⟨β, next, k, hs⟩ := h.stage
  exact hs.settled i

/-- Between the steps of a session a finalized property keeps a value. -/
theorem Machine.Reached.settled {m : Machine} (h : m.Reached) (i : Identity) :
    (m.property i).Settled := by
  obtain ⟨r, hs⟩ := h.stage
  exact hs.settled i

/-- What a property keeps it keeps for the rest of the session. -/
theorem Stage.Reached.keeps {s s' : Stage} {i : Identity} {p : Provider} {w : Outcome}
    (h : s.Reached) (hs : s.Course s') (hk : (s.machine.property i).Keeps p w) :
    (s'.machine.property i).Keeps p w := hk.shifts ((h.licensed.course hs).2 i)

/-! ### Answers about what is kept -/

/-- Open the scopes of several owners, one inside the other. -/
def ScopeStack.enterAll (s : ScopeStack) (os : List Owner) : Except Fault ScopeStack :=
  os.foldlM enter s

theorem ScopeStack.enterAll_cons (s : ScopeStack) (o : Owner) (os : List Owner) :
    s.enterAll (o :: os) = s.enter o >>= fun t => t.enterAll os := List.foldlM_cons

/-- The scope that a provider which was made for a value opens to give it. -/
def Provider.keptScopes (p : Provider) : List Owner :=
  match p with
  | .withEffect _ _ _ => [p.owner]
  | _ => []

variable {m n : Machine} {p : Provider} {w : Outcome} {c : Reading} {r : PropertyRef} {d : Demand}

/-- A part that runs in a scope and leaves the machine as it is, if the scope can be opened. -/
theorem run_within_of_enters {α : Type} {o : Owner} {x : Attempt α} {os : List Owner} {a : α}
    (hx : ∀ m, x.run.run engine m = some ((m.stack.enterAll os).map fun _ => a, m)) :
    (within o x).run.run engine m = some ((m.stack.enterAll (o :: os)).map fun _ => a, m) := by
  rw [ScopeStack.enterAll_cons]
  cases ht : m.stack.enter o with
  | error f => exact Eval.run_within_error ht rfl
  | ok t => exact Eval.run_within ht (hx { m with stack := t })

/-- What is done with the result of such a part. -/
theorem run_bind_of_enters {α β : Type} {x : Attempt α} {f : α → Attempt β} {os : List Owner}
    {a : α} {b : β} (hx : x.run.run engine m = some ((m.stack.enterAll os).map fun _ => a, m))
    (hf : (f a).run.run engine m = some (.ok b, m)) :
    (x >>= f).run.run engine m = some ((m.stack.enterAll os).map fun _ => b, m) := by
  cases hs : m.stack.enterAll os with
  | error e =>
    rw [hs] at hx
    exact Eval.run_bind_error hx f
  | ok t =>
    rw [hs] at hx
    exact (Eval.run_bind_ok hx f).trans hf

namespace Provider

/-- A provider that is kept gives a payload, a payload with an effect, or nothing. -/
theorem kept?_eq_some_iff :
    p.kept? = some w ↔ (∃ i x, p = .fixed i x ∧ w = .present x none) ∨
      (∃ i j x e, p = .withEffect i (.fixed j x) e ∧ w = .present x (some e)) ∨
      ∃ i type path, p = .undefined i type path ∧ w = .missing path := by
  constructor
  · intro h
    cases p with
    | fixed i x =>
      cases h
      exact .inl ⟨i, x, rfl, rfl⟩
    | undefined i type path =>
      cases h
      exact .inr (.inr ⟨i, type, path, rfl, rfl⟩)
    | withEffect i inner e =>
      cases inner with
      | fixed j x =>
        cases h
        exact .inr (.inl ⟨i, j, x, e, rfl, rfl⟩)
      | _ => cases h
    | _ => cases h
  · rintro (⟨i, x, rfl, rfl⟩ | ⟨i, j, x, e, rfl, rfl⟩ | ⟨i, type, path, rfl, rfl⟩) <;> rfl

/-- To give its value a kept provider only has to open its scopes. -/
theorem run_ownValue_of_kept? (hp : p.kept? = some w) (c : Reading) (m : Machine) :
    (Ask.ownValue p c).run.run engine m =
      some ((m.stack.enterAll p.keptScopes).map fun _ => w, m) := by
  refine (Ask.run_rule (.ownValue p c) m).trans ?_
  rcases kept?_eq_some_iff.mp hp with
    ⟨i, x, rfl, rfl⟩ | ⟨i, j, x, e, rfl, rfl⟩ | ⟨i, type, path, rfl, rfl⟩
  · rfl
  · refine run_bind_of_enters (run_within_of_enters (a := .present x none) fun m => ?_) rfl
    exact Eval.run_bind_ok (Ask.run_rule (.ownValue (.fixed j x) c) m) _
  · rfl

/-- What was made for a value gives this value. -/
theorem run_value_of_kept? (hp : p.kept? = some w) (c : Reading) (m : Machine) :
    (Ask.value p c).run.run engine m =
      some ((m.stack.enterAll p.keptScopes).map fun _ => w, m) := by
  have hname : w.push p.declaredName = w := by
    rcases kept?_eq_some_iff.mp hp with
      ⟨i, x, rfl, rfl⟩ | ⟨i, j, x, e, rfl, rfl⟩ | ⟨i, type, path, rfl, rfl⟩ <;> rfl
  refine run_bind_of_enters (run_ownValue_of_kept? hp c m) ?_
  rw [hname]
  rfl

/-- To tell of its presence a kept provider only has to open its scopes. -/
theorem run_presence_of_kept? (hp : p.kept? = some w) (c : Reading) (m : Machine) :
    (Ask.presence p c).run.run engine m =
      some ((m.stack.enterAll p.keptScopes).map fun _ => !w.isMissing, m) := by
  refine (Ask.run_rule (.presence p c) m).trans ?_
  rcases kept?_eq_some_iff.mp hp with
    ⟨i, x, rfl, rfl⟩ | ⟨i, j, x, e, rfl, rfl⟩ | ⟨i, type, path, rfl, rfl⟩
  · rfl
  · exact run_within_of_enters fun m => Ask.run_rule (.presence (.fixed j x) c) m
  · rfl

/-- To be classified a kept provider only has to open its scopes. -/
theorem run_classification_of_kept? (hp : p.kept? = some w) (m : Machine) :
    (Ask.classification p).run.run engine m =
      some ((m.stack.enterAll p.keptScopes).map fun _ => .ofValue w, m) := by
  refine (Ask.run_rule (.classification p) m).trans ?_
  rcases kept?_eq_some_iff.mp hp with
    ⟨i, x, rfl, rfl⟩ | ⟨i, j, x, e, rfl, rfl⟩ | ⟨i, type, path, rfl, rfl⟩
  · rfl
  · refine run_bind_of_enters (run_within_of_enters (a := .fixed x none) fun m => ?_) rfl
    exact Ask.run_rule (.classification (.fixed j x)) m
  · rfl

end Provider

/-! ### Questions that come up -/

/-- The question is about a provider that was made for a value. -/
def Query.AboutKept (q : Query) : Prop :=
  ∃ (d : Demand) (c : Reading), q = d.query c ∧ d.provider.kept?.isSome

/-- The question is answered by user code. -/
def Query.RunsCode : Query → Prop
  | .act _ _ _ | .build _ _ | .step _ => True
  | _ => False

/-- Questions about what is kept are not answered by user code. -/
theorem Query.AboutKept.not_runsCode {q : Query} (h : q.AboutKept) : ¬ q.RunsCode := by
  obtain ⟨d, c, rfl, -⟩ := h
  cases d <;> exact id

/-- What was made for a value asks nothing but its payload. -/
theorem Query.AboutKept.raisesOnly {q : Query} (h : q.AboutKept) :
    (rule q).RaisesOnly Query.AboutKept := by
  obtain ⟨d, c, rfl, hp⟩ := h
  obtain ⟨w, hp⟩ := Option.isSome_iff_exists.mp hp
  rcases Provider.kept?_eq_some_iff.mp hp with
    ⟨i, x, hd, -⟩ | ⟨i, j, x, e, hd, -⟩ | ⟨i, type, path, hd, -⟩
  · cases d <;> cases hd <;> exact .pure _
  · have inner (d : Demand) (hd : d.provider = .fixed j x) (c : Reading) :
        (d.query c).AboutKept := ⟨d, c, rfl, by rw [hd]; rfl⟩
    cases d with
    | value p =>
      cases hd
      refine .bindExcept (.within ?_) fun _ => .pure _
      exact .bindExcept (.ask (inner (.value _) rfl c)) fun _ => .pure _
    | presence p =>
      cases hd
      exact .within (.ask (inner (.presence _) rfl c))
    | producer p =>
      cases hd
      exact .within (.ask (inner (.producer _) rfl c))
    | classification p =>
      cases hd
      refine .bindExcept (.within (.ask (inner (.classification _) rfl c))) fun x => ?_
      cases x with
      | changing => exact .lift (.bind .identity fun _ => .pure _)
      | _ => exact .pure _
  · cases d <;> cases hd <;> exact .pure _

/-- Questions about what is kept lead to such questions only. -/
theorem Brings.aboutKept {q q' : Query} (h : Brings q m q' n) (hq : q.AboutKept) : q'.AboutKept :=
  h.mem (P := fun q _ => q.AboutKept) hq fun _ _ _ _ hq hr => hq.raisesOnly _ _ _ hr

/-! ### Questions about a property -/

/-- Whatever is asked about a property, the answer is told by a value: its payload or its path, and
its effect. To give it only the scopes of `os` are opened, and no user code runs. -/
structure Machine.Gives (m : Machine) (r : PropertyRef) (w : Outcome) (os : List Owner) :
    Prop where
  value (c : Reading) : (Ask.value (.property r) c).run.run engine m =
    some ((m.stack.enterAll os).map fun _ => w.push r.name, m)
  presence (c : Reading) : (Ask.presence (.property r) c).run.run engine m =
    some ((m.stack.enterAll os).map fun _ => !w.isMissing, m)
  classification : (Ask.classification (.property r)).run.run engine m =
    some ((m.stack.enterAll os).map fun _ => .ofValue w, m)
  quiet {d : Demand} (hd : d.provider = .property r) (c : Reading) {q : Query} {n : Machine}
    (h : Brings (d.query c) m q n) : ¬ q.RunsCode

section

variable (h : (m.property r.id).Keeps p w)

include h

/-- A property that keeps a value need not be finalized. -/
theorem Property.Keeps.mustFinalize (c : Reading) :
    (m.property r.id).mustFinalize c = false := by
  cases c with
  | strict => simp [Property.mustFinalize, h.finalized]
  | lenient => rfl

/-- Nothing is done to finalize a property that keeps a value. -/
theorem Property.Keeps.run_finalizeFor (c : Reading) :
    (finalizeFor r c).run.run engine m = some (.ok (), m) :=
  run_finalizeFor_of_not_mustFinalize (h.mustFinalize c)

/-- A property gives what it keeps, under its name, where its scopes can be opened. -/
theorem Property.Keeps.run_value (c : Reading) :
    (Ask.value (.property r) c).run.run engine m =
      some ((m.stack.enterAll ((Provider.property r).owner :: p.keptScopes)).map
        fun _ => w.push r.name, m) := by
  refine run_bind_of_enters (a := w) ((Ask.run_rule (.ownValue (.property r) c) m).trans ?_) rfl
  refine (Eval.run_bind_ok (h.run_finalizeFor c) _).trans ?_
  refine Eval.run_property_bind.trans ?_
  rw [h.effective]
  exact run_within_of_enters (Provider.run_value_of_kept? h.kept c)

/-- A property is present where it keeps a payload. -/
theorem Property.Keeps.run_presence (c : Reading) :
    (Ask.presence (.property r) c).run.run engine m =
      some ((m.stack.enterAll ((Provider.property r).owner :: p.keptScopes)).map
        fun _ => !w.isMissing, m) := by
  refine (Ask.run_rule (.presence (.property r) c) m).trans ?_
  refine Eval.run_property_bind.trans ?_
  rw [h.effective]
  exact run_within_of_enters (Provider.run_presence_of_kept? h.kept c)

/-- A property is classified by what it keeps. -/
theorem Property.Keeps.run_classification :
    (Ask.classification (.property r)).run.run engine m =
      some ((m.stack.enterAll ((Provider.property r).owner :: p.keptScopes)).map
        fun _ => .ofValue w, m) := by
  refine (Ask.run_rule (.classification (.property r)) m).trans ?_
  refine Eval.run_property_bind.trans ?_
  rw [h.effective]
  exact run_within_of_enters (Provider.run_classification_of_kept? h.kept)

/-- The property asks the provider that was made for its value, and nothing else. -/
theorem Property.Keeps.raises {c : Reading} (hd : d.provider = .property r) {q : Query}
    (hr : (rule (d.query c)).Raises m q n) : q.AboutKept := by
  have asks (d : Demand) (hd : d.provider = p) (c : Reading) : (d.query c).AboutKept :=
    ⟨d, c, rfl, by rw [hd, h.kept]; rfl⟩
  cases d with
  | value q =>
    cases hd
    rcases Eval.raises_bindExcept.mp hr with hr | ⟨_, m₁, hm₁, hr⟩
    · have hr := Eval.raises_property_bind.mp hr
      rw [h.mustFinalize] at hr
      exact hr.elim
    · cases (h.run_finalizeFor c).symm.trans hm₁
      have hr := Eval.raises_property_bind.mp hr
      rw [h.effective] at hr
      exact RaisesOnly.within (.bindExcept (.ask (asks (.value p) rfl c)) fun _ => .pure _) _ _ _ hr
  | presence q =>
    cases hd
    have hr := Eval.raises_property_bind.mp hr
    rw [h.effective] at hr
    exact RaisesOnly.within (.ask (asks (.presence p) rfl c)) _ _ _ hr
  | producer q =>
    cases hd
    have hr := Eval.raises_property_bind.mp hr
    rw [h.effective] at hr
    dsimp only at hr
    split at hr
    · exact hr.elim
    · next hq =>
      cases hq
      refine RaisesOnly.bindExcept (.within ?_) (fun _ => .pure _) _ _ _ hr
      exact .ask (asks (.producer p) rfl c)
    · next hq => cases hq
  | classification q =>
    cases hd
    have hr := Eval.raises_property_bind.mp hr
    rw [h.effective] at hr
    exact RaisesOnly.within (.ask (asks (.classification p) rfl c)) _ _ _ hr

/-- What a property keeps is what it gives from then on. -/
theorem Machine.gives_of_keeps :
    m.Gives r w ((Provider.property r).owner :: p.keptScopes) where
  value := h.run_value
  presence := h.run_presence
  classification := h.run_classification
  quiet {d} hd c q n hq := by
    cases hq with
    | self =>
      cases d <;> exact id
    | raised hr hq => exact (hq.aboutKept (h.raises hd hr)).not_runsCode

end

end ProviderGraph
