import ProviderGraph.Proofs.Identity.RenamedRuns
import ProviderGraph.Proofs.Producer.JoinedTrees
import ProviderGraph.Proofs.Property.Operations

/-!
# The protocol of changes

What was done to a property, from the moment it was made, tells what it holds and which of its locks
are closed (`History.records`). So the history tells which changes are refused, what the property
reads from, and what is named as its producer (`changes_follow_protocol`).
-/

namespace ProviderGraph

variable {m₀ m n : Machine} {r : PropertyRef} {i : Identity} {s s' : Property} {op : Operation}
  {c : Mutation}

/-! ### What a history tells -/

/-- The provider that is set, or that none is set any more. -/
def Mutation.put? : Mutation → Option (Option Provider)
  | .put v => some v
  | .agree _ => none

/-- The provider that becomes the convention. -/
def Mutation.agreed? : Mutation → Option Provider
  | .put _ => none
  | .agree q => some q

namespace Operation

def node? : Operation → Option String
  | .request (.attach node) => some node
  | _ => none

def disallows : Operation → Bool
  | .request .disallowChanges => true
  | _ => false

/-- Whether the operation has the property finalized by the first strict reading. -/
def defers : Operation → Bool
  | .request .finalizeOnRead => true
  | _ => false

/-- The marks are those that the operation makes or that were made before. -/
theorem mark_eq (op : Operation) (s : Property) :
    op.mark s = { s with
      attached := op.node? <|> s.attached
      finalizeOnRead := op.defers || s.finalizeOnRead
      changesDisallowed := op.disallows || s.changesDisallowed } := by
  cases op with
  | request x => cases x <;> rfl
  | _ => rfl

/-- A change marks nothing. -/
theorem marks_of_mutation? (h : op.mutation? i = some c) :
    op.node? = none ∧ op.defers = false ∧ op.disallows = false := by
  cases op with
  | request x =>
    cases x with
    | set | unset => exact ⟨rfl, rfl, rfl⟩
    | _ => cases h
  | _ => exact ⟨rfl, rfl, rfl⟩

end Operation

/-- An operation that was carried out, with the machine that it was carried out on and the reply. -/
structure Entry where
  operation : Operation
  machine : Machine
  reply : Except Failure Reply

/-- The change that was made, if the entry is one that was not refused. -/
def Entry.accepted? (e : Entry) : Option Mutation :=
  match e.reply with
  | .ok _ => e.operation.mutation? e.machine.supply
  | .error _ => none

theorem Entry.accepted?_eq_none {e : Entry}
    (h : e.operation.mutation? e.machine.supply = none) : e.accepted? = none := by
  rw [accepted?]
  split
  · exact h
  · rfl

/-- What was done to a property, with the latest entry first. -/
abbrev Log := List Entry

namespace Log

variable (l : Log)

/-- The provider that was set last, if it was not cleared since. -/
def put : Option Provider := (l.findSome? fun e => e.accepted?.bind Mutation.put?).join

def agreed : Option Provider := l.findSome? fun e => e.accepted?.bind Mutation.agreed?

/-- The provider that the property reads from: the one that was set last and not cleared since, or
else the last convention, wherever it was made. -/
def held : Option Provider := l.put <|> l.agreed

def attached : Option String := l.findSome? fun e => e.operation.node?

/-- Whether changes have ever been disallowed. -/
def closed : Bool := l.any fun e => e.operation.disallows

/-- Whether finalization was ever left to the first strict reading. -/
def deferred : Bool := l.any fun e => e.operation.defers

variable {l : Log} {e : Entry}

/-- Only accepted changes say what was set. -/
theorem put_cons_of_not_accepted (h : e.accepted? = none) : put (e :: l) = l.put := by
  rw [put, List.findSome?_cons_of_isNone (by simp [h])]
  rfl

/-- Only accepted changes say what the convention is. -/
theorem agreed_cons_of_not_accepted (h : e.accepted? = none) : agreed (e :: l) = l.agreed := by
  rw [agreed, List.findSome?_cons_of_isNone (by simp [h])]
  rfl

/-- The work node is that of the last operation that attached one. -/
theorem attached_cons : attached (e :: l) = (e.operation.node? <|> l.attached) := by
  rw [attached, List.findSome?_cons]
  cases e.operation.node? <;> rfl

end Log

/-- The state of a property agrees with the log. -/
structure Property.Records (s : Property) (l : Log) : Prop where
  changesDisallowed : s.changesDisallowed = l.closed
  finalizeOnRead : s.finalizeOnRead = l.deferred
  attached : s.attached = l.attached
  value : s.finalized = false → s.value = l.put
  convention : s.finalized = false → s.convention = l.agreed
  frozenProducer : s.frozenProducer.isSome = s.finalized

namespace Property.Records

variable {l : Log} {e : Entry}

theorem blank : Property.blank.Records [] := ⟨rfl, rfl, rfl, fun _ => rfl, fun _ => rfl, rfl⟩

/-- A property reads from what the log says it holds. -/
theorem effective (h : s.Records l) (hopen : s.finalized = false) : s.effective = l.held := by
  rw [Property.effective, h.value hopen, h.convention hopen, Log.held]

/-- A finalization is no matter of the log. -/
theorem hardens (h : s.Records l) (hs : s.Hardens s') : s'.Records l := by
  cases hs with
  | same => exact h
  | commits p t hopen =>
    rw [commit, if_neg (by simp [hopen])]
    exact ⟨h.changesDisallowed, h.finalizeOnRead, h.attached, fun h => Bool.noConfusion h,
      fun h => Bool.noConfusion h, rfl⟩

/-- An entry that is no change leaves a mark at most. -/
theorem mark (h : s.Records l) (he : e.operation.mutation? e.machine.supply = none) :
    (e.operation.mark s).Records (e :: l) := by
  have he := Entry.accepted?_eq_none he
  rw [Operation.mark_eq]
  exact {
    changesDisallowed := congrArg (e.operation.disallows || ·) h.changesDisallowed
    finalizeOnRead := congrArg (e.operation.defers || ·) h.finalizeOnRead
    attached := by rw [Log.attached_cons, ← h.attached]
    value := fun hopen => (h.value hopen).trans (Log.put_cons_of_not_accepted he).symm
    convention := fun hopen => (h.convention hopen).trans (Log.agreed_cons_of_not_accepted he).symm
    frozenProducer := h.frozenProducer }

/-- An entry that is a change leaves the marks alone. -/
theorem change (h : s.Records l) (hc : e.operation.mutation? e.machine.supply = some c)
    {v q : Option Provider} (hv : s.finalized = false → v = Log.put (e :: l))
    (hq : s.finalized = false → q = Log.agreed (e :: l)) :
    Property.Records { s with value := v, convention := q } (e :: l) := by
  obtain ⟨hnode, hdefers, hdisallows⟩ := Operation.marks_of_mutation? hc
  exact {
    changesDisallowed := by rw [Log.closed, List.any_cons, hdisallows, h.changesDisallowed]; rfl
    finalizeOnRead := by rw [Log.deferred, List.any_cons, hdefers, h.finalizeOnRead]; rfl
    attached := by rw [Log.attached_cons, hnode, h.attached]; rfl
    value := hv
    convention := hq
    frozenProducer := h.frozenProducer }

/-- A change that is refused is not recorded. -/
theorem refused (h : s.Records l) (hc : e.operation.mutation? e.machine.supply = some c)
    (he : e.accepted? = none) : s.Records (e :: l) := by
  refine h.change (v := s.value) (q := s.convention) hc (fun hopen => ?_) fun hopen => ?_
  · rw [h.value hopen, Log.put_cons_of_not_accepted he]
  · rw [h.convention hopen, Log.agreed_cons_of_not_accepted he]

/-- A change that is made is recorded. -/
theorem accepted (h : s.Records l) (hc : e.operation.mutation? e.machine.supply = some c)
    (he : e.accepted? = some c) : (c.apply s).Records (e :: l) := by
  cases c with
  | put v =>
    refine h.change (q := s.convention) hc (fun _ => ?_) fun hopen => ?_
    · simp [Log.put, he, Mutation.put?]
    · rw [h.convention hopen]
      simp [Log.agreed, he, Mutation.agreed?]
  | agree q =>
    refine h.change (v := s.value) hc (fun hopen => ?_) fun _ => ?_
    · rw [h.value hopen]
      simp [Log.put, he, Mutation.put?]
    · simp [Log.agreed, he, Mutation.agreed?]

end Property.Records

/-! ### Locks -/

/-- What is locked on `s` is locked on `s'`. -/
structure Property.StaysLocked (s s' : Property) : Prop where
  finalized : s.finalized = true → s'.finalized = true
  changesDisallowed : s.changesDisallowed = true → s'.changesDisallowed = true

namespace Property.StaysLocked

theorem refl (s : Property) : s.StaysLocked s := ⟨id, id⟩

theorem trans {s'' : Property} (h : s.StaysLocked s') (h' : s'.StaysLocked s'') :
    s.StaysLocked s'' :=
  ⟨h'.finalized ∘ h.finalized, h'.changesDisallowed ∘ h.changesDisallowed⟩

end Property.StaysLocked

/-- A finalization unlocks nothing. -/
theorem Property.Hardens.staysLocked (h : s.Hardens s') : s.StaysLocked s' := by
  cases h with
  | same => exact .refl s
  | commits p t hopen =>
    rw [commit, if_neg (by simp [hopen])]
    exact ⟨fun _ => rfl, id⟩

/-- A change unlocks nothing. -/
theorem Mutation.staysLocked (c : Mutation) (s : Property) : s.StaysLocked (c.apply s) := by
  cases c <;> exact ⟨id, id⟩

/-- No operation opens a lock. -/
theorem Operation.staysLocked {a : Except Failure Reply × Machine} (hspares : op.Spares r m)
    (hm : m.Holds []) (ha : (op.answer r).run.run engine m = some a) :
    (m.property r.id).StaysLocked (a.2.property r.id) := by
  cases hc : op.mutation? m.supply with
  | none =>
    refine .trans ?_ (op.hardens hspares hm hc ha).staysLocked
    rw [op.mark_eq]
    exact ⟨id, fun h => by simp [h]⟩
  | some c =>
    obtain ⟨reply, n⟩ := a
    rcases op.mutation_cases hc ha with ⟨rfl, -⟩ | ⟨rfl, -⟩
    · rw [op.property_prepared]
      exact .refl _
    · rw [Machine.property_setProperty_self]
      exact c.staysLocked _

/-! ### Histories -/

/-- From the machine `m₀` on, what is logged was done to a property, and `m` is the machine
afterwards. User code spares the property. -/
inductive History (r : PropertyRef) (m₀ : Machine) : Log → Machine → Prop where
  | start : History r m₀ [] m₀
  /-- Other things happen, which leave the property as it is. -/
  | aside {l : Log} {m n : Machine} (h : History r m₀ l m)
    (hsame : n.property r.id = m.property r.id) (hn : n.Holds []) : History r m₀ l n
  | operate {l : Log} {m n : Machine} {op : Operation} {reply : Except Failure Reply}
    (h : History r m₀ l m) (hspares : op.Spares r m)
    (hrun : (op.answer r).run.run engine m = some (reply, n)) :
    History r m₀ (⟨op, m, reply⟩ :: l) n

namespace History

variable {l : Log}

/-- No scope is left open in the course of a history. -/
theorem holds (h : History r m₀ l m) (hm₀ : m₀.Holds []) : m.Holds [] := by
  induction h with
  | start => exact hm₀
  | aside _ _ hn _ => exact hn
  | operate _ _ hrun ih => exact Eval.run_holds ih hrun

/-- A new property is as its log tells. -/
theorem records (h : History r m₀ l m) (hm₀ : m₀.Holds []) (hnew : m₀.property r.id = .blank) :
    (m.property r.id).Records l := by
  induction h with
  | start =>
    rw [hnew]
    exact .blank
  | aside _ hsame _ ih =>
    rw [hsame]
    exact ih
  | @operate l m n op reply h hspares hrun ih =>
    cases hc : op.mutation? m.supply with
    | none =>
      have hmark := ih.mark (e := ⟨op, m, reply⟩) hc
      exact hmark.hardens (op.hardens hspares (h.holds hm₀) hc hrun)
    | some c =>
      rcases op.mutation_cases hc hrun with ⟨rfl, f, rfl⟩ | ⟨rfl, rfl, -⟩
      · rw [op.property_prepared]
        exact ih.refused (e := ⟨op, m, .error f⟩) hc rfl
      · rw [Machine.property_setProperty_self]
        exact ih.accepted (e := ⟨op, m, .ok .done⟩) hc hc

/-- No lock is ever opened. -/
theorem staysLocked (h : History r m l n) (hm : m.Holds []) :
    (m.property r.id).StaysLocked (n.property r.id) := by
  induction h with
  | start => exact .refl _
  | aside _ hsame _ ih =>
    rw [hsame]
    exact ih
  | operate h hspares hrun ih => exact ih.trans (Operation.staysLocked hspares (h.holds hm) hrun)

end History

/-! ### What a property reads from -/

/-- Ask the provider that a property reads from, in the scope of the property. -/
def PropertyRef.ask {α : Type} (r : PropertyRef) (held : Option Provider)
    (question : Provider → Attempt α) (otherwise : α) : Attempt α :=
  match held with
  | some q => within (Provider.property r).owner (question q)
  | none => pure otherwise

/-- A reading of a property finalizes it first, if it has to. -/
theorem engine_ownValue_property (r : PropertyRef) (c : Reading) (m : Machine) :
    engine (.ownValue (.property r) c) m =
      (finalizeFor r c >>= fun _ => do
        r.ask (← Eval.property r.id).effective (Ask.value · c) (.missing [])).run.run engine m :=
  engine_eq_rule _ _

/-- A reading that does not finalize asks what the property reads from. -/
theorem engine_ownValue_of_not_mustFinalize {c : Reading}
    (h : (m.property r.id).mustFinalize c = false) :
    engine (.ownValue (.property r) c) m =
      (r.ask (m.property r.id).effective (Ask.value · c) (.missing [])).run.run engine m := by
  rw [engine_ownValue_property]
  exact (Eval.run_bind_ok (run_finalizeFor_of_not_mustFinalize h) _).trans Eval.run_property_bind

/-- What produces the value of a property: the tree that is kept with a value, or else that of the
provider that the property reads from. -/
def Property.valueProducer (s : Property) (r : PropertyRef) : Attempt Producer :=
  match s.frozenProducer with
  | some t => pure t
  | none => r.ask s.effective Ask.producer .none

/-- The attached work node is joined in front of what produces the value. -/
theorem engine_producer_property (r : PropertyRef) (m : Machine) :
    engine (.producer (.property r)) m =
      ((Producer.ofOption (m.property r.id).attached).plus <$>
        (m.property r.id).valueProducer r).run.run engine m := by
  rw [engine_eq_rule]
  refine Eval.run_property_bind.trans ?_
  rw [Property.valueProducer]
  cases (m.property r.id).frozenProducer with
  | some t => rfl
  | none =>
    cases (m.property r.id).effective with
    | none => exact congrArg (fun t => some (Except.ok t, m)) (Producer.plus_none _).symm
    | some q => rfl

/-- On the machine `m` the property reads from the provider `held`, and has nothing to read
otherwise. A strict reading that has to finalize it does so first. -/
structure Machine.ReadsFrom (m : Machine) (r : PropertyRef) (held : Option Provider) : Prop where
  value : ∀ c, (m.property r.id).mustFinalize c = false →
    engine (.ownValue (.property r) c) m =
      (r.ask held (Ask.value · c) (.missing [])).run.run engine m
  presence : ∀ c, engine (.presence (.property r) c) m =
    (r.ask held (Ask.presence · c) false).run.run engine m
  classification : engine (.classification (.property r)) m =
    (r.ask held Ask.classification (.missing [])).run.run engine m
  producer : (m.property r.id).valueProducer r = r.ask held Ask.producer .none
  finalize : engine (.finalize r) m =
    (computeFrozen r held >>= fun k =>
      (updateProperty r.id (·.commit k.1 k.2) : Attempt Unit)).run.run engine m
  strict : (m.property r.id).mustFinalize .strict = true →
    engine (.ownValue (.property r) .strict) m =
      (Ask.finalize r >>= fun _ => Ask.ownValue (.property r) .strict).run.run engine m

/-- Computations that start alike and go on alike end alike. -/
theorem Eval.run_bindExcept_congr {ε α β : Type} {x y : ExceptT ε Eval α}
    {f g : α → ExceptT ε Eval β} (hx : x.run.run engine m = y.run.run engine m)
    (hf : ∀ a n, x.run.run engine m = some (.ok a, n) →
      (f a).run.run engine n = (g a).run.run engine n) :
    (x >>= f).run.run engine m = (y >>= g).run.run engine m := by
  rw [ExceptT.run_bind, ExceptT.run_bind, Eval.run_bind, Eval.run_bind, ← hx]
  refine Option.bind_congr fun a ha => ?_
  obtain ⟨e | a, n⟩ := a
  · rfl
  · exact hf a n ha

/-- A property that is not finalized reads from what it holds. -/
theorem Machine.readsFrom (hopen : (m.property r.id).finalized = false)
    (hfrozen : (m.property r.id).frozenProducer = none) :
    m.ReadsFrom r (m.property r.id).effective where
  value c hc := engine_ownValue_of_not_mustFinalize hc
  presence c := (engine_eq_rule _ _).trans Eval.run_property_bind
  classification := (engine_eq_rule _ _).trans Eval.run_property_bind
  producer := by rw [Property.valueProducer, hfrozen]
  finalize := run_evalFinalize_of_open hopen
  strict hmust := by
    rw [engine_ownValue_property]
    refine Eval.run_bindExcept_congr ?_ fun _ n hfin => ?_
    · exact (run_finalizeFor_of_mustFinalize hmust).trans (Eval.run_ask _ _ _).symm
    · -- the property is finalized now, so that it is read as it is
      rw [run_finalizeFor_of_mustFinalize hmust] at hfin
      obtain ⟨p, t, k, -, rfl⟩ := run_computeFrozen_of_finalize_ok hopen hfin
      refine Eval.run_property_bind.trans (Eq.trans ?_
        (Eval.run_ask engine _ (.ownValue (.property r) .strict)).symm)
      refine (engine_ownValue_of_not_mustFinalize ?_).symm
      rw [Machine.property_setProperty_self]
      exact Bool.eq_false_iff.mpr fun hm => by simp [Property.mustFinalize] at hm

/-- What is refused takes an identity at most, which makes no difference to what a session tells. -/
theorem Operation.reports_of_refused (hm : m.Supported) (hc : op.mutation? m.supply = some c)
    {f : Failure} (hrun : (op.answer r).run.run engine m = some (.error f, n)) :
    ∃ d, ∀ fuel ss, Session.reports fuel ss n =
      (Session.reports fuel ss m).map (List.map (Report.rename (Renaming.gap m.supply d))) := by
  obtain ⟨rfl, -⟩ | ⟨-, hreply, -⟩ := op.mutation_cases hc hrun
  · obtain ⟨d, hd⟩ := op.exists_prepared_eq m
    rw [hd]
    exact ⟨d, hm.reports d⟩
  · cases hreply

/-- What was done to a property since it was made, with user code that spares it, tells how it goes
on. A change is refused for good once the property is finalized, and else if changes have ever been
disallowed; it is made otherwise. After one that is refused a session goes on to tell what it would
have told, but for identities. Until it is finalized, the property reads from the provider that was
set last and not cleared since, or else from the last convention, whether changes are disallowed or
not; it may still be finalized then. An attached work node comes before what produces the value. No
lock is ever opened. -/
theorem changes_follow_protocol {l : Log} (hm₀ : m₀.Holds []) (hnew : m₀.property r.id = .blank)
    (h : History r m₀ l m) :
    (∀ (op : Operation) c, op.mutation? m.supply = some c →
      (op.answer r).run.run engine m =
        if (m.property r.id).finalized then
          some (.error (.fault (.finalized r.label)), op.prepared m)
        else if l.closed then
          some (.error (.fault (.changesDisallowed r.label)), op.prepared m)
        else some (.ok .done, (op.prepared m).setProperty r.id (c.apply (m.property r.id)))) ∧
    (m.Supported → ∀ (op : Operation) c f n, op.mutation? m.supply = some c →
      (op.answer r).run.run engine m = some (.error f, n) →
      ∃ d, ∀ fuel ss, Session.reports fuel ss n =
        (Session.reports fuel ss m).map (List.map (Report.rename (Renaming.gap m.supply d)))) ∧
    ((m.property r.id).finalized = false →
      m.ReadsFrom r l.held ∧
      (∃ n, ((Operation.request .disallowChanges).answer r).run.run engine m = some (.ok .done, n) ∧
        (n.property r.id).finalized = false ∧ n.ReadsFrom r l.held) ∧
      ∀ p t k, (computeFrozen r l.held).run.run engine m = some (.ok (p, t), k) →
        ∃ n, engine (.finalize r) m = some (.ok (), n) ∧ (n.property r.id).finalized = true) ∧
    engine (.producer (.property r)) m =
      ((Producer.ofOption l.attached).plus <$>
        (m.property r.id).valueProducer r).run.run engine m ∧
    (∀ t, ((Producer.ofOption l.attached).plus t).visit = l.attached.toList ++ t.visit) ∧
    ∀ l' n, History r m l' n → (m.property r.id).StaysLocked (n.property r.id) := by
  have hrecords := h.records hm₀ hnew
  -- a property that is not finalized reads from what the log tells
  have reads {l : Log} {n : Machine} (hrecords : (n.property r.id).Records l)
      (hopen : (n.property r.id).finalized = false) : n.ReadsFrom r l.held := by
    rw [← hrecords.effective hopen]
    have hfrozen := hrecords.frozenProducer
    rw [hopen, Option.isSome_eq_false_iff, Option.isNone_iff_eq_none] at hfrozen
    exact Machine.readsFrom hopen hfrozen
  refine ⟨fun op c hc => ?_, fun hm op c f n hc hrun => op.reports_of_refused hm hc hrun,
    fun hopen => ⟨reads hrecords hopen, ?_, ?_⟩, ?_, fun t => ?_,
    fun l' n h' => h'.staysLocked (h.holds hm₀)⟩
  · rw [op.run_mutation r hc, hrecords.changesDisallowed]
  · have hn := m.property_setProperty_self r.id (m.property r.id).disallowChanges
    have hopen' := (congrArg Property.finalized hn).trans hopen
    -- the log with this entry tells of the same provider
    let e : Entry := ⟨.request .disallowChanges, m, .ok .done⟩
    have hrecords' : (m.property r.id).disallowChanges.Records (e :: l) := hrecords.mark (e := e) rfl
    rw [← hn] at hrecords'
    exact ⟨m.setProperty r.id _, rfl, hopen', reads (l := e :: l) hrecords' hopen'⟩
  · intro p t k hk
    refine ⟨k.setProperty r.id ((k.property r.id).commit p t), ?_, ?_⟩
    · rw [(reads hrecords hopen).finalize]
      exact Eval.run_bind_ok hk _
    · rw [Machine.property_setProperty_self, Property.finalized_commit]
  · rw [engine_producer_property, hrecords.attached]
  · rw [Producer.visit_plus]
    cases l.attached <;> rfl

/-! ### Fixed sessions -/

def newPropertySession : List Step :=
  [.newProperty "p" .int none, .provider (.fixed (.int 1)) (.keep "q")]

def newPropertyMachine : Machine :=
  (Session.played 9 newPropertySession (.fresh 8)).getD (.fresh 8)

/-- The session goes on: the provider is made the convention, a payload is set and cleared again, a
work node is attached, and changes are disallowed. -/
def closedPropertySession : List Step :=
  newPropertySession ++ [.convention "p" (.register "q"), .property "p" (.set (.int 2)),
    .property "p" .unset, .property "p" (.attach "a"), .property "p" .disallowChanges]

def closedPropertyMachine : Machine :=
  (Session.played 9 closedPropertySession (.fresh 8)).getD (.fresh 8)

/-- The machine refers to no identity that is yet to be handed out. -/
theorem closedPropertyMachine_supported : closedPropertyMachine.Supported :=
  ((Machine.Reached.fresh 8).played 9 closedPropertySession rfl).supported

/-- What was done to the property in this session. A payload is refused now, which makes no
difference to what the session goes on to tell. The property is still finalized, with the payload of
the convention. -/
theorem changes_follow_protocol_closedPropertyMachine :
    ∃ l n k, History ⟨0, .int, none⟩ newPropertyMachine l closedPropertyMachine ∧
      l.held = some (.fixed 1 (.int 1)) ∧ l.attached = some "a" ∧
      closedPropertyMachine.ReadsFrom ⟨0, .int, none⟩ (some (.fixed 1 (.int 1))) ∧
      ((Operation.request (.set (.int 3))).answer ⟨0, .int, none⟩).run.run engine
        closedPropertyMachine = some (.error (.fault (.changesDisallowed "property")), n) ∧
      (∃ d, ∀ fuel ss, Session.reports fuel ss n =
        (Session.reports fuel ss closedPropertyMachine).map
          (List.map (Report.rename (Renaming.gap closedPropertyMachine.supply d)))) ∧
      engine (.finalize ⟨0, .int, none⟩) closedPropertyMachine = some (.ok (), k) ∧
      (k.property 0).finalized = true := by
  let r : PropertyRef := ⟨0, .int, none⟩
  have write {l m reply n} (op : Operation) (h : History r newPropertyMachine l m) (hop : op.Writes)
      (hrun : (op.answer r).run.run engine m = some (reply, n)) :
      History r newPropertyMachine (⟨op, m, reply⟩ :: l) n := h.operate hop.spares hrun
  have h₁ := write (.convention (.fixed 1 (.int 1))) .start trivial rfl
  have h₂ := write (.request (.set (.int 2))) h₁ trivial rfl
  have h₃ := write (.request .unset) h₂ trivial rfl
  have h₄ := write (.request (.attach "a")) h₃ trivial rfl
  have h₅ := write (.request .disallowChanges) h₄ trivial rfl
  -- the steps of the session do nothing else to the property
  have h : History r newPropertyMachine _ closedPropertyMachine :=
    h₅.aside rfl (.of_scopes_eq_nil rfl)
  obtain ⟨hchange, hrefused, hopen, -⟩ := changes_follow_protocol (.of_scopes_eq_nil rfl) rfl h
  obtain ⟨hreads, -, hfinalize⟩ := hopen rfl
  obtain ⟨n, hn, hfinalized⟩ := hfinalize _ _ _ (Eval.run_engine_of_answer 9 rfl)
  have hrun := hchange (.request (.set (.int 3))) _ rfl
  exact ⟨_, _, n, h, rfl, rfl, hreads, hrun,
    hrefused closedPropertyMachine_supported _ _ _ _ rfl hrun, hn, hfinalized⟩

end ProviderGraph
