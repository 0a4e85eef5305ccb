import ProviderGraph.Proofs.Engine.AttemptComposition
import ProviderGraph.Proofs.Property.SparedProperties

/-!
# Operations on a property

What can be done to a property, each operation as a session carries it out. The changes that a lock
refuses are put in one form (`Mutation`), with one equation for their outcome (`run_mutation`).
Whatever else is done leaves the property as it is, but for a mark, or finalizes it
(`Operation.hardens`).
-/

namespace ProviderGraph

variable {α : Type} {m n : Machine} {r : PropertyRef} {q : Query} {i : Identity}
  {s s' : Property}

/-! ### Properties that are finalized meanwhile -/

/-- The property is as it was, or has been finalized. -/
inductive Property.Hardens (s : Property) : Property → Prop where
  | same : Hardens s s
  | commits (p : Provider) (t : Producer) (h : s.finalized = false) : Hardens s (s.commit p t)

theorem Property.Hardens.trans {s'' : Property} (h : s.Hardens s') (h' : s'.Hardens s'') :
    s.Hardens s'' := by
  cases h with
  | same => exact h'
  | commits p t h =>
    cases h' with
    | same => exact .commits p t h
    | commits _ _ hopen => exact absurd ((s.finalized_commit p t).symm.trans hopen) (by simp)

/-- A question that user code spares the property in leaves it as it is, or finalizes it. -/
theorem Query.Spares.hardens (h : q.Spares m i) (hm : m.Holds []) {a : q.Answer × Machine}
    (ha : engine q m = some a) : (m.property i).Hardens (a.2.property i) := by
  refine engine_keeps (L := fun S S' => (S i).Hardens (S' i))
    (C := fun q m => q.Spares m i ∧ m.Holds []) (fun _ => .same) (fun h h' => h.trans h')
    ?_ ?_ ?_ ⟨h, hm⟩ ha
  · rintro q m q' n ⟨hspares, hm⟩ hcode hr -
    exact ⟨hspares.raised hr, (rule_upfront hcode m q' n hr).holds hm⟩
  · rintro q m a ⟨hspares, -⟩ hcode ha
    rw [hspares q m .self hcode a ha]
    exact .same
  · rintro r m p t k ⟨hspares, hm⟩ hopen hk hn
    by_cases hi : i = r.id
    · subst hi
      rw [Machine.property_setProperty_self, hspares.property_of_computeFrozen hm hopen hk]
      exact .commits p t hopen
    · rw [k.property_setProperty_of_ne hi]
      exact hn

/-- The evaluation raises questions that user code spares the property in. -/
def Eval.Spares (x : Eval α) (m : Machine) (i : Identity) : Prop :=
  ∀ q n, x.Raises m q n → q.Spares n i

/-- An evaluation that changes no property by itself leaves the property as it is, or has it
finalized. -/
theorem Eval.Inert.hardens {x : Eval α} (hx : x.Inert) (hup : x.Upfront) (hspares : x.Spares m i)
    (hm : m.Holds []) {a : α × Machine} (ha : x.run engine m = some a) :
    (m.property i).Hardens (a.2.property i) := by
  refine hx.keeps (L := fun S S' => (S i).Hardens (S' i)) (fun _ => .same) (fun h h' => h.trans h')
    ?_ ha
  intro q n hr _ s hs
  exact (hspares q n hr).hardens ((hup m q n hr).holds hm) hs

/-! ### Operations -/

/-- What can be done to a property: requests, changes that take a provider, and requests to
providers, which may read it. -/
inductive Operation where
  | request (x : PropertyRequest)
  | setProvider (q : Provider)
  | convention (q : Provider)
  | ask (p : Provider) (x : ProviderRequest)

/-- A change that the locks of a property refuse. -/
inductive Mutation where
  /-- Set the provider that the property reads from, or clear it. -/
  | put (v : Option Provider)
  | agree (q : Provider)

def Mutation.apply : Mutation → Property → Property
  | .put v, s => { s with value := v }
  | .agree q, s => s.setConvention q

namespace Operation

/-- Carry out an operation on a property, as the steps of a session do. -/
def answer (r : PropertyRef) : Operation → UserCode Reply
  | .request x => (x.answer r).asUserCode
  | .setProvider q => do
    (ProviderGraph.setProvider r q).asUserCode
    return .done
  | .convention q => do
    (changeProperty r (·.setConvention q)).asUserCode
    return .done
  | .ask p x => x.answer p

/-- The change that an operation is, where a lock may refuse it. The provider of a payload has the
identity `i`. -/
def mutation? (i : Identity) : Operation → Option Mutation
  | .request (.set x) => some (.put (some (.fixed i x)))
  | .request .unset => some (.put none)
  | .setProvider q => some (.put (some q))
  | .convention q => some (.agree q)
  | _ => none

/-- What an operation makes of the property that no lock refuses. -/
def mark : Operation → Property → Property
  | .request .finalizeOnRead, s => s.markFinalizeOnRead
  | .request .disallowChanges, s => s.disallowChanges
  | .request (.attach node), s => s.attach node
  | _, s => s

/-- The machine on which a change is made: the provider of a payload has taken its identity. -/
def prepared : Operation → Machine → Machine
  | .request (.set _), m => { m with supply := m.supply + 1 }
  | _, m => m

variable {op : Operation} {c : Mutation}

/-- The fault of a request is told of in one way. -/
theorem run_asUserCode_done (x : Attempt Unit) (m : Machine) :
    (x >>= fun _ => pure Reply.done : Attempt Reply).asUserCode.run.run engine m =
      (x.asUserCode >>= fun _ => pure Reply.done).run.run engine m := by
  rw [Eval.run_asUserCode, ExceptT.run_bind, ExceptT.run_bind, Eval.run_bind, Eval.run_bind,
    Eval.run_asUserCode]
  cases x.run.run engine m with
  | none => rfl
  | some a => obtain ⟨⟨⟩, _⟩ := a <;> rfl

/-- A change is refused by the locks of the property, of which finalization is reported first, and
made otherwise. -/
theorem run_mutation (r : PropertyRef) (h : op.mutation? m.supply = some c) :
    (op.answer r).run.run engine m =
      if (m.property r.id).finalized then
        some (.error (.fault (.finalized r.label)), op.prepared m)
      else if (m.property r.id).changesDisallowed then
        some (.error (.fault (.changesDisallowed r.label)), op.prepared m)
      else some (.ok .done, (op.prepared m).setProperty r.id (c.apply (m.property r.id))) := by
  -- each of the operations makes a change, and has nothing else to tell
  have change (g : Property → Property) (k : Machine) (hk : k.property r.id = m.property r.id) :
      ((changeProperty r g).asUserCode >>= fun _ => pure Reply.done).run.run engine k =
        if (m.property r.id).finalized then some (.error (.fault (.finalized r.label)), k)
        else if (m.property r.id).changesDisallowed then
          some (.error (.fault (.changesDisallowed r.label)), k)
        else some (.ok .done, k.setProperty r.id (g (m.property r.id))) := by
    rw [ExceptT.run_bind, Eval.run_bind, Eval.run_asUserCode, run_changeProperty, hk]
    cases (m.property r.id).finalized <;> cases (m.property r.id).changesDisallowed <;> rfl
  cases op with
  | request x =>
    cases x with
    | set x =>
      cases h
      have h := change (·.setValue (.fixed m.supply x)) { m with supply := m.supply + 1 } rfl
      exact (run_asUserCode_done _ _).trans h
    | unset =>
      cases h
      exact (run_asUserCode_done _ _).trans (change (·.clear) m rfl)
    | _ => cases h
  | setProvider q =>
    cases h
    exact change (·.setValue q) m rfl
  | convention q =>
    cases h
    exact change (·.setConvention q) m rfl
  | ask p x => cases h

@[simp] theorem property_prepared (op : Operation) (m : Machine) :
    (op.prepared m).property = m.property := by
  cases op with
  | request x => cases x <;> rfl
  | _ => rfl

/-- All that the preparation takes is identities. -/
theorem exists_prepared_eq (op : Operation) (m : Machine) :
    ∃ d, op.prepared m = { m with supply := m.supply + d } := by
  cases op with
  | request x =>
    cases x with
    | set => exact ⟨1, rfl⟩
    | _ => exact ⟨0, rfl⟩
  | _ => exact ⟨0, rfl⟩

/-- A change is refused, or it is made to a property that is not locked. -/
theorem mutation_cases (h : op.mutation? m.supply = some c) {reply : Except Failure Reply}
    (hrun : (op.answer r).run.run engine m = some (reply, n)) :
    (n = op.prepared m ∧ ∃ f, reply = .error f) ∨
      (n = (op.prepared m).setProperty r.id (c.apply (m.property r.id)) ∧ reply = .ok .done ∧
        (m.property r.id).finalized = false ∧ (m.property r.id).changesDisallowed = false) := by
  rw [run_mutation r h] at hrun
  split at hrun
  · cases hrun
    exact .inl ⟨rfl, _, rfl⟩
  · next hopen =>
    split at hrun
    · cases hrun
      exact .inl ⟨rfl, _, rfl⟩
    · next hallowed =>
      cases hrun
      exact .inr ⟨rfl, rfl, Bool.eq_false_iff.mpr hopen, Bool.eq_false_iff.mpr hallowed⟩

/-- User code spares the property in all that the operation asks. -/
def Spares (op : Operation) (r : PropertyRef) (m : Machine) : Prop :=
  (op.answer r).run.Spares m r.id

/-- The operation writes to the property by itself. -/
def Writes : Operation → Prop
  | .request (.set _) | .request .unset | .request .finalizeOnRead | .request .disallowChanges
  | .request (.attach _) | .setProvider _ | .convention _ => True
  | _ => False

/-- An operation that writes asks nothing. -/
theorem Writes.spares (h : op.Writes) : op.Spares r m := by
  have change (g : Property → Property) :
      (changeProperty r g).run.RaisesOnly fun _ => False := by
    refine .bindExcept (.lift (.property _)) fun s => ?_
    cases s.change r.label g with
    | ok s => exact .lift fun _ _ _ h => h
    | error f => exact .pure _
  have request {x : PropertyRequest} (hx : (x.answer r).run.RaisesOnly fun _ => False) :
      (Operation.request x).Spares r m := fun q n h => (hx m q n (Eval.raises_asUserCode.mp h)).elim
  have changed (g : Property → Property) :
      ((changeProperty r g).asUserCode >>= fun _ => pure Reply.done).run.Spares m r.id := by
    intro q n h
    rcases Eval.raises_bindExcept.mp h with h | ⟨_, _, -, h⟩
    · exact (change g m q n (Eval.raises_asUserCode.mp h)).elim
    · exact h.elim
  cases op with
  | ask p x => exact h.elim
  | setProvider q => exact changed (·.setValue q)
  | convention q => exact changed (·.setConvention q)
  | request x =>
    cases x with
    | set x =>
      exact request (.bindExcept (.bindExcept (.lift (.bind .identity fun _ => .pure _)) fun _ =>
        change _) fun _ => .pure _)
    | unset => exact request (.bindExcept (change _) fun _ => .pure _)
    | finalizeOnRead | disallowChanges | attach => exact request fun _ _ _ h => h
    | _ => exact h.elim

/-- An operation that writes nothing by itself is composed of elementary parts, and fills registers
at most. -/
theorem elementary {P : {α : Type} → Eval α → Prop} (h : Eval.Elementary P)
    (hkeep : ∀ c : Change, c.OnRegister → P (Eval.apply c)) (hop : ¬ op.Writes) :
    P (op.answer r).run := by
  cases op with
  | ask p x => exact h.providerRequest hkeep p x
  | setProvider | convention => exact (hop trivial).elim
  | request x =>
    refine h.asUserCode ?_
    cases x with
    | set | unset | finalizeOnRead | disallowChanges | attach => exact (hop trivial).elim
    | copy into => exact h.bindExcept (h.lift (hkeep _ trivial)) fun _ => h.pure _
    | finalize | isPresent => exact h.bindExcept (h.ask _ trivial) fun _ => h.pure _
    | isFinalized => exact h.bindExcept (h.lift (h.property _)) fun _ => h.pure _
    | name => exact h.pure _
    | get => exact h.bindExcept (h.get _) fun _ => h.pure _
    | getOrNone => exact h.bindExcept (h.get? _) fun _ => h.pure _
    | text | debugText => exact h.bindExcept (h.lift (h.ask _ trivial)) fun _ => h.pure _

/-- An operation that is no change leaves the property as it is, but for its mark, or finalizes
it. -/
theorem hardens (hspares : op.Spares r m) (hm : m.Holds []) (hop : op.mutation? i = none)
    {a : Except Failure Reply × Machine} (ha : (op.answer r).run.run engine m = some a) :
    (op.mark (m.property r.id)).Hardens (a.2.property r.id) := by
  have reads (hop : ¬ op.Writes) : (m.property r.id).Hardens (a.2.property r.id) := by
    refine Eval.Inert.hardens (op.elementary Eval.Inert.elementary ?_ hop)
      (op.elementary Eval.Upfront.elementary ?_ hop) hspares hm ha
    · intro c hc S
      cases c <;> first | exact ⟨trivial, trivial⟩ | exact hc.elim
    · exact fun c hc _ _ _ h => h
  have marks (f : Property → Property) (ha : some (Except.ok Reply.done,
      m.setProperty r.id (f (m.property r.id))) = some a) :
      (f (m.property r.id)).Hardens (a.2.property r.id) := by
    cases ha
    rw [Machine.property_setProperty_self]
    exact .same
  cases op with
  | ask p x => exact reads id
  | setProvider | convention => cases hop
  | request x =>
    cases x with
    | set | unset => cases hop
    | finalizeOnRead => exact marks (·.markFinalizeOnRead) ha
    | disallowChanges => exact marks (·.disallowChanges) ha
    | attach node => exact marks (·.attach node) ha
    | _ => exact reads id

end Operation

end ProviderGraph
