import ProviderGraph.Proofs.Engine.AttemptComposition
import ProviderGraph.Proofs.Query.Texts

/-!
# Failures on their way out

A failure ends every evaluation that it is met in. What fails below fails above in the same way:
faults keep their kind and contents, and what code rejects is attributed once, to the provider that
called the code (`failures_pass_unchanged`). Only two things are asked whatever comes of them: a
step of a session, and the deeds of a value that has been unpacked.
-/

namespace ProviderGraph

variable {m n k m' n' : Machine} {q q' q₁ : Query} {α β ε : Type} {p : Provider} {e e' : Failure}

/-! ### Who is blamed -/

/-- What becomes of a failure in the evaluation of a provider, when the code that failed has left
the machine `n`: a fault stays, and a rejection is attributed to the provider. -/
inductive Provider.Attributes (p : Provider) : Failure → Machine → Fault → Prop where
  | fault (f : Fault) (n : Machine) : Attributes p (.fault f) n f
  | rejected (message : String) {n k : Machine} {label : String}
    (h : p.blamed.run engine { n with stack := n.stack.leave p.id } = some (label, k)) :
    Attributes p (.rejected message) n (.transform label message)

/-- The provider that a question is asked of. -/
def Query.provider? : Query → Option Provider
  | .ownValue p _ | .presence p _ | .producer p | .classification p => some p
  | .finalize r => some (.property r)
  | .text _ _ | .act _ _ _ | .build _ _ | .step _ => none

/-- What becomes of a failure in the answer to a question. User code hands it on as it is. -/
def Query.Turns (q : Query) (e : Failure) (n : Machine) (e' : Failure) : Prop :=
  match q.provider? with
  | some p => ∃ f, e' = .fault f ∧ p.Attributes e n f
  | none => e' = e

/-- The rule of the first question cannot do without the answer to the second one. -/
def Query.Heeds : Query → Query → Prop
  | .text _ _, _ | .step _, _ => False
  | .act (.inquire _ _) _ _, .act _ _ _ => False
  | _, q => q.Fallible

/-- Only questions that may fail are heeded. -/
theorem Query.Heeds.fallible (h : q.Heeds q') : q'.Fallible := by
  cases q with
  | text | step => exact h.elim
  | act a held x =>
    cases a with
    | inquire =>
      cases q' with
      | act => exact h.elim
      | _ => exact h
    | _ => exact h
  | _ => exact h

/-! ### Relaying -/

/-- The computation ends with the failure of any question of the kind `H` that it asks, turned into
what `hands` tells. -/
def Relays (H : Query → Prop) (hands : Failure → Machine → ε → Prop) (x : ExceptT ε Eval α) :
    Prop :=
  ∀ m q k, x.run.Raises m q k → H q → ∀ e n, q.Fails k e n →
    ∃ e' n', hands e n e' ∧ x.run.run engine m = some (.error e', n')

namespace Relays

variable {H : Query → Prop} {hands : Failure → Machine → ε → Prop}

/-- A computation that asks nothing of the kind. -/
theorem of_raisesOnly {x : ExceptT ε Eval α} (hx : x.run.RaisesOnly fun q => ¬ H q) :
    Relays H hands x :=
  fun m q k h hH => absurd hH (hx m q k h)

theorem pure (a : α) : Relays H hands (Pure.pure a : ExceptT ε Eval α) :=
  of_raisesOnly (.pure _)

theorem throw (e : ε) : Relays H hands (MonadExcept.throw e : ExceptT ε Eval α) :=
  of_raisesOnly (.pure _)

theorem bind {x : ExceptT ε Eval α} {f : α → ExceptT ε Eval β} (hx : Relays H hands x)
    (hf : ∀ a, Relays H hands (f a)) : Relays H hands (x >>= f) := by
  intro m q k hraised hH e n hfails
  rcases Eval.raises_bindExcept.mp hraised with hraised | ⟨a, m₁, hrun, hraised⟩
  · obtain ⟨e', n', hhands, hrun⟩ := hx m q k hraised hH e n hfails
    exact ⟨e', n', hhands, Eval.run_bind_error hrun f⟩
  · obtain ⟨e', n', hhands, hrun'⟩ := hf a m₁ q k hraised hH e n hfails
    exact ⟨e', n', hhands, (Eval.run_bind_ok hrun f).trans hrun'⟩

theorem within {hands : Failure → Machine → Fault → Prop} (o : Owner) {x : Attempt α}
    (hx : Relays H hands x) : Relays H hands (ProviderGraph.within o x) := by
  intro m q k hraised hH e n hfails
  obtain ⟨t, ht, hraised⟩ := Eval.raises_within.mp hraised
  obtain ⟨f, n', hhands, hrun⟩ := hx _ q k hraised hH e n hfails
  exact ⟨f, _, hhands, (Eval.run_within_eq ht).trans (Option.map_eq_some_iff.mpr ⟨_, hrun, rfl⟩)⟩

/-- A question that is asked directly. -/
theorem ask {q : Query} (g : q.Answer → Except ε α)
    (hg : ∀ r e n, q.failure? r = some e → ∃ e', hands e n e' ∧ g r = .error e') :
    Relays H hands (ExceptT.mk (.ask q fun r => .done (g r))) := by
  intro m q' k hraised _ e n hfails
  rcases hraised with ⟨rfl, rfl⟩ | ⟨_, -, hraised⟩
  · obtain ⟨r, hrun, hr⟩ := hfails
    obtain ⟨e', hhands, hr⟩ := hg r e n hr
    exact ⟨e', n, hhands, Option.bind_eq_some_iff.mpr
      ⟨_, hrun, congrArg (fun r => some (r, _)) hr⟩⟩
  · exact hraised.elim

/-- A question to a provider or a property fails by a fault. -/
theorem of_fault {hands : Failure → Machine → Fault → Prop}
    (hhands : ∀ f n, hands (.fault f) n f) {q : Query} (g : q.Answer → Except Fault α)
    (hg : ∀ r, q.failure? r = Failure.of? .fault (g r)) :
    Relays H hands (ExceptT.mk (.ask q fun r => .done (g r))) := by
  apply ask g
  intro r e n hr
  rw [hg] at hr
  cases hgr : g r with
  | ok a =>
    rw [hgr] at hr
    cases hr
  | error f =>
    rw [hgr] at hr
    obtain rfl := Option.some.inj hr
    exact ⟨f, hhands f n, rfl⟩

theorem of_failure {q : Query} (g : q.Answer → Except Failure α)
    (hg : ∀ r, q.failure? r = Failure.of? id (g r)) :
    Relays H (fun e _ e' => e' = e) (ExceptT.mk (.ask q fun r => .done (g r))) := by
  apply ask g
  intro r e n hr
  rw [hg] at hr
  exact ⟨e, rfl, Failure.of?_id_eq_some_iff.mp hr⟩

/-- Attempts that call no code hand on faults. -/
theorem attempt {hands : Failure → Machine → Fault → Prop}
    (hhands : ∀ f n, hands (.fault f) n f) : Attempt.Compositional (Relays H hands) where
  pure := pure
  throw := throw
  bind := bind
  ownValue p c := of_fault hhands (q := .ownValue p c) id fun _ => rfl
  presence p c := of_fault hhands (q := .presence p c) id fun _ => rfl
  producer p := of_fault hhands (q := .producer p) id fun _ => rfl
  classification p := of_fault hhands (q := .classification p) id fun _ => rfl
  finalize r := of_fault hhands (q := .finalize r) id fun _ => rfl
  within := within
  identity := of_raisesOnly (.lift .identity)
  property i := of_raisesOnly (.lift (.property i))
  note _ := of_raisesOnly (.lift fun _ _ _ h => h.elim)
  setProperty _ _ := of_raisesOnly (.lift fun _ _ _ h => h.elim)

/-! ### Calls of code -/

/-- Attributing a result asks for texts only. -/
theorem raisesOnly_settle {culprit : Eval String} (hc : culprit.RaisesOnly fun q => ¬ q.Fallible)
    (r : Except Failure α) : (settle culprit r).run.RaisesOnly fun q => ¬ q.Fallible := by
  match r with
  | .ok a => exact .pure _
  | .error (.fault f) => exact .pure _
  | .error (.rejected message) => exact .bindExcept (.lift hc) fun _ => .pure _

theorem raisesOnly_text (p : Provider) : (Ask.text p).RaisesOnly fun q => ¬ q.Fallible :=
  .ask fun h => h.elim

/-- A failure of code is settled as a fault. -/
theorem run_settle_failed {culprit : Eval String} {label : String}
    (hlabel : culprit.run engine k = some (label, k)) (e : Failure) :
    ∃ f, (settle culprit (.error e) : Attempt α).run.run engine k = some (.error f, k) ∧
      (e = .fault f ∨ ∃ message, e = .rejected message ∧ f = .transform label message) := by
  cases e with
  | fault f => exact ⟨f, rfl, .inl rfl⟩
  | rejected message =>
    refine ⟨.transform label message, ?_, .inr ⟨message, rfl, rfl⟩⟩
    show (liftM culprit >>= fun label => MonadExcept.throw (Fault.transform label message) :
      Attempt α).run.run engine k = _
    rw [Eval.run_lift_bind, Eval.run_bind_of hlabel]
    rfl

variable (hH : ∀ q, H q → q.Fallible)
include hH

/-- Code that is called in the scope of a provider that is blamed by its text. -/
theorem settled (hp : p.blamed = Ask.text p) {q : Query} (g : q.Answer → Except Failure α)
    (hg : ∀ r, q.failure? r = Failure.of? id (g r)) :
    Relays H p.Attributes (ProviderGraph.within p.owner
      (ExceptT.lift (.ask q fun r => .done (g r))) >>= settle (Ask.text p)) := by
  intro m q' k hraised hHq e n hfails
  rcases Eval.raises_bindExcept.mp hraised with hraised | ⟨r, m₁, -, hraised⟩
  · obtain ⟨t, ht, hraised⟩ := Eval.raises_within.mp hraised
    rcases (Eval.raises_bind _ _).mp hraised with (⟨rfl, rfl⟩ | ⟨_, -, hraised⟩) | ⟨_, -, hraised⟩
    · obtain ⟨r, hrun, hr⟩ := hfails
      rw [hg] at hr
      have hr := Failure.of?_id_eq_some_iff.mp hr
      have hask : Eval.run engine (.ask q' fun r => .done (g r)) { m with stack := t } =
          some (.error e, n) :=
        Option.bind_eq_some_iff.mpr ⟨_, hrun, congrArg (fun s => some (s, n)) hr⟩
      have hbody : (ExceptT.lift (.ask q' fun r => .done (g r)) : Attempt _).run.run engine
          { m with stack := t } = some (.ok (.error e), n) := Eval.run_bind_of hask _
      have hwithin : (ProviderGraph.within p.owner
          (ExceptT.lift (.ask q' fun r => .done (g r)))).run.run engine m =
            some (.ok (.error e), { n with stack := n.stack.leave p.id }) :=
        (Eval.run_within_eq ht).trans (Option.map_eq_some_iff.mpr ⟨_, hbody, rfl⟩)
      have hlabel : (Ask.text p).run engine { n with stack := n.stack.leave p.id } = _ :=
        (Eval.run_ask _ _ _).trans (engine_text _ p p.kind)
      obtain ⟨f, hsettle, hf⟩ := run_settle_failed (α := α) hlabel e
      refine ⟨f, _, ?_, (Eval.run_bind_ok hwithin _).trans hsettle⟩
      rcases hf with rfl | ⟨message, rfl, rfl⟩
      · exact .fault f n
      · exact .rejected message (hp ▸ hlabel)
    · exact hraised.elim
    · exact hraised.elim
  · exact absurd (hH _ hHq) (raisesOnly_settle (raisesOnly_text p) r _ _ _ hraised)

/-- A call of a leaf, which is blamed by its name. -/
theorem call (hp : ∃ name, p.blamed = Pure.pure name) (calls : Calls) :
    Relays H p.Attributes (liftM (nextCall calls) >>= settle p.blamed) := by
  obtain ⟨name, hp⟩ := hp
  have hlabel (k : Machine) : p.blamed.run engine k = some (name, k) := by
    rw [hp]
    rfl
  intro m q k hraised hHq e n hfails
  rw [Eval.run_call]
  rcases (Eval.raises_call calls _).mp hraised with ⟨rfl, rfl⟩ | ⟨r, -, hraised⟩
  · obtain ⟨r, hrun, hr⟩ := hfails
    obtain rfl := Failure.of?_id_eq_some_iff.mp hr
    obtain ⟨f, hsettle, hf⟩ := run_settle_failed (α := Option Payload) (hlabel n) e
    refine ⟨f, n, ?_, Option.bind_eq_some_iff.mpr ⟨_, hrun, hsettle⟩⟩
    rcases hf with rfl | ⟨message, rfl, rfl⟩
    · exact .fault f n
    · exact .rejected message (hlabel _)
  · have hquiet : p.blamed.RaisesOnly fun q => ¬ q.Fallible := by
      rw [hp]
      exact .pure name
    exact absurd (hH _ hHq) (raisesOnly_settle hquiet _ _ _ _ hraised)

/-- The computations of a provider attribute what its code rejects. -/
theorem provider (p : Provider) : p.Compositional (Relays H p.Attributes) where
  attempt := attempt .fault
  call := call hH
  applyTransform hp f x := settled hH hp (q := .act f.code f.held x) id fun _ => rfl
  choose hp choice v := by
    rw [Provider.choose]
    cases v.payload? with
    | some x => exact settled hH hp (q := .build choice (some x)) id fun _ => rfl
    | none =>
      have hquiet : (ExceptT.lift (Pure.pure (.ok none)) :
          Attempt (Except Failure (Option Provider))).run.RaisesOnly fun q => ¬ H q :=
        .lift (.pure _)
      apply of_raisesOnly
      apply Eval.RaisesOnly.bindExcept (.within hquiet)
      intro r m q k hraised hHq
      exact raisesOnly_settle (raisesOnly_text p) r m q k hraised (hH q hHq)

omit hH

/-! ### User code -/

theorem elsewhere (a : Action) (held : Option Payload) (x : Payload) :
    Relays H (fun e _ e' => e' = e) (ExceptT.mk (Eval.elsewhere (Ask.act a held x))) := by
  rintro m q k ((⟨rfl, rfl⟩ | ⟨_, -, hraised⟩) | ⟨_, -, hraised⟩) _ e n hfails
  · obtain ⟨r, hrun, hr⟩ := hfails
    obtain rfl := Failure.of?_id_eq_some_iff.mp hr
    exact ⟨e, _, rfl, Option.bind_eq_some_iff.mpr ⟨_, (Eval.run_ask _ _ _).trans hrun, rfl⟩⟩
  · exact hraised.elim
  · exact hraised.elim

theorem asUserCode {x : Attempt α} (hx : Relays H (fun e _ f => e = .fault f) x) :
    Relays H (fun e _ e' => e' = e) x.asUserCode := by
  intro m q k hraised hHq e n hfails
  obtain ⟨f, n', rfl, hrun⟩ := hx m q k (Eval.raises_asUserCode.mp hraised) hHq e n hfails
  refine ⟨.fault f, n', rfl, ?_⟩
  rw [Eval.run_asUserCode, hrun]
  rfl

/-- User code hands on all failures. -/
theorem userCode : UserCode.Compositional (Relays H fun e _ f => e = .fault f)
    (Relays H fun e _ e' => e' = e) where
  attempt := attempt fun _ _ => rfl
  pure := pure
  throw := throw
  bind := bind
  action a held x := of_failure (q := .act a held x) id fun _ => rfl
  build r held := of_failure (q := .build r held) id fun _ => rfl
  identity := of_raisesOnly (.lift .identity)
  note _ := of_raisesOnly (.lift fun _ _ _ h => h.elim)
  look view _ _ hf := fun m => hf (view m) m
  elsewhere := elsewhere
  asUserCode := asUserCode

end Relays

/-! ### Questions -/

theorem raisesOnly_perform (deeds : List (Action × Payload)) :
    (perform deeds).RaisesOnly fun q => ∃ a x, q = .act a none x := by
  induction deeds with
  | nil => exact .pure _
  | cons deed deeds ih => exact .bind (.ask ⟨_, _, rfl⟩) fun _ => ih

/-- A step that user code runs raises no question that may fail. -/
theorem raisesOnly_perform_step (s : Step) (held : Option Payload) (x : Payload) :
    (rule (.act (.perform s) held x)).RaisesOnly fun q => ¬ q.Fallible := by
  rintro m q k ((⟨rfl, -⟩ | ⟨_, -, hraised⟩) | ⟨_, -, hraised⟩)
  · exact fun h => h
  · exact hraised.elim
  · exact hraised.elim

/-- A question that heeds another one fails with it. -/
theorem Query.Heeds.turns (hheeds : q.Heeds q₁) (hraised : (rule q).Raises m q₁ k)
    (hfails : q₁.Fails k e n') : ∃ e' n, q.Fails m e' n ∧ q.Turns e n' e' := by
  have provider (p : Provider) := Relays.provider (H := q.Heeds) (fun _ => fallible) p
  have userCode := Relays.userCode (H := q.Heeds)
  cases q with
  | ownValue p c =>
    obtain ⟨f, n, hf, hrun⟩ := (provider p).evalValue c m q₁ k hraised hheeds e n' hfails
    exact ⟨.fault f, n, ⟨.error f, (engine_eq_rule _ _).trans hrun, rfl⟩, f, rfl, hf⟩
  | presence p c =>
    obtain ⟨f, n, hf, hrun⟩ := (provider p).evalPresence c m q₁ k hraised hheeds e n' hfails
    exact ⟨.fault f, n, ⟨.error f, (engine_eq_rule _ _).trans hrun, rfl⟩, f, rfl, hf⟩
  | producer p =>
    obtain ⟨f, n, hf, hrun⟩ := (provider p).evalProducer m q₁ k hraised hheeds e n' hfails
    exact ⟨.fault f, n, ⟨.error f, (engine_eq_rule _ _).trans hrun, rfl⟩, f, rfl, hf⟩
  | classification p =>
    obtain ⟨f, n, hf, hrun⟩ := (provider p).evalClassification m q₁ k hraised hheeds e n' hfails
    exact ⟨.fault f, n, ⟨.error f, (engine_eq_rule _ _).trans hrun, rfl⟩, f, rfl, hf⟩
  | finalize r =>
    obtain ⟨f, n, hf, hrun⟩ :=
      (provider (.property r)).attempt.evalFinalize r m q₁ k hraised hheeds e n' hfails
    exact ⟨.fault f, n, ⟨.error f, (engine_eq_rule _ _).trans hrun, rfl⟩, f, rfl, hf⟩
  | act a held x =>
    have hstep : ∀ s, a ≠ .perform s := by
      rintro s rfl
      exact raisesOnly_perform_step s held x m q₁ k hraised hheeds
    have hdeeds : (∃ i r, a = .inquire i r) → ∀ deeds, Relays (Query.act a held x).Heeds
        (fun e _ f => e = .fault f) (liftM (perform deeds)) := by
      rintro ⟨i, r, rfl⟩ deeds
      apply Relays.of_raisesOnly
      apply Eval.RaisesOnly.lift
      intro m q k hraised
      obtain ⟨a, x, rfl⟩ := raisesOnly_perform deeds m q k hraised
      exact fun h => h
    obtain ⟨e', n, rfl, hrun⟩ :=
      userCode.evalAction a held x hstep hdeeds m q₁ k hraised hheeds e n' hfails
    exact ⟨_, n, ⟨.error _, (engine_eq_rule _ _).trans hrun, rfl⟩, rfl⟩
  | build r held =>
    obtain ⟨e', n, rfl, hrun⟩ := userCode.evalRecipe r held m q₁ k hraised hheeds e n' hfails
    exact ⟨_, n, ⟨.error _, (engine_eq_rule _ _).trans hrun, rfl⟩, rfl⟩
  | text | step => exact hheeds.elim

/-- The answer to the question `q` on the machine `m` takes the answer to `q'` on `m'`, which it
asks itself or through the questions in between. -/
inductive Needs : Query → Machine → Query → Machine → Prop where
  | self {q : Query} {m : Machine} : Needs q m q m
  | raised {q q₁ q' : Query} {m m₁ m' : Machine} (h : (rule q).Raises m q₁ m₁)
    (hheeds : q.Heeds q₁) (h' : Needs q₁ m₁ q' m') : Needs q m q' m'

/-- A fault stays the same all the way out. -/
theorem Needs.fails (h : Needs q m q' m') {f : Fault} (hfails : q'.Fails m' (.fault f) n') :
    ∃ n, q.Fails m (.fault f) n := by
  induction h with
  | self => exact ⟨n', hfails⟩
  | @raised q q₁ q' m m₁ m' hraised hheeds _ ih =>
    obtain ⟨n₁, hfails₁⟩ := ih hfails
    obtain ⟨e, n, hq, hturns⟩ := hheeds.turns hraised hfails₁
    have he : e = .fault f := by
      rw [Query.Turns] at hturns
      split at hturns
      · obtain ⟨f', rfl, hf'⟩ := hturns
        cases hf'
        rfl
      · exact hturns
    exact ⟨n, he ▸ hq⟩

/-- A rejection of the code that a provider calls becomes a fault that names the provider. -/
theorem Query.fails_of_rejected (hp : q.provider? = some p) (hraised : (rule q).Raises m q₁ k)
    {message : String} (hfails : q₁.Fails k (.rejected message) n') :
    ∃ label o n, p.blamed.run engine { n' with stack := n'.stack.leave p.id } = some (label, o) ∧
      q.Fails m (.fault (.transform label message)) n := by
  have hfallible : q₁.Fallible := by
    obtain ⟨r, -, hr⟩ := hfails
    cases q₁ with
    | text | step => cases hr
    | _ => trivial
  have hheeds : q.Heeds q₁ := by
    cases q with
    | text | act | build | step => cases hp
    | _ => exact hfallible
  obtain ⟨e, n, hq, hturns⟩ := hheeds.turns hraised hfails
  rw [Turns, hp] at hturns
  obtain ⟨f, rfl, hf⟩ := hturns
  cases hf with
  | rejected _ hlabel => exact ⟨_, _, n, hlabel, hq⟩

/-! ### Readings -/

/-- What is asked of a provider, and the question that it starts with. -/
inductive Attempt.Reads : {α : Type} → Attempt α → Query → Prop where
  | value (p : Provider) (c : Reading) : Reads (Ask.value p c) (.ownValue p c)
  | get (p : Provider) : Reads (Ask.get p) (.ownValue p .strict)
  | get? (p : Provider) : Reads (Ask.get? p) (.ownValue p .strict)
  | presence (p : Provider) (c : Reading) : Reads (Ask.presence p c) (.presence p c)
  | isPresent (p : Provider) : Reads (Ask.isPresent p) (.presence p .lenient)
  | producer (p : Provider) : Reads (Ask.producer p) (.producer p)
  | classification (p : Provider) : Reads (Ask.classification p) (.classification p)

/-- The attempt fails with the fault when the question `q` does, and asks nothing else. -/
def Attempt.FailsOn (x : Attempt α) (q : Query) (m : Machine) (f : Fault) (n : Machine) : Prop :=
  x.run.run engine m = some (.error f, n) ∧ ∀ q' k, x.run.Raises m q' k → q' = q

namespace Attempt.FailsOn

variable {f : Fault}

theorem bind {x : Attempt α} (h : x.FailsOn q m f n) (g : α → Attempt β) :
    (x >>= g).FailsOn q m f n := by
  obtain ⟨hrun, hraises⟩ := h
  refine ⟨Eval.run_bind_error hrun g, fun q' k hraised => ?_⟩
  rcases Eval.raises_bindExcept.mp hraised with hraised | ⟨a, m₁, hrun', -⟩
  · exact hraises q' k hraised
  · cases hrun.symm.trans hrun'

theorem ask {g : q.Answer → Except Fault α} (hg : ∀ r, q.failure? r = Failure.of? .fault (g r))
    (hfails : q.Fails m e n) :
    ∃ f, e = .fault f ∧
      FailsOn (ExceptT.mk (Eval.ask q fun r => .done (g r))) q m f n := by
  obtain ⟨r, hrun, hr⟩ := hfails
  rw [hg] at hr
  cases hgr : g r with
  | ok a =>
    rw [hgr] at hr
    cases hr
  | error f =>
    rw [hgr] at hr
    cases hr
    refine ⟨f, rfl, Option.bind_eq_some_iff.mpr ⟨_, hrun, congrArg (fun s => some (s, n)) hgr⟩, ?_⟩
    rintro q' k (⟨rfl, -⟩ | ⟨_, -, hraised⟩)
    · rfl
    · exact hraised.elim

end Attempt.FailsOn

/-- Where its first question fails a reading fails, and asks nothing more. -/
theorem Attempt.Reads.fails {x : Attempt α} (hx : x.Reads q) (hfails : q.Fails m e n) :
    ∃ f, e = .fault f ∧ x.FailsOn q m f n := by
  have ownValue {p : Provider} {c : Reading} (hfails : (Query.ownValue p c).Fails m e n) :
      ∃ f, e = .fault f ∧ (Ask.value p c).FailsOn (.ownValue p c) m f n := by
    obtain ⟨f, he, hf⟩ := FailsOn.ask (q := .ownValue p c) (g := id) (fun _ => rfl) hfails
    exact ⟨f, he, hf.bind _⟩
  cases hx with
  | value p c => exact ownValue hfails
  | get p =>
    obtain ⟨f, he, hf⟩ := ownValue hfails
    exact ⟨f, he, hf.bind _⟩
  | get? p =>
    obtain ⟨f, he, hf⟩ := ownValue hfails
    exact ⟨f, he, hf.bind _⟩
  | presence p c => exact FailsOn.ask (q := .presence p c) (g := id) (fun _ => rfl) hfails
  | isPresent p => exact FailsOn.ask (q := .presence p .lenient) (g := id) (fun _ => rfl) hfails
  | producer p => exact FailsOn.ask (q := .producer p) (g := id) (fun _ => rfl) hfails
  | classification p => exact FailsOn.ask (q := .classification p) (g := id) (fun _ => rfl) hfails

/-! ### Fallbacks -/

/-- The question is asked of a fallback, and leads to this question about its left side. -/
inductive Query.FallsBack : Query → Query → Prop where
  | value (i : Identity) (l r : Provider) (c : Reading) :
    FallsBack (.ownValue (.orElse i l r) c) (.ownValue l c)
  | presence (i : Identity) (l r : Provider) (c : Reading) :
    FallsBack (.presence (.orElse i l r) c) (.presence l c)
  | classification (i : Identity) (l r : Provider) :
    FallsBack (.classification (.orElse i l r)) (.classification l)

/-- What follows an attempt in a scope is not asked unless the attempt succeeds. -/
theorem raises_of_within_fails {o : Owner} {t : ScopeStack} {x : Attempt α} {f : α → Attempt β}
    {e : Fault} (ht : m.stack.enter o = .ok t)
    (hx : x.run.run engine { m with stack := t } = some (.error e, n))
    (h : (within o x >>= f).run.Raises m q k) : x.run.Raises { m with stack := t } q k := by
  rcases Eval.raises_bindExcept.mp h with h | ⟨a, m₁, hrun, -⟩
  · obtain ⟨t', ht', h⟩ := Eval.raises_within.mp h
    cases ht.symm.trans ht'
    exact h
  · obtain ⟨t', k, ht', hrun, -⟩ := Eval.run_within_ok hrun
    cases ht.symm.trans ht'
    cases hx.symm.trans hrun

/-- Where its left side fails a fallback fails. -/
theorem Query.FallsBack.fails {left : Query} (h : q.FallsBack left)
    (hp : q.provider? = some p) {t : ScopeStack} (ht : m.stack.enter p.owner = .ok t)
    (hfails : left.Fails { m with stack := t } e n) :
    ∃ f n, e = .fault f ∧ q.Fails m (.fault f) n := by
  have relayed {q₁ : Query} (hraised : (rule q).Raises m q₁ { m with stack := t })
      (hheeds : q.Heeds q₁) {f : Fault} (hfails : q₁.Fails { m with stack := t } (.fault f) n) :
      ∃ n, q.Fails m (.fault f) n := Needs.fails (.raised hraised hheeds .self) hfails
  cases h with
  | value i l r c =>
    cases hp
    obtain ⟨f, rfl, -⟩ := (Attempt.Reads.value l c).fails hfails
    have hraised : (rule (.ownValue (.orElse i l r) c)).Raises m (.ownValue l c)
        { m with stack := t } :=
      Eval.raises_bindExcept.mpr (.inl (Eval.raises_within.mpr
        ⟨t, ht, Eval.raises_value.mpr ⟨rfl, rfl⟩⟩))
    obtain ⟨n, hq⟩ := relayed hraised trivial hfails
    exact ⟨f, n, rfl, hq⟩
  | presence i l r c =>
    cases hp
    obtain ⟨f, rfl, -⟩ := (Attempt.Reads.presence l c).fails hfails
    have hraised : (rule (.presence (.orElse i l r) c)).Raises m (.presence l c)
        { m with stack := t } :=
      Eval.raises_bindExcept.mpr (.inl (Eval.raises_within.mpr
        ⟨t, ht, Eval.raises_ask.mpr ⟨rfl, rfl⟩⟩))
    obtain ⟨n, hq⟩ := relayed hraised trivial hfails
    exact ⟨f, n, rfl, hq⟩
  | classification i l r =>
    cases hp
    obtain ⟨f, rfl, -⟩ := (Attempt.Reads.classification l).fails hfails
    have hraised : (rule (.classification (.orElse i l r))).Raises m (.classification l)
        { m with stack := t } :=
      Eval.raises_bindExcept.mpr (.inl (Eval.raises_within.mpr
        ⟨t, ht, Eval.raises_ask.mpr ⟨rfl, rfl⟩⟩))
    obtain ⟨n, hq⟩ := relayed hraised trivial hfails
    exact ⟨f, n, rfl, hq⟩

/-- Where its left side fails a fallback asks nothing of its right side. -/
theorem Query.FallsBack.eq_of_raises {left : Query} (h : q.FallsBack left)
    (hp : q.provider? = some p) {t : ScopeStack} (ht : m.stack.enter p.owner = .ok t)
    (hfails : left.Fails { m with stack := t } e n) (hraised : (rule q).Raises m q₁ k) :
    q₁ = left := by
  cases h with
  | value i l r c =>
    cases hp
    obtain ⟨f, rfl, hrun, hleft⟩ := (Attempt.Reads.value l c).fails hfails
    exact hleft _ _ (raises_of_within_fails ht hrun hraised)
  | presence i l r c =>
    cases hp
    obtain ⟨f, rfl, hrun, hleft⟩ := (Attempt.Reads.presence l c).fails hfails
    exact hleft _ _ (raises_of_within_fails ht hrun hraised)
  | classification i l r =>
    cases hp
    obtain ⟨f, rfl, hrun, hleft⟩ := (Attempt.Reads.classification l).fails hfails
    exact hleft _ _ (raises_of_within_fails ht hrun hraised)

/-- Whatever fails in the course of a reading, and is needed for it, fails the reading. A fault
stays as it is. What the code that a provider calls rejects becomes a fault that names this
provider, and stays so further out. A fallback whose left side fails does not ask for the right
one. -/
theorem failures_pass_unchanged {x : Attempt α} (hx : x.Reads q) (h : Needs q m q' m') :
    (∀ f n', q'.Fails m' (.fault f) n' → ∃ n, x.run.run engine m = some (.error f, n)) ∧
    (∀ p code k message n', q'.provider? = some p → (rule q').Raises m' code k →
      code.Fails k (.rejected message) n' →
      ∃ label o n,
        p.blamed.run engine { n' with stack := n'.stack.leave p.id } = some (label, o) ∧
        x.run.run engine m = some (.error (.transform label message), n)) ∧
    ∀ p left t e n', q'.FallsBack left → q'.provider? = some p → m'.stack.enter p.owner = .ok t →
      left.Fails { m' with stack := t } e n' →
      (∃ f n, e = .fault f ∧ x.run.run engine m = some (.error f, n)) ∧
        ∀ q₁ k, (rule q').Raises m' q₁ k → q₁ = left := by
  have fails (f : Fault) (n' : Machine) (hfails : q'.Fails m' (.fault f) n') :
      ∃ n, x.run.run engine m = some (.error f, n) := by
    obtain ⟨n, hq⟩ := h.fails hfails
    obtain ⟨f', hf', hrun, -⟩ := hx.fails hq
    cases hf'
    exact ⟨n, hrun⟩
  refine ⟨fails, ?_, ?_⟩
  · intro p code k message n' hp hraised hrejected
    obtain ⟨label, o, n, hlabel, hq⟩ := Query.fails_of_rejected hp hraised hrejected
    obtain ⟨n, hrun⟩ := fails _ n hq
    exact ⟨label, o, n, hlabel, hrun⟩
  · intro p left t e n' hback hp ht hleft
    constructor
    · obtain ⟨f, n, rfl, hq⟩ := hback.fails hp ht hleft
      obtain ⟨n, hrun⟩ := fails f n hq
      exact ⟨f, n, rfl, hrun⟩
    · intro q₁ k hraised
      exact hback.eq_of_raises hp ht hleft hraised

def rejecting : Provider :=
  .map 2 (.fixed 1 (.int 1)) ⟨.compute fun _ => .error (.rejected "no"), none⟩ .int

/-- A provider whose code reads the one in a register, if it has a payload. -/
def relaying : Provider :=
  .map 4 (.fixed 3 (.int 2)) ⟨.inquire .getOrNone (.register "inner"), none⟩ .int

/-- A fallback in front of a fixed payload. -/
def fallbackBehindRelay : Provider := .orElse 6 relaying (.fixed 5 (.int 0))

def rejectingMachine : Machine :=
  { Machine.fresh 8 with supply := 7, providerRegisters := [("inner", rejecting)] }

/-- The machine while the code of `relaying` runs, with these scopes inside. -/
def rejectingMachine.inRelay (inner : List Owner) : Machine :=
  { rejectingMachine with
    stack := ⟨inner ++ [relaying.owner, fallbackBehindRelay.owner], 8⟩ }

/-- The rejection passes through the code that reads the provider, and through the fallback. It
names the provider whose code rejected its input. -/
theorem failures_pass_unchanged_relayed :
    (Ask.get? fallbackBehindRelay).Reads (.ownValue fallbackBehindRelay .strict) ∧
      Needs (.ownValue fallbackBehindRelay .strict) rejectingMachine (.ownValue rejecting .strict)
        (rejectingMachine.inRelay []) ∧
      ∃ n, (Ask.get? fallbackBehindRelay).run.run engine rejectingMachine =
        some (.error (.transform "map(fixed(1))" "no"), n) := by
  have hleft : (rule (.ownValue fallbackBehindRelay .strict)).Raises rejectingMachine
      (.ownValue relaying .strict)
      { rejectingMachine with stack := ⟨[fallbackBehindRelay.owner], 8⟩ } :=
    Eval.raises_bindExcept.mpr (.inl (Eval.raises_within.mpr
      ⟨_, rfl, Eval.raises_value.mpr ⟨rfl, rfl⟩⟩))
  have hcode : (rule (.ownValue relaying .strict)).Raises
      { rejectingMachine with stack := ⟨[fallbackBehindRelay.owner], 8⟩ }
      (.act (.inquire .getOrNone (.register "inner")) none (.int 2))
      (rejectingMachine.inRelay []) :=
    Eval.raises_bindExcept.mpr (.inr ⟨_, _, Eval.run_engine_of_answer 5 rfl,
      Eval.raises_bindExcept.mpr (.inl (Eval.raises_bindExcept.mpr (.inl (Eval.raises_within.mpr
        ⟨_, rfl, (Eval.raises_bind _ _).mpr (.inl (Eval.raises_ask.mpr ⟨rfl, rfl⟩))⟩))))⟩)
  have hread : (rule (.act (.inquire .getOrNone (.register "inner")) none (.int 2))).Raises
      (rejectingMachine.inRelay []) (.ownValue rejecting .strict) (rejectingMachine.inRelay []) :=
    Eval.raises_bindExcept.mpr (.inr ⟨_, _, Eval.run_engine_of_answer 5 rfl,
      Eval.raises_asUserCode.mpr (Eval.raises_bindExcept.mpr
        (.inl (Eval.raises_value.mpr ⟨rfl, rfl⟩)))⟩)
  have hrejecting : (rule (.ownValue rejecting .strict)).Raises (rejectingMachine.inRelay [])
      (.act (.compute fun _ => .error (.rejected "no")) none (.int 1))
      (rejectingMachine.inRelay [rejecting.owner]) :=
    Eval.raises_bindExcept.mpr (.inr ⟨_, _, Eval.run_engine_of_answer 5 rfl,
      Eval.raises_bindExcept.mpr (.inl (Eval.raises_bindExcept.mpr (.inl (Eval.raises_within.mpr
        ⟨_, rfl, (Eval.raises_bind _ _).mpr (.inl (Eval.raises_ask.mpr ⟨rfl, rfl⟩))⟩))))⟩)
  have hfails : (Query.act (.compute fun _ => .error (.rejected "no")) none (.int 1)).Fails
      (rejectingMachine.inRelay [rejecting.owner]) (.rejected "no")
      (rejectingMachine.inRelay [rejecting.owner]) :=
    ⟨.error (.rejected "no"), engine_eq_some_iff.mpr ⟨1, rfl⟩, rfl⟩
  have hneeds : Needs (.ownValue fallbackBehindRelay .strict) rejectingMachine
      (.ownValue rejecting .strict) (rejectingMachine.inRelay []) :=
    .raised hleft trivial (.raised hcode trivial (.raised hread trivial .self))
  have hreads : (Ask.get? fallbackBehindRelay).Reads (.ownValue fallbackBehindRelay .strict) :=
    .get? _
  refine ⟨hreads, hneeds, ?_⟩
  obtain ⟨-, hattributed, -⟩ := failures_pass_unchanged hreads hneeds
  obtain ⟨label, o, n, hlabel, hrun⟩ :=
    hattributed rejecting _ _ "no" _ rfl hrejecting hfails
  have htext : rejecting.blamed.run engine (rejectingMachine.inRelay []) =
      some ("map(fixed(1))", rejectingMachine.inRelay []) := Eval.run_engine_of_answer 5 rfl
  obtain ⟨rfl, -⟩ := Prod.mk.inj (Option.some.inj (htext.symm.trans hlabel))
  exact ⟨n, hrun⟩

end ProviderGraph
