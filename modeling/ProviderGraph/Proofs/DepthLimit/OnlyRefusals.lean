import ProviderGraph.Proofs.Engine.AttemptComposition
import ProviderGraph.Proofs.Query.Speculation

/-!
# The depth limit only refuses

A run that succeeds does the same under any other limit, unless that limit is lower and refuses one
of its scopes. Then the run ends with this refusal. So the limit never changes a result
(`limit_only_refuses`). Nothing that a computation looks at tells the limit, and where a part of it
is refused the whole is (`Withstands`); code that does not come back to the engine cannot hide a
refusal.
-/

namespace ProviderGraph

variable {m n k : Machine} {q : Query} {α β ε : Type} {limit : Nat} {C : Action → Prop}

def Machine.withLimit (m : Machine) (limit : Nat) : Machine :=
  { m with stack := m.stack.setLimit limit }

/-- Under the other limit the answer is the same, or the limit is lower and refuses a scope. -/
def Query.Withstands (limit : Nat) (q : Query) (m : Machine) : Prop :=
  ∀ r n, engine q m = some (r, n) → q.failure? r = none →
    n.stack.limit = m.stack.limit ∧
      (engine q (m.withLimit limit) = some (r, n.withLimit limit) ∨
        limit < m.stack.limit ∧
          ∃ depth k, q.Fails (m.withLimit limit) (.fault (.tooDeep depth limit)) k)

/-- Under the other limit a run that succeeds gives the same, or the limit is lower and refuses a
scope, as long as this holds of all that is asked. -/
def Withstands (limit : Nat) (wrap : Fault → ε) (x : ExceptT ε Eval α) : Prop :=
  ∀ m, (∀ q k, x.run.Raises m q k → q.Fallible → q.Withstands limit k) →
    ∀ a n, x.run.run engine m = some (.ok a, n) →
      n.stack.limit = m.stack.limit ∧
        (x.run.run engine (m.withLimit limit) = some (.ok a, n.withLimit limit) ∨
          limit < m.stack.limit ∧ ∃ depth k, x.run.run engine (m.withLimit limit) =
            some (.error (wrap (.tooDeep depth limit)), k))

theorem ScopeStack.limit_of_enter {s t : ScopeStack} {o : Owner} (h : s.enter o = .ok t) :
    t.limit = s.limit := by
  obtain ⟨-, -, rfl⟩ := enter_eq_ok_iff.mp h
  rfl

/-- A scope that can be opened can be opened under the other limit, unless that is lower. -/
theorem ScopeStack.enter_setLimit {s t : ScopeStack} {o : Owner} (h : s.enter o = .ok t)
    (limit : Nat) :
    (s.setLimit limit).enter o = .ok (t.setLimit limit) ∨
      limit < s.limit ∧ (s.setLimit limit).enter o = .error (.tooDeep (s.depth + 1) limit) := by
  obtain ⟨hopen, hdepth, rfl⟩ := enter_eq_ok_iff.mp h
  by_cases hlimit : s.depth < limit
  · exact .inl (enter_eq_ok_iff.mpr ⟨hopen, hlimit, rfl⟩)
  · right
    constructor
    · omega
    · have hopen : (s.setLimit limit).isOpen o.id = false := hopen
      have hdepth : (s.setLimit limit).limit ≤ (s.setLimit limit).depth := Nat.not_lt.mp hlimit
      simp only [enter, hopen, Bool.false_eq_true, if_false, hdepth, if_true]
      rfl

namespace Eval

/-- Under the other limit an attempt runs in the scope too, or the limit is lower and the scope is
refused. -/
theorem run_within_withLimit {o : Owner} (x : Attempt α) {t : ScopeStack}
    (ht : m.stack.enter o = .ok t) (limit : Nat) :
    (∀ r k, x.run.run engine (Machine.withLimit { m with stack := t } limit) = some (r, k) →
      (ProviderGraph.within o x).run.run engine (m.withLimit limit) =
        some (r, { k with stack := k.stack.leave o.id })) ∨
    limit < m.stack.limit ∧
      (ProviderGraph.within o x).run.run engine (m.withLimit limit) =
        some (.error (.tooDeep (m.stack.depth + 1) limit), m.withLimit limit) := by
  rcases ScopeStack.enter_setLimit ht limit with ht' | ⟨hlow, ht'⟩
  · left
    intro r k hr
    have hrun : (ProviderGraph.within o x).run.run engine (m.withLimit limit) = _ :=
      run_within_eq ht'
    rw [hrun]
    exact Option.map_eq_some_iff.mpr ⟨_, hr, rfl⟩
  · right
    exact ⟨hlow, run_within_error ht' rfl⟩

/-- A result that has been settled without a fault is that of the code. -/
theorem run_settle_ok {culprit : Eval String} {r : Except Failure α} {a : α}
    (h : (settle culprit r).run.run engine m = some (.ok a, n)) : r = .ok a ∧ n = m := by
  match r with
  | .ok b =>
    cases h
    exact ⟨rfl, rfl⟩
  | .error (.fault f) => cases h
  | .error (.rejected message) =>
    obtain ⟨label, k, -, h⟩ := run_bindExcept_ok h
    cases h

end Eval

namespace Withstands

variable {wrap : Fault → ε}

theorem pure (a : α) : Withstands limit wrap (Pure.pure a : ExceptT ε Eval α) := by
  intro m _ b n h
  cases h
  exact ⟨rfl, .inl rfl⟩

theorem throw (e : ε) : Withstands limit wrap (MonadExcept.throw e : ExceptT ε Eval α) := by
  intro m _ b n h
  cases h

theorem bind {x : ExceptT ε Eval α} {f : α → ExceptT ε Eval β} (hx : Withstands limit wrap x)
    (hf : ∀ a, Withstands limit wrap (f a)) : Withstands limit wrap (x >>= f) := by
  intro m hraised b n h
  obtain ⟨a, m₁, hrun, h⟩ := Eval.run_bindExcept_ok h
  have hx := hx m (fun q k hq => hraised q k (Eval.raises_bindExcept.mpr (.inl hq))) a m₁ hrun
  have hf := hf a m₁ (fun q k hq =>
    hraised q k (Eval.raises_bindExcept.mpr (.inr ⟨a, m₁, hrun, hq⟩))) b n h
  obtain ⟨hm₁, hx⟩ := hx
  obtain ⟨hn, hf⟩ := hf
  refine ⟨hn.trans hm₁, ?_⟩
  rcases hx with hx | ⟨hlow, depth, k, hx⟩
  · rw [Eval.run_bind_ok hx]
    rwa [hm₁] at hf
  · exact .inr ⟨hlow, depth, k, Eval.run_bind_error hx f⟩

/-- A part that only looks at the machine or changes it alike. -/
theorem lift {x : Eval α}
    (hx : ∀ m, ∃ a n, x.run engine m = some (a, n) ∧ n.stack.limit = m.stack.limit ∧
      x.run engine (m.withLimit limit) = some (a, n.withLimit limit)) :
    Withstands limit wrap (liftM x : ExceptT ε Eval α) := by
  intro m _ b n h
  obtain ⟨a, n', hrun, hn, hrun'⟩ := hx m
  have hlift (k : Machine) : (liftM x : ExceptT ε Eval α).run.run engine k =
      (x.run engine k).bind fun r => some (.ok r.1, r.2) := Eval.run_bind _ _ _ _
  rw [hlift, hrun] at h
  cases h
  refine ⟨hn, .inl ?_⟩
  rw [hlift, hrun']
  rfl

theorem within (o : Owner) {x : Attempt α} (hx : Withstands limit id x) :
    Withstands limit id (ProviderGraph.within o x) := by
  intro m hraised a n h
  obtain ⟨t, k, ht, hrun, rfl⟩ := Eval.run_within_ok h
  obtain ⟨hk, hx⟩ := hx { m with stack := t }
    (fun q k hq => hraised q k (Eval.raises_within.mpr ⟨t, ht, hq⟩)) a k hrun
  refine ⟨hk.trans (ScopeStack.limit_of_enter ht), ?_⟩
  rcases Eval.run_within_withLimit x ht limit with hbody | ⟨hlow, hrefused⟩
  · rcases hx with hx | ⟨hlow, depth, k', hx⟩
    · exact .inl (hbody _ _ hx)
    · have hlow : limit < t.limit := hlow
      rw [ScopeStack.limit_of_enter ht] at hlow
      exact .inr ⟨hlow, depth, _, hbody _ _ hx⟩
  · exact .inr ⟨hlow, _, _, hrefused⟩

/-- A question withstands the other limit where the answers do. -/
theorem ask {q : Query} (hq : q.Fallible) (g : q.Answer → Except ε α)
    (hok : ∀ r a, g r = .ok a → q.failure? r = none)
    (herror : ∀ r f, q.failure? r = some (.fault f) → g r = .error (wrap f)) :
    Withstands limit wrap (ExceptT.mk (.ask q fun r => .done (g r))) := by
  intro m hraised a n h
  obtain ⟨⟨r, n'⟩, hrun, h⟩ := Option.bind_eq_some_iff.mp h
  obtain ⟨hr, rfl⟩ := Prod.mk.inj (Option.some.inj h)
  obtain ⟨hn, hq⟩ := hraised q m (.inl ⟨rfl, rfl⟩) hq r n' hrun (hok r a hr)
  refine ⟨hn, ?_⟩
  rcases hq with hq | ⟨hlow, depth, k, r', hq, hr'⟩
  · left
    exact Option.bind_eq_some_iff.mpr ⟨_, hq, congrArg (fun r => some (r, _)) hr⟩
  · right
    exact ⟨hlow, depth, k, Option.bind_eq_some_iff.mpr
      ⟨_, hq, congrArg (fun r => some (r, _)) (herror r' _ hr')⟩⟩

/-- A question that may fail with a fault withstands the other limit. -/
theorem of_fault {q : Query} (hq : q.Fallible) (g : q.Answer → Except Fault α)
    (hg : ∀ r, q.failure? r = Failure.of? .fault (g r)) :
    Withstands limit id (ExceptT.mk (.ask q fun r => .done (g r))) := by
  apply ask hq g
  · intro r a hr
    rw [hg, hr]
    rfl
  · intro r f hr
    rw [hg] at hr
    exact Failure.of?_fault_eq_some_iff.mp hr

theorem of_failure {q : Query} (hq : q.Fallible) (g : q.Answer → Except Failure α)
    (hg : ∀ r, q.failure? r = Failure.of? id (g r)) :
    Withstands limit .fault (ExceptT.mk (.ask q fun r => .done (g r))) := by
  apply ask hq g
  · intro r a hr
    rw [hg, hr]
    rfl
  · intro r f hr
    rw [hg] at hr
    exact Failure.of?_id_eq_some_iff.mp hr

/-- User code that is called in a scope, where a rejection is attributed to its provider. -/
theorem settled (o : Owner) {x : UserCode α} (hx : Withstands limit .fault x)
    (culprit : Eval String) :
    Withstands limit id
      (ProviderGraph.within o (ExceptT.lift x.run) >>= settle culprit) := by
  intro m hraised a n h
  obtain ⟨r, m₁, hrun, h⟩ := Eval.run_bindExcept_ok h
  obtain ⟨rfl, rfl⟩ := Eval.run_settle_ok h
  obtain ⟨t, k, ht, hlift, rfl⟩ := Eval.run_within_ok hrun
  have lifted (m : Machine) : (ExceptT.lift x.run : Attempt (Except Failure α)).run.run engine m =
      (x.run.run engine m).bind fun r => some (.ok r.1, r.2) := Eval.run_bind _ _ _ _
  obtain ⟨⟨r, k'⟩, hcode, hr⟩ := Option.bind_eq_some_iff.mp ((lifted _).symm.trans hlift)
  cases hr
  obtain ⟨hk, hx⟩ := hx { m with stack := t } (fun q k hq => hraised q k
    (Eval.raises_bindExcept.mpr (.inl (Eval.raises_within.mpr
      ⟨t, ht, (Eval.raises_bind _ _).mpr (.inl hq)⟩)))) a _ hcode
  refine ⟨hk.trans (ScopeStack.limit_of_enter ht), ?_⟩
  rcases Eval.run_within_withLimit (ExceptT.lift x.run) ht limit with hbody | ⟨hlow, hrefused⟩
  · have goesOn {r : Except Failure α} {k : Machine}
        (h : x.run.run engine (Machine.withLimit { m with stack := t } limit) = some (r, k)) :=
      Eval.run_bind_ok (hbody (.ok r) k ((lifted _).trans (Option.bind_eq_some_iff.mpr
        ⟨_, h, rfl⟩))) (settle culprit)
    rcases hx with hx | ⟨hlow, depth, k, hx⟩
    · exact .inl (goesOn hx)
    · have hlow : limit < t.limit := hlow
      rw [ScopeStack.limit_of_enter ht] at hlow
      exact .inr ⟨hlow, depth, _, goesOn hx⟩
  · exact .inr ⟨hlow, _, _, Eval.run_bind_error hrefused _⟩

/-- The next call. Its number does not depend on the limit. -/
theorem call (calls : Calls) (culprit : Eval String) :
    Withstands limit id (liftM (nextCall calls) >>= settle culprit) := by
  intro m hraised a n h
  rw [Eval.run_call] at h
  obtain ⟨⟨r, n'⟩, hrun, h⟩ := Option.bind_eq_some_iff.mp h
  obtain ⟨rfl, rfl⟩ := Eval.run_settle_ok h
  obtain ⟨hn, hq⟩ := hraised _ _ ((Eval.raises_call calls _).mpr (.inl ⟨rfl, rfl⟩)) trivial _ _
    hrun rfl
  refine ⟨hn, ?_⟩
  rw [Eval.run_call]
  rcases hq with hq | ⟨hlow, depth, k, r', hq, hr'⟩
  · exact .inl (Option.bind_eq_some_iff.mpr ⟨_, hq, rfl⟩)
  · obtain rfl := Failure.of?_id_eq_some_iff.mp hr'
    exact .inr ⟨hlow, depth, k, Option.bind_eq_some_iff.mpr ⟨_, hq, rfl⟩⟩

/-- A thread of its own starts with a limit of its own. -/
theorem elsewhere (x : Eval (Except Failure α)) :
    Withstands limit .fault (ExceptT.mk (Eval.elsewhere x)) := by
  intro m _ a n h
  obtain ⟨r, hrun, h⟩ := Option.bind_eq_some_iff.mp h
  obtain ⟨hr, rfl⟩ := Prod.mk.inj (Option.some.inj h)
  refine ⟨rfl, .inl (Option.bind_eq_some_iff.mpr ⟨r, hrun, ?_⟩)⟩
  exact congrArg (fun r => some (r, _)) hr

theorem asUserCode {x : Attempt α} (hx : Withstands limit id x) :
    Withstands limit .fault x.asUserCode := by
  intro m hraised a n h
  rw [Eval.run_asUserCode] at h
  obtain ⟨⟨r, n'⟩, hrun, h⟩ := Option.map_eq_some_iff.mp h
  obtain ⟨hr, rfl⟩ := Prod.mk.inj h
  cases r with
  | error f => cases hr
  | ok b =>
    obtain rfl := Except.ok.inj hr
    obtain ⟨hn, hx⟩ := hx m (fun q k hq => hraised q k (Eval.raises_asUserCode.mpr hq)) _ _ hrun
    refine ⟨hn, ?_⟩
    rw [Eval.run_asUserCode]
    rcases hx with hx | ⟨hlow, depth, k, hx⟩
    · exact .inl (Option.map_eq_some_iff.mpr ⟨_, hx, rfl⟩)
    · exact .inr ⟨hlow, depth, k, Option.map_eq_some_iff.mpr ⟨_, hx, rfl⟩⟩

/-- What no limit can be seen in, and nothing else, is looked at. -/
theorem look {γ : Type} (view : Machine → γ)
    (hview : ∀ (m : Machine) limit, view { m with stack := m.stack.setLimit limit } = view m)
    {f : γ → UserCode β} (hf : ∀ a, Withstands limit .fault (f a)) :
    Withstands limit .fault (liftM Eval.machine >>= fun m => f (view m)) := by
  intro m hraised b n h
  have hf := hf (view m) m hraised b n h
  rw [← hview m limit] at hf
  exact hf

/-- What attempts are composed of withstands the other limit. -/
theorem attempt : Attempt.Compositional (Withstands limit id) where
  pure := pure
  throw := throw
  bind := bind
  ownValue p c := of_fault (q := .ownValue p c) trivial id fun _ => rfl
  presence p c := of_fault (q := .presence p c) trivial id fun _ => rfl
  producer p := of_fault (q := .producer p) trivial id fun _ => rfl
  classification p := of_fault (q := .classification p) trivial id fun _ => rfl
  finalize r := of_fault (q := .finalize r) trivial id fun _ => rfl
  within := within
  identity := lift fun _ => ⟨_, _, rfl, rfl, rfl⟩
  property _ := lift fun _ => ⟨_, _, rfl, rfl, rfl⟩
  note _ := lift fun _ => ⟨_, _, rfl, rfl, rfl⟩
  setProperty _ _ := lift fun _ => ⟨_, _, rfl, rfl, rfl⟩

/-- What user code is composed of withstands the other limit. -/
theorem userCode : UserCode.Compositional (Withstands limit id) (Withstands limit .fault) where
  attempt := attempt
  pure := pure
  throw := throw
  bind := bind
  action a held x := of_failure (q := .act a held x) trivial id fun _ => rfl
  build r held := of_failure (q := .build r held) trivial id fun _ => rfl
  identity := lift fun _ => ⟨_, _, rfl, rfl, rfl⟩
  note _ := lift fun _ => ⟨_, _, rfl, rfl, rfl⟩
  look := look
  elsewhere _ _ _ := elsewhere _
  asUserCode := asUserCode

/-- What the rules of a provider are composed of withstands the other limit. -/
theorem provider (p : Provider) : p.Compositional (Withstands limit id) where
  attempt := attempt
  call _ calls := call calls _
  applyTransform _ f x := settled _ (userCode.action f.code f.held x) _
  choose _ choice v := by
    rw [Provider.choose]
    cases v.payload? with
    | some x => exact settled _ (userCode.build choice (some x)) _
    | none => exact settled _ (x := Pure.pure none) (pure none) _

end Withstands

/-! ### Questions -/

theorem engine_eq_map_rule (q : Query) (m : Machine) :
    engine q m = ((rule q).run engine m).map fun r => (id r.1, r.2) :=
  (engine_eq_rule q m).trans (congrFun Option.map_id _).symm

/-- A question withstands the other limit where its rule does. -/
theorem Query.withstands_of {wrap : Fault → ε} {wrap' : ε → Failure} {x : ExceptT ε Eval α}
    (g : Except ε α → q.Answer)
    (hrule : ∀ m, engine q m = (x.run.run engine m).map fun r => (g r.1, r.2))
    (hg : ∀ r, q.failure? (g r) = Failure.of? wrap' r) (hwrap : ∀ f, wrap' (wrap f) = .fault f)
    (hx : ProviderGraph.Withstands limit wrap x)
    (hraised : ∀ q' k, x.run.Raises m q' k → q'.Fallible → q'.Withstands limit k) :
    q.Withstands limit m := by
  intro r n h hr
  rw [hrule] at h
  obtain ⟨⟨r', n'⟩, hrun, h⟩ := Option.map_eq_some_iff.mp h
  obtain ⟨rfl, rfl⟩ := Prod.mk.inj h
  rw [hg] at hr
  cases r' with
  | error e => cases hr
  | ok a =>
    obtain ⟨hn, hx⟩ := hx m hraised a n' hrun
    refine ⟨hn, ?_⟩
    rcases hx with hx | ⟨hlow, depth, k, hx⟩
    · left
      rw [hrule, hx]
      rfl
    · right
      refine ⟨hlow, depth, k, g (.error (wrap (.tooDeep depth limit))), ?_, ?_⟩
      · rw [hrule, hx]
        rfl
      · rw [hg]
        exact congrArg some (hwrap _)

/-- What the rules ask decides whether a question withstands the other limit, unless it runs code
that asks the engine. -/
theorem Query.withstands_of_rule (hq : q.Fallible)
    (hact : ∀ a held x, q = .act a held x → (∀ s, a ≠ .perform s) ∧ ∀ i r, a ≠ .inquire i r)
    (hraised : ∀ q' k, (rule q).Raises m q' k → q'.Fallible → q'.Withstands limit k) :
    q.Withstands limit m := by
  cases q with
  | ownValue p c =>
    exact withstands_of id (engine_eq_map_rule (.ownValue p c)) (fun _ => rfl) (fun _ => rfl)
      ((Withstands.provider p).evalValue c) hraised
  | presence p c =>
    exact withstands_of id (engine_eq_map_rule (.presence p c)) (fun _ => rfl) (fun _ => rfl)
      ((Withstands.provider p).evalPresence c) hraised
  | producer p =>
    exact withstands_of id (engine_eq_map_rule (.producer p)) (fun _ => rfl) (fun _ => rfl)
      (Withstands.provider p).evalProducer hraised
  | classification p =>
    exact withstands_of id (engine_eq_map_rule (.classification p)) (fun _ => rfl) (fun _ => rfl)
      (Withstands.provider p).evalClassification hraised
  | finalize r =>
    exact withstands_of id (engine_eq_map_rule (.finalize r)) (fun _ => rfl) (fun _ => rfl)
      (Withstands.attempt.evalFinalize r) hraised
  | act a held x =>
    obtain ⟨hstep, hinquire⟩ := hact a held x rfl
    exact withstands_of id (engine_eq_map_rule (.act a held x)) (fun _ => rfl) (fun _ => rfl)
      (Withstands.userCode.evalAction a held x hstep
        fun ⟨i, r, h⟩ => absurd h (hinquire i r)) hraised
  | build r held =>
    exact withstands_of id (engine_eq_map_rule (.build r held)) (fun _ => rfl) (fun _ => rfl)
      (Withstands.userCode.evalRecipe r held) hraised
  | text p label => exact hq.elim
  | step s => exact hq.elim

open Terms (reading)

/-- What a reading of a graph comes to withstands the other limit, if no code of the graph comes
back to the engine. -/
theorem Action.Outside.withstands (hC : Action.Outside C) {c : Reading}
    (hq : (reading C m c).asks q) (hk : (reading C m c).holds k) (hfallible : q.Fallible) :
    q.Withstands limit k := by
  intro r n h
  obtain ⟨fuel, hfuel⟩ := engine_eq_some_iff.mp h
  suffices hwithstands : q.Withstands limit k from hwithstands r n h
  clear h
  induction fuel generalizing q k n with
  | zero => exact absurd hfuel (by simp)
  | succ fuel ih =>
    apply Query.withstands_of_rule hfallible
    · rintro a held x rfl
      constructor
      · rintro s rfl
        exact hC.perform hq
      · rintro i r rfl
        exact hC.inquire hq
    · intro q' k' hraised hfallible'
      obtain ⟨hq', hk'⟩ := (hC.kept m c).raises (hC.kept m c q hq) hk hraised
      obtain ⟨⟨r', n'⟩, hr'⟩ := hraised.answered hfuel
      exact ih hq' hk' hfallible' r' n' hr'

/-- To finalize a property is to ask what its strict reading asks. -/
theorem Action.Outside.raises_finalize (hC : Action.Outside C) (hm : m.CallsOnly C)
    {r : PropertyRef} (h : (rule (.finalize r)).Raises m q k) :
    (reading C m .strict).asks q ∧ (reading C m .strict).holds k := by
  have h := Eval.raises_property_bind.mp h
  split at h
  · exact h.elim
  · rcases Eval.raises_bindExcept.mp h with h | ⟨f, m₁, -, h⟩
    · exact (hC.kept m .strict).raises
        (keeps_computeFrozen rfl r fun q hq => hm.effective r.id q hq) (hm.holds .strict) h
    · exact h.elim

/-- What is asked of a provider, and of a property to finalize it. -/
inductive Attempt.Queries : Provider → {α : Type} → Attempt α → Prop where
  | value (p : Provider) (c : Reading) : Queries p (Ask.value p c)
  | presence (p : Provider) (c : Reading) : Queries p (Ask.presence p c)
  | producer (p : Provider) : Queries p (Ask.producer p)
  | classification (p : Provider) : Queries p (Ask.classification p)
  | finalize (r : PropertyRef) : Queries (.property r) (Ask.finalize r)

namespace Attempt.Queries

variable {p : Provider} {x : Attempt α}

/-- What is asked of a provider withstands the other limit. -/
theorem withstands (hx : x.Queries p) : Withstands limit id x := by
  cases hx with
  | value p c => exact Withstands.attempt.value p c
  | presence p c => exact Withstands.attempt.presence p c
  | producer p => exact Withstands.attempt.producer p
  | classification p => exact Withstands.attempt.classification p
  | finalize r => exact Withstands.attempt.finalize r

/-- The question that a query asks withstands the other limit. -/
theorem raised_withstands (hx : x.Queries p) (hC : Action.Outside C) (hm : m.CallsOnly C)
    (hp : p.CallsOnly C) (h : x.run.Raises m q k) : q.Withstands limit k := by
  have hk := hm.holds .strict
  cases hx with
  | value p c =>
    obtain ⟨rfl, rfl⟩ := Eval.raises_value.mp h
    exact hC.withstands (q := .ownValue p c) ⟨hp, fun _ => .inl rfl⟩ hk trivial
  | presence p c =>
    obtain ⟨rfl, rfl⟩ := Eval.raises_ask.mp h
    exact hC.withstands (q := .presence p c) hp hk trivial
  | producer p =>
    obtain ⟨rfl, rfl⟩ := Eval.raises_ask.mp h
    exact hC.withstands (q := .producer p) hp hk trivial
  | classification p =>
    obtain ⟨rfl, rfl⟩ := Eval.raises_ask.mp h
    exact hC.withstands (q := .classification p) hp hk trivial
  | finalize r =>
    obtain ⟨rfl, rfl⟩ := Eval.raises_ask.mp h
    apply Query.withstands_of_rule (q := .finalize r) trivial
    · intro a held y h
      cases h
    · intro q k hraised hfallible
      obtain ⟨hq, hk⟩ := hC.raises_finalize hm hraised
      exact hC.withstands hq hk hfallible

end Attempt.Queries

/-- A query that succeeds gives the same under a higher limit, and leaves the same machine but for
the limit. Under a lower one it does so too, or it ends because it came to nest too deep. -/
theorem limit_only_refuses (hC : Action.Outside C) (hm : m.CallsOnly C) {p : Provider}
    (hp : p.CallsOnly C) {x : Attempt α} (hx : x.Queries p) {a : α}
    (h : x.run.run engine m = some (.ok a, n)) (limit : Nat) :
    (m.stack.limit ≤ limit →
      x.run.run engine (m.withLimit limit) = some (.ok a, n.withLimit limit)) ∧
    (x.run.run engine (m.withLimit limit) = some (.ok a, n.withLimit limit) ∨
      ∃ depth k, x.run.run engine (m.withLimit limit) =
        some (.error (.tooDeep depth limit), k)) := by
  obtain ⟨-, hsame | ⟨hlow, hdeep⟩⟩ :=
    hx.withstands m (fun _ _ hq _ => hx.raised_withstands hC hm hp hq) a n h
  · exact ⟨fun _ => hsame, .inl hsame⟩
  · exact ⟨fun hle => absurd hlow (Nat.not_lt.mpr hle), .inr hdeep⟩

/-- A strict reading that finalizes a property does so under a higher limit as well. With two scopes
it is refused. -/
theorem limit_only_refuses_eagerChoice :
    (Action.Outside fun a => ∃ f, a = .compute f) ∧
      (eagerMachine.CallsOnly fun a => ∃ f, a = .compute f) ∧
      (eagerChoice.CallsOnly fun a => ∃ f, a = .compute f) ∧
      ∃ a n, (Ask.value eagerChoice .strict).run.run engine eagerMachine = some (.ok a, n) ∧
        (n.property 0).finalized = true ∧ eagerMachine.stack.limit = 8 ∧
        (Ask.value eagerChoice .strict).run.run engine (eagerMachine.withLimit 9) =
          some (.ok a, n.withLimit 9) ∧
        ∃ depth k, (Ask.value eagerChoice .strict).run.run engine (eagerMachine.withLimit 2) =
          some (.error (.tooDeep depth 2), k) := by
  have hp : eagerChoice.CallsOnly fun a => ∃ f, a = .compute f := ⟨trivial, .result ⟨_, rfl⟩⟩
  have hrun : ∃ a n, (Ask.value eagerChoice .strict).run.run engine eagerMachine =
      some (.ok a, n) ∧ (n.property 0).finalized = true :=
    ⟨_, _, Eval.run_engine_of_answer 9 rfl, rfl⟩
  obtain ⟨a, n, hrun, hfinalized⟩ := hrun
  have hlimit := limit_only_refuses Action.outside_compute eagerMachine_calls hp
    (.value eagerChoice .strict) hrun
  refine ⟨Action.outside_compute, eagerMachine_calls, hp, a, n, hrun, hfinalized, rfl,
    (hlimit 9).1 (by decide), ?_⟩
  have hrefused : ∃ f k, (Ask.value eagerChoice .strict).run.run engine (eagerMachine.withLimit 2) =
      some (.error f, k) := ⟨_, _, Eval.run_engine_of_answer 9 rfl⟩
  obtain ⟨f, k, hrefused⟩ := hrefused
  rcases (hlimit 2).2 with hsame | hdeep
  · cases hsame.symm.trans hrefused
  · exact hdeep

end ProviderGraph
