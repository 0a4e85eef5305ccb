import ProviderGraph.Proofs.DepthLimit.OnlyRefusals
import ProviderGraph.Proofs.Query.Texts

/-!
# Failures under two limits

Two runs from one machine that differ in the depth limit go in step until a limit refuses a scope,
and then that run ends with the refusal (`InStep`). So where both fail because user code rejects its
input, they fail at the same point, for the same reason and by the same provider
(`rejection_under_limits`). The text of that provider is drawn only then, within the scopes that the
limit still leaves, and where drawing is refused none of them the limit cannot be seen in it
(`Machine.Draws.portrays`).
-/

namespace ProviderGraph

variable {α β ε ρ σ : Type} {m n k : Machine} {q : Query} {a b : Nat} {p : Provider}

/-! ### How two runs end -/

/-- The text of a provider as it is drawn on the machine under a limit. -/
def Machine.shown (m : Machine) (limit : Nat) (p : Provider) : String :=
  m.picture p p.kind (m.stack.setLimit limit)

/-- The failures are the same, or one provider is blamed for the same reason and its texts are drawn
on one machine under either limit. -/
def Failure.Alike (a b : Nat) (e e' : Failure) : Prop :=
  e = e' ∨ ∃ m p reason, e = .fault (.transform (Machine.shown m a p) reason) ∧
    e' = .fault (.transform (Machine.shown m b p) reason)

/-- A run under the limit `a` and one under the limit `b` succeed alike or fail alike on machines
that differ in the limit alone, or one of them was refused a scope. -/
inductive Agree (a b : Nat) (fails : ρ → Option Failure) : ρ × Machine → ρ × Machine → Prop where
  | success {r : ρ} (m : Machine) (h : fails r = none) :
    Agree a b fails (r, m.withLimit a) (r, m.withLimit b)
  | failure {r r' : ρ} (m : Machine) {e e' : Failure} (h : fails r = some e)
    (h' : fails r' = some e') (he : e.Alike a b e') :
    Agree a b fails (r, m.withLimit a) (r', m.withLimit b)
  | left {r r' : ρ} {n n' : Machine} {depth : Nat}
    (h : fails r = some (.fault (.tooDeep depth a))) : Agree a b fails (r, n) (r', n')
  | right {r r' : ρ} {n n' : Machine} {depth : Nat}
    (h : fails r' = some (.fault (.tooDeep depth b))) : Agree a b fails (r, n) (r', n')

/-- What the limit plays no part in keeps the ends of two runs in agreement. -/
theorem Agree.map {fails : ρ → Option Failure} {fails' : σ → Option Failure} {r r' : ρ × Machine}
    (h : Agree a b fails r r') (g : ρ → σ) (f : Machine → Machine)
    (hg : ∀ r, fails' (g r) = fails r) (hf : ∀ m c, f (m.withLimit c) = (f m).withLimit c) :
    Agree a b fails' (g r.1, f r.2) (g r'.1, f r'.2) := by
  cases h with
  | success m h =>
    rw [hf, hf]
    exact .success (f m) ((hg _).trans h)
  | failure m h h' he =>
    rw [hf, hf]
    exact .failure (f m) ((hg _).trans h) ((hg _).trans h') he
  | left h => exact .left ((hg _).trans h)
  | right h => exact .right ((hg _).trans h)

/-- The question ends alike under both limits. -/
def Query.InStep (a b : Nat) (q : Query) (m : Machine) : Prop :=
  ∀ r r', engine q (m.withLimit a) = some r → engine q (m.withLimit b) = some r' →
    Agree a b q.failure? r r'

/-- The computation ends alike under both limits, as long as this holds of all that is asked. -/
def InStep (a b : Nat) (wrap : ε → Failure) (x : ExceptT ε Eval α) : Prop :=
  ∀ m, (∀ q k, x.run.Raises (Machine.withLimit m a) q (Machine.withLimit k a) → q.Fallible →
      q.InStep a b k) →
    ∀ r r', x.run.run engine (m.withLimit a) = some r →
      x.run.run engine (m.withLimit b) = some r' → Agree a b (Failure.of? wrap) r r'

/-- A result tells of no failure where it is a success. -/
theorem Failure.of?_eq_none_iff {wrap : ε → Failure} {r : Except ε α} :
    Failure.of? wrap r = none ↔ ∃ v, r = .ok v := by
  cases r <;> simp [Failure.of?]

/-- A result tells of the failure that it is. -/
theorem Failure.of?_eq_some_iff {wrap : ε → Failure} {r : Except ε α} {e : Failure} :
    Failure.of? wrap r = some e ↔ ∃ x, r = .error x ∧ wrap x = e := by
  cases r <;> simp [Failure.of?]

/-- A scope is refused if it is open already, or for the limit; otherwise the body runs in it. -/
theorem Eval.run_within_withLimit_cases {o : Owner} {x : Attempt α} {r : Except Fault α × Machine}
    (h : (ProviderGraph.within o x).run.run engine (m.withLimit a) = some r) :
    (m.stack.isOpen o.id = true ∧
      r = (.error (.circular (m.stack.cycleFrom o.id ++ [o.label])), m.withLimit a)) ∨
    (m.stack.isOpen o.id = false ∧ ∃ depth, r = (.error (.tooDeep depth a), m.withLimit a)) ∨
    m.stack.isOpen o.id = false ∧
      (m.withLimit a).stack.enter o = .ok ((m.stack.push o).setLimit a) ∧
      ∃ s, x.run.run engine (Machine.withLimit { m with stack := m.stack.push o } a) = some s ∧
        r = (s.1, { s.2 with stack := s.2.stack.leave o.id }) := by
  have hsame : (m.withLimit a).stack.isOpen o.id = m.stack.isOpen o.id := rfl
  cases hopen : m.stack.isOpen o.id with
  | true =>
    left
    have henter := (m.withLimit a).stack.enter_of_isOpen o (hsame.trans hopen)
    have hrun : (ProviderGraph.within o x).run.run engine (m.withLimit a) = _ :=
      run_within_error henter rfl
    exact ⟨rfl, Option.some.inj (h.symm.trans hrun)⟩
  | false =>
    right
    by_cases hroom : m.stack.depth < a
    · right
      have henter : (m.withLimit a).stack.enter o = .ok ((m.stack.push o).setLimit a) :=
        ScopeStack.enter_eq_ok_iff.mpr ⟨hsame.trans hopen, hroom, rfl⟩
      have hrun : (ProviderGraph.within o x).run.run engine (m.withLimit a) = _ :=
        run_within_eq henter
      obtain ⟨s, hs, hr⟩ := Option.map_eq_some_iff.mp (hrun.symm.trans h)
      exact ⟨rfl, henter, s, hs, hr.symm⟩
    · left
      have henter : (m.withLimit a).stack.enter o = .error (.tooDeep (m.stack.depth + 1) a) := by
        have hfull : (m.withLimit a).stack.limit ≤ (m.withLimit a).stack.depth :=
          Nat.le_of_not_lt hroom
        rw [ScopeStack.enter, hsame, hopen, if_neg (by decide), if_pos hfull]
        rfl
      have hrun : (ProviderGraph.within o x).run.run engine (m.withLimit a) = _ :=
        run_within_error henter rfl
      exact ⟨rfl, _, Option.some.inj (h.symm.trans hrun)⟩

/-- Whoever rejects its input is told by its text. -/
theorem Eval.run_settle_text (p : Provider) (reason : String) (m : Machine) (limit : Nat) :
    (ProviderGraph.settle (Ask.text p) (.error (.rejected reason) : Except Failure α)).run.run
      engine (m.withLimit limit) =
        some (.error (.transform (m.shown limit p) reason), m.withLimit limit) := by
  have htext : (Ask.text p).run engine (m.withLimit limit) =
      some (m.shown limit p, m.withLimit limit) :=
    (Eval.run_ask _ _ _).trans
      (engine_of_answer (answer_text (m := m) (n := m.withLimit limit) (fun _ => rfl)
        (Nat.lt_succ_self _) p p.kind))
  have hsettle :
      (ProviderGraph.settle (Ask.text p) (.error (.rejected reason) : Except Failure α)).run =
        Ask.text p >>= fun t => pure (.error (.transform t reason)) := run_lift_bind _ _
  rw [hsettle, run_bind_of htext]
  rfl

namespace InStep

variable {wrap : ε → Failure}

theorem pure (v : α) : InStep a b wrap (Pure.pure v : ExceptT ε Eval α) := by
  intro m _ r r' h h'
  cases h
  cases h'
  exact .success m rfl

theorem throw (e : ε) : InStep a b wrap (MonadExcept.throw e : ExceptT ε Eval α) := by
  intro m _ r r' h h'
  cases h
  cases h'
  exact .failure m rfl rfl (.inl rfl)

theorem bind {x : ExceptT ε Eval α} {f : α → ExceptT ε Eval β} (hx : InStep a b wrap x)
    (hf : ∀ v, InStep a b wrap (f v)) : InStep a b wrap (x >>= f) := by
  intro m hraised r r' h h'
  rw [ExceptT.run_bind, Eval.run_bind] at h h'
  obtain ⟨s, hs, h⟩ := Option.bind_eq_some_iff.mp h
  obtain ⟨s', hs', h'⟩ := Option.bind_eq_some_iff.mp h'
  have hagree := hx m (fun q k hq => hraised q k (Eval.raises_bindExcept.mpr (.inl hq))) s s' hs hs'
  cases hagree with
  | success k hok =>
    obtain ⟨v, rfl⟩ := Failure.of?_eq_none_iff.mp hok
    exact hf v k (fun q l hq =>
      hraised q l (Eval.raises_bindExcept.mpr (.inr ⟨v, _, hs, hq⟩))) r r' h h'
  | failure k he he' halike =>
    obtain ⟨e, rfl, rfl⟩ := Failure.of?_eq_some_iff.mp he
    obtain ⟨e', rfl, rfl⟩ := Failure.of?_eq_some_iff.mp he'
    cases h
    cases h'
    exact .failure k rfl rfl halike
  | left he =>
    obtain ⟨e, rfl, hdeep⟩ := Failure.of?_eq_some_iff.mp he
    cases h
    exact .left (congrArg some hdeep)
  | right he =>
    obtain ⟨e, rfl, hdeep⟩ := Failure.of?_eq_some_iff.mp he
    cases h'
    exact .right (congrArg some hdeep)

/-- A part that only looks at the machine or changes it alike. -/
theorem lift {x : Eval α} (hx : ∀ m, ∃ v n, ∀ c,
    x.run engine (Machine.withLimit m c) = some (v, Machine.withLimit n c)) :
    InStep a b wrap (liftM x : ExceptT ε Eval α) := by
  intro m _ r r' h h'
  obtain ⟨v, n, hrun⟩ := hx m
  have hlift (k : Machine) : (liftM x : ExceptT ε Eval α).run.run engine k =
      (x.run engine k).bind fun r => some (.ok r.1, r.2) := Eval.run_bind _ _ _ _
  rw [hlift, hrun] at h h'
  cases h
  cases h'
  exact .success n rfl

/-- A cycle is refused under either limit. -/
theorem within (o : Owner) {x : Attempt α} (hx : InStep a b .fault x) :
    InStep a b .fault (ProviderGraph.within o x) := by
  intro m hraised r r' h h'
  rcases Eval.run_within_withLimit_cases h with
    ⟨hopen, rfl⟩ | ⟨-, depth, rfl⟩ | ⟨hopen, henter, s, hs, rfl⟩
  · rcases Eval.run_within_withLimit_cases h' with ⟨-, rfl⟩ | ⟨hclosed, -⟩ | ⟨hclosed, -⟩
    · exact .failure m rfl rfl (.inl rfl)
    · cases hopen.symm.trans hclosed
    · cases hopen.symm.trans hclosed
  · exact .left rfl
  · rcases Eval.run_within_withLimit_cases h' with
      ⟨hcycle, -⟩ | ⟨-, depth, rfl⟩ | ⟨-, -, s', hs', rfl⟩
    · cases hcycle.symm.trans hopen
    · exact .right rfl
    · have hagree := hx { m with stack := m.stack.push o }
        (fun q k hq => hraised q k (Eval.raises_within.mpr ⟨_, henter, hq⟩)) s s' hs hs'
      exact hagree.map id (fun k => { k with stack := k.stack.leave o.id }) (fun _ => rfl)
        fun _ _ => rfl

/-- A question ends alike under both limits where its answers do. -/
theorem ask {q : Query} (hq : q.Fallible) (g : q.Answer → Except ε α)
    (hg : ∀ r, Failure.of? wrap (g r) = q.failure? r) :
    InStep a b wrap (ExceptT.mk (.ask q fun r => .done (g r))) := by
  intro m hraised r r' h h'
  obtain ⟨s, hs, h⟩ := Option.bind_eq_some_iff.mp h
  obtain ⟨s', hs', h'⟩ := Option.bind_eq_some_iff.mp h'
  cases h
  cases h'
  exact (hraised q _ (.inl ⟨rfl, rfl⟩) hq s s' hs hs').map g id hg fun _ _ => rfl

/-- A rejection is attributed to a provider by its name, or by its text as it is drawn then. -/
theorem settle {culprit : Eval String}
    (hculprit : (∃ p, culprit = Ask.text p) ∨ ∃ name, culprit = Pure.pure name)
    {s s' : Except Failure α × Machine} (hs : Agree a b (Failure.of? id) s s')
    {r r' : Except Fault α × Machine}
    (h : (ProviderGraph.settle culprit s.1).run.run engine s.2 = some r)
    (h' : (ProviderGraph.settle culprit s'.1).run.run engine s'.2 = some r') :
    Agree a b (Failure.of? .fault) r r' := by
  have hfault {f : Fault} {n : Machine} {t : Except Fault α × Machine}
      (h : (ProviderGraph.settle culprit (.error (.fault f) : Except Failure α)).run.run engine n =
        some t) : t = (.error f, n) := (Option.some.inj h).symm
  cases hs with
  | success k hok =>
    obtain ⟨v, rfl⟩ := Failure.of?_eq_none_iff.mp hok
    cases h
    cases h'
    exact .success k rfl
  | failure k he he' halike =>
    obtain ⟨e, rfl, rfl⟩ := Failure.of?_eq_some_iff.mp he
    obtain ⟨e', rfl, rfl⟩ := Failure.of?_eq_some_iff.mp he'
    match e with
    | .fault f =>
      rw [hfault h]
      rcases halike with rfl | ⟨l, culprit', reason, hf, rfl⟩
      · rw [hfault h']
        exact .failure k rfl rfl (.inl rfl)
      · rw [hfault h']
        exact .failure k rfl rfl (.inr ⟨l, culprit', reason, hf, rfl⟩)
    | .rejected reason =>
      obtain rfl : e' = .rejected reason := by
        rcases halike with he | ⟨l, culprit', reason', he, -⟩
        · exact he.symm
        · exact absurd he (by simp)
      rcases hculprit with ⟨p, rfl⟩ | ⟨name, rfl⟩
      · rw [Eval.run_settle_text] at h h'
        cases h
        cases h'
        exact .failure k rfl rfl (.inr ⟨k, p, reason, rfl, rfl⟩)
      · cases h
        cases h'
        exact .failure k rfl rfl (.inl rfl)
  | left he =>
    obtain ⟨e, rfl, rfl⟩ := Failure.of?_eq_some_iff.mp he
    rw [hfault h]
    exact .left rfl
  | right he =>
    obtain ⟨e, rfl, rfl⟩ := Failure.of?_eq_some_iff.mp he
    rw [hfault h']
    exact .right rfl

/-- User code that is called in a scope, where a rejection is attributed to its provider. -/
theorem settled (o : Owner) {x : UserCode α} (hx : InStep a b id x) {culprit : Eval String}
    (hculprit : (∃ p, culprit = Ask.text p) ∨ ∃ name, culprit = Pure.pure name) :
    InStep a b .fault
      (ProviderGraph.within o (ExceptT.lift x.run) >>= ProviderGraph.settle culprit) := by
  have lifted (m : Machine) : (ExceptT.lift x.run : Attempt (Except Failure α)).run.run engine m =
      (x.run.run engine m).bind fun r => some (.ok r.1, r.2) := Eval.run_bind _ _ _ _
  intro m hraised r r' h h'
  rw [ExceptT.run_bind, Eval.run_bind] at h h'
  obtain ⟨s, hs, h⟩ := Option.bind_eq_some_iff.mp h
  obtain ⟨s', hs', h'⟩ := Option.bind_eq_some_iff.mp h'
  rcases Eval.run_within_withLimit_cases hs with
    ⟨hopen, rfl⟩ | ⟨-, depth, rfl⟩ | ⟨hopen, henter, t, ht, rfl⟩
  · rcases Eval.run_within_withLimit_cases hs' with ⟨-, rfl⟩ | ⟨hclosed, -⟩ | ⟨hclosed, -⟩
    · cases h
      cases h'
      exact .failure m rfl rfl (.inl rfl)
    · cases hopen.symm.trans hclosed
    · cases hopen.symm.trans hclosed
  · cases h
    exact .left rfl
  · rcases Eval.run_within_withLimit_cases hs' with
      ⟨hcycle, -⟩ | ⟨-, depth, rfl⟩ | ⟨-, -, t', ht', rfl⟩
    · cases hcycle.symm.trans hopen
    · cases h'
      exact .right rfl
    · obtain ⟨u, hu, ht⟩ := Option.bind_eq_some_iff.mp ((lifted _).symm.trans ht)
      obtain ⟨u', hu', ht'⟩ := Option.bind_eq_some_iff.mp ((lifted _).symm.trans ht')
      cases ht
      cases ht'
      have hagree := hx { m with stack := m.stack.push o } (fun q k hq => hraised q k
        (Eval.raises_bindExcept.mpr (.inl (Eval.raises_within.mpr
          ⟨_, henter, (Eval.raises_bind _ _).mpr (.inl hq)⟩)))) u u' hu hu'
      have hclosed := hagree.map id (fun k => { k with stack := k.stack.leave o.id })
        (fun _ => rfl) fun _ _ => rfl
      exact settle hculprit hclosed h h'

/-- The next call. Its number does not depend on the limit. -/
theorem call (calls : Calls) {culprit : Eval String} (hculprit : ∃ name, culprit = Pure.pure name) :
    InStep a b .fault (liftM (nextCall calls) >>= ProviderGraph.settle culprit) := by
  intro m hraised r r' h h'
  rw [Eval.run_call] at h h'
  obtain ⟨s, hs, h⟩ := Option.bind_eq_some_iff.mp h
  obtain ⟨s', hs', h'⟩ := Option.bind_eq_some_iff.mp h'
  have hagree := hraised _ (m.bump calls.counter)
    ((Eval.raises_call calls _).mpr (.inl ⟨rfl, rfl⟩)) trivial s s' hs hs'
  exact settle (.inr hculprit) hagree h h'

/-- A thread of its own starts with a limit of its own. -/
theorem elsewhere (x : Eval (Except Failure α)) :
    InStep a b id (ExceptT.mk (Eval.elsewhere x)) := by
  intro m _ r r' h h'
  obtain ⟨s, hs, h⟩ := Option.bind_eq_some_iff.mp h
  obtain ⟨s', hs', h'⟩ := Option.bind_eq_some_iff.mp h'
  obtain rfl : s = s' := Option.some.inj (hs.symm.trans hs')
  cases h
  cases h'
  have hends : Agree a b (Failure.of? id)
      (s.1, Machine.withLimit { s.2 with stack := m.stack, locals := m.locals } a)
      (s.1, Machine.withLimit { s.2 with stack := m.stack, locals := m.locals } b) := by
    cases hfails : Failure.of? id s.1 with
    | none => exact .success _ hfails
    | some e => exact .failure _ hfails hfails (.inl rfl)
  exact hends

theorem asUserCode {x : Attempt α} (hx : InStep a b .fault x) : InStep a b id x.asUserCode := by
  intro m hraised r r' h h'
  rw [Eval.run_asUserCode] at h h'
  obtain ⟨s, hs, rfl⟩ := Option.map_eq_some_iff.mp h
  obtain ⟨s', hs', rfl⟩ := Option.map_eq_some_iff.mp h'
  have hagree := hx m (fun q k hq => hraised q k (Eval.raises_asUserCode.mpr hq)) s s' hs hs'
  refine hagree.map (Except.mapError Failure.fault) id (fun r => ?_) fun _ _ => rfl
  cases r <;> rfl

/-- What no limit can be seen in, and nothing else, is looked at. -/
theorem look {γ : Type} (view : Machine → γ)
    (hview : ∀ (m : Machine) limit, view { m with stack := m.stack.setLimit limit } = view m)
    {f : γ → UserCode β} (hf : ∀ v, InStep a b id (f v)) :
    InStep a b id (liftM Eval.machine >>= fun m => f (view m)) := by
  intro m hraised r r' h h'
  have hf := hf (view m) m
  have ha : (liftM Eval.machine >>= fun m => f (view m) : UserCode β).run.run engine
      (m.withLimit a) = (f (view m)).run.run engine (m.withLimit a) := by
    rw [← hview m a]
    rfl
  have hb : (liftM Eval.machine >>= fun m => f (view m) : UserCode β).run.run engine
      (m.withLimit b) = (f (view m)).run.run engine (m.withLimit b) := by
    rw [← hview m b]
    rfl
  refine hf (fun q k hq => hraised q k ?_) r r' (ha ▸ h) (hb ▸ h')
  rw [← hview m a] at hq
  exact hq

/-- What attempts are composed of ends alike under both limits. -/
theorem attempt : Attempt.Compositional (InStep a b .fault) where
  pure := pure
  throw := throw
  bind := bind
  ownValue p c := ask (q := .ownValue p c) trivial id fun _ => rfl
  presence p c := ask (q := .presence p c) trivial id fun _ => rfl
  producer p := ask (q := .producer p) trivial id fun _ => rfl
  classification p := ask (q := .classification p) trivial id fun _ => rfl
  finalize r := ask (q := .finalize r) trivial id fun _ => rfl
  within := within
  identity := lift fun m => ⟨m.supply, { m with supply := m.supply + 1 }, fun _ => rfl⟩
  property i := lift fun m => ⟨m.property i, m, fun _ => rfl⟩
  note e := lift fun m => ⟨(), m.note e, fun _ => rfl⟩
  setProperty i s := lift fun m => ⟨(), m.setProperty i s, fun _ => rfl⟩

/-- What user code is composed of ends alike under both limits. -/
theorem userCode : UserCode.Compositional (InStep a b .fault) (InStep a b id) where
  attempt := attempt
  pure := pure
  throw := throw
  bind := bind
  action a held x := ask (q := .act a held x) trivial id fun _ => rfl
  build r held := ask (q := .build r held) trivial id fun _ => rfl
  identity := lift fun m => ⟨m.supply, { m with supply := m.supply + 1 }, fun _ => rfl⟩
  note e := lift fun m => ⟨(), m.note e, fun _ => rfl⟩
  look := look
  elsewhere _ _ _ := elsewhere _
  asUserCode := asUserCode

/-- What the rules of a provider are composed of ends alike under both limits. -/
theorem provider (p : Provider) : p.Compositional (InStep a b .fault) where
  attempt := attempt
  call hp calls := call calls hp
  applyTransform _ f x := settled _ (userCode.action f.code f.held x) (.inl ⟨p, rfl⟩)
  choose hp choice v := by
    rw [Provider.choose]
    cases v.payload? with
    | some x => exact settled _ (userCode.build choice (some x)) (.inl ⟨p, rfl⟩)
    | none => exact settled _ (x := Pure.pure none) (pure none) (.inl ⟨p, rfl⟩)

end InStep

/-! ### Questions -/

/-- What the rules ask decides whether a question ends alike under both limits, unless it runs code
that asks the engine. -/
theorem Query.inStep_of_rule (hq : q.Fallible)
    (hact : ∀ c held x, q = .act c held x → (∀ s, c ≠ .perform s) ∧ ∀ i r, c ≠ .inquire i r)
    (hraised : ∀ q' k, (rule q).Raises (m.withLimit a) q' (Machine.withLimit k a) → q'.Fallible →
      q'.InStep a b k) : q.InStep a b m := by
  intro r r' h h'
  rw [engine_eq_rule] at h h'
  cases q with
  | ownValue p c => exact (InStep.provider p).evalValue c m hraised r r' h h'
  | presence p c => exact (InStep.provider p).evalPresence c m hraised r r' h h'
  | producer p => exact (InStep.provider p).evalProducer m hraised r r' h h'
  | classification p => exact (InStep.provider p).evalClassification m hraised r r' h h'
  | finalize s => exact InStep.attempt.evalFinalize s m hraised r r' h h'
  | act c held x =>
    obtain ⟨hstep, hinquire⟩ := hact c held x rfl
    exact InStep.userCode.evalAction c held x hstep (fun ⟨i, s, hs⟩ => absurd hs (hinquire i s))
      m hraised r r' h h'
  | build s held => exact InStep.userCode.evalRecipe s held m hraised r r' h h'
  | text p label => exact hq.elim
  | step s => exact hq.elim

open Terms (reading)

variable {C : Action → Prop}

/-- What a reading of a graph comes to ends alike under both limits, if no code of the graph comes
back to the engine. -/
theorem Action.Outside.inStep (hC : Action.Outside C) {c : Reading}
    (hq : (reading C m c).asks q) (hk : (reading C m c).holds k) (hfallible : q.Fallible) :
    q.InStep a b k := by
  intro r r' h h'
  obtain ⟨fuel, hfuel⟩ := engine_eq_some_iff.mp h
  suffices hstep : q.InStep a b k from hstep r r' h h'
  clear h h' r'
  induction fuel generalizing q k with
  | zero => exact absurd hfuel (by simp)
  | succ fuel ih =>
    apply Query.inStep_of_rule hfallible
    · rintro d held x rfl
      constructor
      · rintro s rfl
        exact hC.perform hq
      · rintro i s rfl
        exact hC.inquire hq
    · intro q' k' hraised hfallible'
      have hk : (reading C m c).holds (k.withLimit a) := (reading C m c).congr (m := k) rfl rfl hk
      obtain ⟨hq', hk'⟩ := (hC.kept m c).raises (hC.kept m c q hq) hk hraised
      obtain ⟨s, hs⟩ := hraised.answered hfuel
      exact ih hq' ((reading C m c).congr (m := k'.withLimit a) rfl rfl hk') hfallible' s hs

/-! ### Drawing with room to spare -/

namespace Machine

variable {s : ScopeStack} {frames : List Owner} {label t t' : String}

/-- The providers whose texts a description shows. -/
def displayed (m : Machine) : Provider → List Provider
  | .fixed _ _ | .undefined _ _ _ | .changing _ _ _ _ | .named _ _ _ | .custom _ _ _ _ _ => []
  | .map _ base _ _ | .flatMap _ base _ _ => [base]
  | .orElse _ left right => [left, right]
  | .withEffect _ inner _ => [inner]
  | .property r =>
    match r.name with
    | some _ => []
    | none => (m.property r.id).effective.toList

/-- The texts of other providers play no part in a description. -/
theorem describe_congr {text text' : Provider → String}
    (h : ∀ q ∈ m.displayed p, text q = text' q) :
    m.describe (M := Id) text p = m.describe (M := Id) text' p := by
  cases p with
  | fixed | undefined | named | custom => rfl
  | changing i type node calls => cases node <;> rfl
  | map i base | flatMap i base | withEffect i base =>
    have hbase := h base (List.mem_singleton_self base)
    simp only [describe, hbase]
  | orElse i left right =>
    have hleft := h left (by simp [displayed])
    have hright := h right (by simp [displayed])
    simp only [describe, hleft, hright]
  | property r =>
    simp only [describe_property]
    simp only [displayed] at h
    split
    · rfl
    · next hname =>
      split
      · next q hq =>
        have hpart := h q (by simp [hname, hq])
        simp only [hpart]
      · rfl

/-- The text of a provider among open scopes, whatever the limit: a label stands only for a provider
whose scope is open already. -/
inductive Portrays (m : Machine) : List Owner → Provider → String → String → Prop where
  | label {frames : List Owner} {p : Provider} {label : String}
    (h : frames.any (·.id == p.id) = true) : Portrays m frames p label label
  | drawn {frames : List Owner} {p : Provider} {label : String} {text : Provider → String}
    (h : frames.any (·.id == p.id) = false)
    (hparts : ∀ q ∈ m.displayed p, Portrays m (⟨p.id, label⟩ :: frames) q q.kind (text q)) :
    Portrays m frames p label (m.describe (M := Id) text p)

/-- There is one such text at most. -/
theorem Portrays.unique (h : m.Portrays frames p label t) (h' : m.Portrays frames p label t') :
    t = t' := by
  induction h generalizing t' with
  | label h =>
    cases h' with
    | label => rfl
    | drawn h' => cases h.symm.trans h'
  | drawn h hparts ih =>
    cases h' with
    | label h' => cases h'.symm.trans h
    | drawn _ hparts' => exact describe_congr fun q hq => ih q hq (hparts' q hq)

/-- While the provider is drawn the limit refuses no scope. -/
inductive Draws (m : Machine) : ScopeStack → Provider → String → Prop where
  | label {s : ScopeStack} {p : Provider} {label : String} (h : s.isOpen p.id = true) :
    Draws m s p label
  | drawn {s : ScopeStack} {p : Provider} {label : String} (h : s.isOpen p.id = false)
    (hlimit : s.depth < s.limit)
    (hparts : ∀ q ∈ m.displayed p, Draws m (s.push ⟨p.id, label⟩) q q.kind) : Draws m s p label

/-- A provider that is not open is drawn in a scope of its own, and its parts in that scope. -/
theorem Draws.of_not_isOpen (h : m.Draws s p label) (hopen : s.isOpen p.id = false) :
    s.depth < s.limit ∧ ∀ q ∈ m.displayed p, m.Draws (s.push ⟨p.id, label⟩) q q.kind := by
  cases h with
  | label h => cases hopen.symm.trans h
  | drawn _ hlimit hparts => exact ⟨hlimit, hparts⟩

/-- So labels stand only for providers whose scopes are open. -/
theorem Draws.portrays (h : m.Draws s p label) :
    m.Portrays s.frames p label (m.picture p label s) := by
  induction h with
  | label h =>
    rw [picture_of_refuses (.inl h)]
    exact .label h
  | @drawn s p label h hlimit hparts ih =>
    have hfree : ¬ s.Refuses p.id := by
      rintro (hopen | hfull)
      · cases hopen.symm.trans h
      · exact Nat.not_lt.mpr hfull hlimit
    rw [picture_of_not_refuses hfree]
    exact .drawn h ih

end Machine

/-! ### Rejections -/

/-- Where a value is refused under two limits because user code rejects its input, both runs come to
the same point: for the same reason one provider is blamed there, by a name of its own or by its
text as each limit has it drawn. Where neither limit refuses a scope for the drawing the texts are
the same, and labels stand only for providers whose scopes are open. -/
theorem rejection_under_limits {C : Action → Prop} (hC : Action.Outside C) (hm : m.CallsOnly C)
    (hp : p.CallsOnly C) {c : Reading} {t t' reason reason' : String} {n' : Machine}
    (h : (Ask.value p c).run.run engine (m.withLimit a) = some (.error (.transform t reason), n))
    (h' : (Ask.value p c).run.run engine (m.withLimit b) =
      some (.error (.transform t' reason'), n')) :
    reason = reason' ∧ (∃ k, n = Machine.withLimit k a ∧ n' = Machine.withLimit k b) ∧
      (t = t' ∨ ∃ k culprit, t = Machine.shown k a culprit ∧ t' = Machine.shown k b culprit ∧
        (k.Draws (k.stack.setLimit a) culprit culprit.kind →
          k.Portrays k.stack.frames culprit culprit.kind t ∧
          (k.Draws (k.stack.setLimit b) culprit culprit.kind → t = t'))) := by
  have hstep : InStep a b .fault (Ask.value p c) := InStep.attempt.value p c
  have hraised (q : Query) (k : Machine)
      (hq : (Ask.value p c).run.Raises (m.withLimit a) q (k.withLimit a)) : q.InStep a b k := by
    obtain ⟨rfl, hk⟩ := Eval.raises_value.mp hq
    have hproperties : (k.withLimit a).properties = (m.withLimit a).properties := by rw [hk]
    have hregisters : (k.withLimit a).providerRegisters = (m.withLimit a).providerRegisters := by
      rw [hk]
    have hholds : (Terms.reading C m .strict).holds k :=
      (Terms.reading C m .strict).congr (m := m) (n := k) hproperties hregisters (hm.holds .strict)
    exact hC.inStep (q := .ownValue p c) ⟨hp, fun _ => .inl rfl⟩ hholds trivial
  have hagree := hstep m (fun q k hq _ => hraised q k hq) _ _ h h'
  cases hagree with
  | success k hok => cases hok
  | failure k he he' halike =>
    cases he
    cases he'
    refine ⟨?_, ⟨k, rfl, rfl⟩, ?_⟩
    · rcases halike with hsame | ⟨l, culprit, why, hf, hf'⟩
      · cases hsame
        rfl
      · cases hf
        cases hf'
        rfl
    · rcases halike with hsame | ⟨l, culprit, why, hf, hf'⟩
      · cases hsame
        exact .inl rfl
      · cases hf
        cases hf'
        refine .inr ⟨l, culprit, rfl, rfl, fun hdraws => ⟨hdraws.portrays, fun hdraws' => ?_⟩⟩
        exact hdraws.portrays.unique hdraws'.portrays
  | left he => cases he
  | right he => cases he

def stubbornMap : Provider :=
  .map 1 (.fixed 0 (.int 1)) ⟨.compute fun _ => .error (.rejected "no"), none⟩ .int

theorem Machine.fresh_calls (C : Action → Prop) (limit : Nat) : (fresh limit).CallsOnly C where
  effective i q h := by cases h
  providers name q h := by cases h

/-- No scope is open, and yet a limit that leaves room for the evaluation alone has the part of the
culprit shown by its label. -/
theorem limit_shows_in_rejection :
    (Machine.fresh 8).stack.frames = [] ∧
      (∃ n, (Ask.value stubbornMap .strict).run.run engine ((Machine.fresh 8).withLimit 8) =
        some (.error (.transform "map(fixed(1))" "no"), n)) ∧
      ∃ n, (Ask.value stubbornMap .strict).run.run engine ((Machine.fresh 8).withLimit 1) =
        some (.error (.transform "map(fixed)" "no"), n) :=
  ⟨rfl, ⟨_, Eval.run_engine_of_answer 9 rfl⟩, _, Eval.run_engine_of_answer 9 rfl⟩

/-! ### A map over a fallback -/

def doubledPayload : Provider :=
  .map 4 (.withEffect 3 (.fixed 0 (.int 1)) (.deed (.record "read")))
    ⟨.compute fun x => .ok (x.add x), none⟩ .int

/-- The sum stands in for something named that has no value. -/
def doubledInstead : Provider := .orElse 5 (.named 2 (.undefined 1 .int []) "n") doubledPayload

/-- A map whose code rejects what the fallback gives. -/
def stubbornFallback : Provider :=
  .map 6 doubledInstead ⟨.compute fun _ => .error (.rejected "no"), none⟩ .int

theorem stubbornFallback_calls : stubbornFallback.CallsOnly fun a => ∃ f, a = .compute f :=
  ⟨⟨trivial, trivial, _, rfl⟩, _, rfl⟩

namespace Machine

/-- For the drawing five scopes are opened at most, one in the other. -/
theorem draws_stubbornFallback {limit : Nat} (h : 5 ≤ limit) :
    (fresh 8).Draws ((fresh 8).stack.setLimit limit) stubbornFallback "map" := by
  have room (depth : Nat) (hdepth : depth < 5) : depth < limit := Nat.lt_of_lt_of_le hdepth h
  refine .drawn rfl (room 0 (by decide)) (List.forall_mem_singleton.mpr ?_)
  refine .drawn rfl (room 1 (by decide))
    (List.forall_mem_cons.mpr ⟨?_, List.forall_mem_singleton.mpr ?_⟩)
  · exact .drawn rfl (room 2 (by decide)) fun _ hq => nomatch hq
  · refine .drawn rfl (room 2 (by decide)) (List.forall_mem_singleton.mpr ?_)
    refine .drawn rfl (room 3 (by decide)) (List.forall_mem_singleton.mpr ?_)
    exact .drawn rfl (room 4 (by decide)) fun _ hq => nomatch hq

/-- While the fallback is drawn the lower limit refuses a scope. -/
theorem not_draws_stubbornFallback :
    ¬ (fresh 8).Draws ((fresh 8).stack.setLimit 4) stubbornFallback "map" := by
  intro h
  have hfallback := (h.of_not_isOpen rfl).2 doubledInstead (List.mem_singleton_self _)
  have hsum := (hfallback.of_not_isOpen rfl).2 doubledPayload
    (List.mem_cons_of_mem _ (List.mem_singleton_self _))
  have heffect := (hsum.of_not_isOpen rfl).2 _ (List.mem_singleton_self _)
  have hfixed := (heffect.of_not_isOpen rfl).2 _ (List.mem_singleton_self _)
  exact absurd (hfixed.of_not_isOpen rfl).1 (Nat.lt_irrefl 4)

/-- Without a limit that refuses, the whole fallback is drawn. -/
theorem portrays_stubbornFallback :
    (fresh 8).Portrays [] stubbornFallback "map" "map(or(n, map(fixed(1))))" := by
  have drawn (text : Provider → String) {frames : List Owner} {p : Provider} {label : String}
      (h : frames.any (·.id == p.id) = false) (hparts : ∀ q ∈ (fresh 8).displayed p,
        (fresh 8).Portrays (⟨p.id, label⟩ :: frames) q q.kind (text q)) :
      (fresh 8).Portrays frames p label ((fresh 8).describe (M := Id) text p) := .drawn h hparts
  refine drawn (fun _ => "or(n, map(fixed(1)))") rfl (List.forall_mem_singleton.mpr ?_)
  refine drawn (fun q => if q.id = 2 then "n" else "map(fixed(1))") rfl
    (List.forall_mem_cons.mpr ⟨?_, List.forall_mem_singleton.mpr ?_⟩)
  · exact drawn (fun _ => "") rfl fun _ hq => nomatch hq
  · refine drawn (fun _ => "fixed(1)") rfl (List.forall_mem_singleton.mpr ?_)
    refine drawn (fun _ => "fixed(1)") rfl (List.forall_mem_singleton.mpr ?_)
    exact drawn (fun _ => "") rfl fun _ hq => nomatch hq

end Machine

/-- With room for the drawing the text of the map is the same under both limits. Under the lower
limit of the last two the innermost part of the culprit is shown by its label. -/
theorem rejection_under_limits_stubbornFallback :
    (∃ n n', (Ask.value stubbornFallback .strict).run.run engine ((Machine.fresh 8).withLimit 8) =
        some (.error (.transform "map(or(n, map(fixed(1))))" "no"), n) ∧
      (Ask.value stubbornFallback .strict).run.run engine ((Machine.fresh 8).withLimit 5) =
        some (.error (.transform "map(or(n, map(fixed(1))))" "no"), n') ∧
      ∃ k, n = Machine.withLimit k 8 ∧ n' = Machine.withLimit k 5) ∧
    (∃ n n', (Ask.value stubbornFallback .strict).run.run engine ((Machine.fresh 8).withLimit 8) =
        some (.error (.transform "map(or(n, map(fixed(1))))" "no"), n) ∧
      (Ask.value stubbornFallback .strict).run.run engine ((Machine.fresh 8).withLimit 4) =
        some (.error (.transform "map(or(n, map(fixed)))" "no"), n') ∧
      ∃ k culprit, "map(or(n, map(fixed(1))))" = Machine.shown k 8 culprit ∧
        "map(or(n, map(fixed)))" = Machine.shown k 4 culprit) ∧
    (Machine.fresh 8).Draws ((Machine.fresh 8).stack.setLimit 5) stubbornFallback "map" ∧
    (Machine.fresh 8).Portrays [] stubbornFallback "map" "map(or(n, map(fixed(1))))" ∧
    ¬ (Machine.fresh 8).Draws ((Machine.fresh 8).stack.setLimit 4) stubbornFallback "map" := by
  have hm := Machine.fresh_calls (fun a => ∃ f, a = .compute f) 8
  have hrun : ∃ n, (Ask.value stubbornFallback .strict).run.run engine
      ((Machine.fresh 8).withLimit 8) =
        some (.error (.transform "map(or(n, map(fixed(1))))" "no"), n) :=
    ⟨_, Eval.run_engine_of_answer 9 rfl⟩
  have hrun₅ : ∃ n, (Ask.value stubbornFallback .strict).run.run engine
      ((Machine.fresh 8).withLimit 5) =
        some (.error (.transform "map(or(n, map(fixed(1))))" "no"), n) :=
    ⟨_, Eval.run_engine_of_answer 9 rfl⟩
  have hrun₄ : ∃ n, (Ask.value stubbornFallback .strict).run.run engine
      ((Machine.fresh 8).withLimit 4) =
        some (.error (.transform "map(or(n, map(fixed)))" "no"), n) :=
    ⟨_, Eval.run_engine_of_answer 9 rfl⟩
  obtain ⟨n, hrun⟩ := hrun
  obtain ⟨n₅, hrun₅⟩ := hrun₅
  obtain ⟨n₄, hrun₄⟩ := hrun₄
  obtain ⟨-, hsame, -⟩ :=
    rejection_under_limits Action.outside_compute hm stubbornFallback_calls hrun hrun₅
  obtain ⟨-, -, htexts⟩ :=
    rejection_under_limits Action.outside_compute hm stubbornFallback_calls hrun hrun₄
  have hshown := htexts.resolve_left (by decide)
  obtain ⟨k, culprit, ht, ht', -⟩ := hshown
  exact ⟨⟨n, n₅, hrun, hrun₅, hsame⟩, ⟨n, n₄, hrun, hrun₄, k, culprit, ht, ht'⟩,
    Machine.draws_stubbornFallback (Nat.le_refl 5), Machine.portrays_stubbornFallback,
    Machine.not_draws_stubbornFallback⟩

end ProviderGraph
