import ProviderGraph.Proofs.DepthLimit.OnlyRefusals
import ProviderGraph.Proofs.DepthLimit.Overflow

/-!
# Refusals are not hidden

A scope that is refused for the depth limit fails whatever needs it, as long as no code comes back
to the engine. So a question that succeeds has met no limit (`Action.Outside.not_meetsLimit`).
-/

namespace ProviderGraph

variable {m n k : Machine} {q : Query} {α β ε : Type} {C : Action → Prop}

/-- If the question succeeds, it has met no limit. -/
def Query.Unrefused (q : Query) (m : Machine) : Prop :=
  ∀ r n, engine q m = some (r, n) → q.failure? r = none → ¬ q.MeetsLimit m

/-- A computation that succeeds has met no limit, as long as this holds of all that is asked. -/
def ShowsRefusals (x : ExceptT ε Eval α) : Prop :=
  ∀ m, (∀ q k, x.run.Raises m q k → q.Fallible → q.Unrefused k) →
    ∀ a n, x.run.run engine m = some (.ok a, n) → ¬ x.run.MeetsLimit m

namespace Eval

/-- Only after a success what follows can meet a limit. -/
theorem meetsLimit_bindExcept {x : ExceptT ε Eval α} {f : α → ExceptT ε Eval β} :
    (x >>= f).run.MeetsLimit m ↔
      x.run.MeetsLimit m ∨
        ∃ a m₁, x.run.run engine m = some (.ok a, m₁) ∧ (f a).run.MeetsLimit m₁ := by
  rw [ExceptT.run_bind, meetsLimit_bind]
  constructor
  · rintro (h | ⟨⟨⟨e⟩ | ⟨a⟩, m₁⟩, hr, h⟩)
    · exact .inl h
    · exact absurd h (not_meetsLimit_pure _)
    · exact .inr ⟨a, m₁, hr, h⟩
  · rintro (h | ⟨a, m₁, hr, h⟩)
    · exact .inl h
    · exact .inr ⟨_, hr, h⟩

theorem not_meetsLimit_lift {x : Eval α} (hx : ¬ x.MeetsLimit m) :
    ¬ (liftM x : ExceptT ε Eval α).run.MeetsLimit m :=
  not_meetsLimit_bind hx fun _ _ => not_meetsLimit_pure _

theorem not_meetsLimit_identity : ¬ Eval.identity.MeetsLimit m := by
  rintro (h | ⟨_, _, h, _⟩) <;> exact h

theorem not_meetsLimit_property (i : Identity) : ¬ (Eval.property i).MeetsLimit m := by
  rintro (h | ⟨_, _, h, _⟩) <;> exact h

theorem not_meetsLimit_note {e : Event} : ¬ (Eval.note e).MeetsLimit m := by
  rintro (h | ⟨_, _, h, _⟩) <;> exact h

/-- Elsewhere a limit is met where it is met on a new thread. -/
theorem meetsLimit_elsewhere {x : Eval α} :
    (Eval.elsewhere x).MeetsLimit m ↔ x.MeetsLimit (newThread m) := by
  have overflows : (Eval.elsewhere x).Overflows m ↔ x.Overflows (newThread m) := by
    refine or_iff_left ?_
    rintro ⟨_, _, h⟩
    exact h
  have raises (q : Query) (n : Machine) :
      (Eval.elsewhere x).Raises m q n ↔ x.Raises (newThread m) q n := by
    refine or_iff_left ?_
    rintro ⟨_, _, h⟩
    exact h
  simp only [MeetsLimit, overflows, raises]

end Eval

namespace ShowsRefusals

/-- A success shows that no limit was met, if this holds of all that is asked. -/
theorem not_meetsLimit {x : ExceptT ε Eval α} (hx : ShowsRefusals x)
    (hraised : ∀ q k, x.run.Raises m q k → q.Fallible → q.Unrefused k) {wrap : ε → Failure}
    {r : Except ε α} (h : x.run.run engine m = some (r, n)) (hr : Failure.of? wrap r = none) :
    ¬ x.run.MeetsLimit m := by
  cases r with
  | ok a => exact hx m hraised a n h
  | error e => cases hr

theorem pure (a : α) : ShowsRefusals (Pure.pure a : ExceptT ε Eval α) :=
  fun _ _ _ _ _ => Eval.not_meetsLimit_pure _

theorem throw (e : ε) : ShowsRefusals (MonadExcept.throw e : ExceptT ε Eval α) :=
  fun _ _ _ _ _ => Eval.not_meetsLimit_pure _

theorem bind {x : ExceptT ε Eval α} {f : α → ExceptT ε Eval β} (hx : ShowsRefusals x)
    (hf : ∀ a, ShowsRefusals (f a)) : ShowsRefusals (x >>= f) := by
  intro m hraised b n h hmeets
  obtain ⟨a, m₁, hrun, h⟩ := Eval.run_bindExcept_ok h
  rcases Eval.meetsLimit_bindExcept.mp hmeets with hmeets | ⟨a', m₁', hrun', hmeets⟩
  · exact hx m (fun q k hq => hraised q k (Eval.raises_bindExcept.mpr (.inl hq))) a m₁ hrun hmeets
  · cases hrun.symm.trans hrun'
    exact hf a m₁ (fun q k hq =>
      hraised q k (Eval.raises_bindExcept.mpr (.inr ⟨a, m₁, hrun, hq⟩))) b n h hmeets

/-- A part that opens no scopes and asks nothing. -/
theorem lift {x : Eval α} (hx : ∀ m, ¬ x.MeetsLimit m) :
    ShowsRefusals (liftM x : ExceptT ε Eval α) :=
  fun m _ _ _ _ => Eval.not_meetsLimit_lift (hx m)

/-- A refusal to open the scope is the result. -/
theorem within (o : Owner) {x : Attempt α} (hx : ShowsRefusals x) :
    ShowsRefusals (ProviderGraph.within o x) := by
  intro m hraised a n h hmeets
  obtain ⟨t, k, ht, hrun, rfl⟩ := Eval.run_within_ok h
  exact hx { m with stack := t } (fun q k hq => hraised q k (Eval.raises_within.mpr ⟨t, ht, hq⟩))
    a k hrun ((Eval.meetsLimit_within ht).mp hmeets)

theorem ask (hq : q.Fallible) (g : q.Answer → Except ε α)
    (hg : ∀ r a, g r = .ok a → q.failure? r = none) :
    ShowsRefusals (ExceptT.mk (.ask q fun r => .done (g r))) := by
  intro m hraised a n h hmeets
  obtain ⟨⟨r, n'⟩, hrun, h⟩ := Option.bind_eq_some_iff.mp h
  obtain ⟨hr, rfl⟩ := Prod.mk.inj (Option.some.inj h)
  have hquestion := hraised q m (.inl ⟨rfl, rfl⟩) hq r n' hrun (hg r a hr)
  rcases hmeets with ⟨_, _, h⟩ | ⟨q', k, ⟨rfl, rfl⟩ | ⟨_, _, h⟩, hmeets⟩
  · exact h
  · exact hquestion hmeets
  · exact h

/-- User code that is called in a scope. The culprit is told only where it fails. -/
theorem settled (o : Owner) {x : UserCode α} (hx : ShowsRefusals x) (culprit : Eval String) :
    ShowsRefusals (ProviderGraph.within o (ExceptT.lift x.run) >>= settle culprit) := by
  intro m hraised a n h hmeets
  obtain ⟨r, m₁, hrun, h⟩ := Eval.run_bindExcept_ok h
  obtain ⟨rfl, rfl⟩ := Eval.run_settle_ok h
  obtain ⟨t, k, ht, hlift, -⟩ := Eval.run_within_ok hrun
  obtain ⟨⟨r, k'⟩, hcode, hr⟩ := Option.bind_eq_some_iff.mp ((Eval.run_bind _ _ _ _).symm.trans hlift)
  cases hr
  have hcode' := hx { m with stack := t } (fun q k hq => hraised q k
    (Eval.raises_bindExcept.mpr (.inl (Eval.raises_within.mpr
      ⟨t, ht, (Eval.raises_bind _ _).mpr (.inl hq)⟩)))) a _ hcode
  rcases Eval.meetsLimit_bindExcept.mp hmeets with hmeets | ⟨r', m₁', hrun', hmeets⟩
  · exact Eval.not_meetsLimit_lift hcode' ((Eval.meetsLimit_within ht).mp hmeets)
  · cases hrun.symm.trans hrun'
    exact Eval.not_meetsLimit_pure _ hmeets

theorem call (calls : Calls) (culprit : Eval String) :
    ShowsRefusals (liftM (nextCall calls) >>= settle culprit) := by
  intro m hraised a n h hmeets
  rw [Eval.run_call] at h
  obtain ⟨⟨r, n'⟩, hrun, h⟩ := Option.bind_eq_some_iff.mp h
  obtain ⟨rfl, rfl⟩ := Eval.run_settle_ok h
  rw [Eval.run_lift_bind, Eval.meetsLimit_bind] at hmeets
  have hquestion := hraised _ _ ((Eval.raises_call calls _).mpr (.inl ⟨rfl, rfl⟩)) trivial _ _
    hrun rfl
  rcases hmeets with hmeets | ⟨s, hs, hmeets⟩
  · exact hquestion (Eval.meetsLimit_ask.mp hmeets)
  · cases hrun.symm.trans ((Eval.run_ask _ _ _).symm.trans hs)
    exact Eval.not_meetsLimit_pure _ hmeets

theorem elsewhere (a : Action) (held : Option Payload) (x : Payload) :
    ShowsRefusals (ExceptT.mk (Eval.elsewhere (Ask.act a held x))) := by
  intro m hraised y n h hmeets
  obtain ⟨⟨r, n'⟩, hrun, h⟩ := Option.bind_eq_some_iff.mp h
  obtain ⟨rfl, -⟩ := Prod.mk.inj (Option.some.inj h)
  have hquestion := hraised (.act a held x) (Eval.newThread m) (.inl (.inl ⟨rfl, rfl⟩)) trivial _ _
    ((Eval.run_ask _ _ _).symm.trans hrun) rfl
  exact hquestion (Eval.meetsLimit_ask.mp (Eval.meetsLimit_elsewhere.mp hmeets))

theorem asUserCode {x : Attempt α} (hx : ShowsRefusals x) : ShowsRefusals x.asUserCode := by
  intro m hraised a n h hmeets
  rw [Eval.run_asUserCode] at h
  obtain ⟨⟨r, n'⟩, hrun, h⟩ := Option.map_eq_some_iff.mp h
  obtain ⟨hr, rfl⟩ := Prod.mk.inj h
  cases r with
  | error f => cases hr
  | ok b =>
    have hmeets : (Except.mapError Failure.fault <$> x.run).MeetsLimit m := hmeets
    rw [map_eq_pure_bind, Eval.meetsLimit_bind] at hmeets
    rcases hmeets with hmeets | ⟨_, -, hmeets⟩
    · exact hx m (fun q k hq => hraised q k (Eval.raises_asUserCode.mpr hq)) _ _ hrun hmeets
    · exact Eval.not_meetsLimit_pure _ hmeets

theorem look {γ : Type} (view : Machine → γ) {f : γ → UserCode β} (hf : ∀ a, ShowsRefusals (f a)) :
    ShowsRefusals (liftM Eval.machine >>= fun m => f (view m)) := by
  intro m hraised b n h
  exact hf (view m) m hraised b n h

/-- What attempts are composed of shows where a limit was met. -/
theorem attempt : Attempt.Compositional ShowsRefusals where
  pure := pure
  throw := throw
  bind := bind
  ownValue p c := ask (q := .ownValue p c) trivial id fun _ _ => by rintro rfl; rfl
  presence p c := ask (q := .presence p c) trivial id fun _ _ => by rintro rfl; rfl
  producer p := ask (q := .producer p) trivial id fun _ _ => by rintro rfl; rfl
  classification p := ask (q := .classification p) trivial id fun _ _ => by rintro rfl; rfl
  finalize r := ask (q := .finalize r) trivial id fun _ _ => by rintro rfl; rfl
  within := within
  identity := lift fun _ => Eval.not_meetsLimit_identity
  property _ := lift fun _ => Eval.not_meetsLimit_property _
  note _ := lift fun _ => Eval.not_meetsLimit_note
  setProperty _ _ := lift fun _ => by rintro (h | ⟨_, _, h, _⟩) <;> exact h

/-- What user code is composed of shows where a limit was met. -/
theorem userCode : UserCode.Compositional ShowsRefusals ShowsRefusals where
  attempt := attempt
  pure := pure
  throw := throw
  bind := bind
  action a held x := ask (q := .act a held x) trivial id fun _ _ => by rintro rfl; rfl
  build r held := ask (q := .build r held) trivial id fun _ _ => by rintro rfl; rfl
  identity := lift fun _ => Eval.not_meetsLimit_identity
  note _ := lift fun _ => Eval.not_meetsLimit_note
  look view _ _ hf := look view hf
  elsewhere := elsewhere
  asUserCode := asUserCode

/-- What the rules of a provider are composed of show where a limit was met. -/
theorem provider (p : Provider) : p.Compositional ShowsRefusals where
  attempt := attempt
  call _ calls := call calls _
  applyTransform _ f x := settled _ (userCode.action f.code f.held x) _
  choose _ choice v := by
    rw [Provider.choose]
    cases v.payload? with
    | some x => exact settled _ (userCode.build choice (some x)) _
    | none => exact settled _ (x := Pure.pure none) (pure none) _

end ShowsRefusals

/-! ### Questions -/

/-- What the rules ask decides whether a question can hide a refusal, unless it runs code that asks
the engine. -/
theorem Query.unrefused_of_rule (hq : q.Fallible)
    (hact : ∀ a held x, q = .act a held x → (∀ s, a ≠ .perform s) ∧ ∀ i r, a ≠ .inquire i r)
    (hraised : ∀ q' k, (rule q).Raises m q' k → q'.Fallible → q'.Unrefused k) :
    q.Unrefused m := by
  intro r n h hr
  rw [engine_eq_rule] at h
  rw [Query.meetsLimit_iff]
  cases q with
  | ownValue p c => exact ((ShowsRefusals.provider p).evalValue c).not_meetsLimit hraised h hr
  | presence p c => exact ((ShowsRefusals.provider p).evalPresence c).not_meetsLimit hraised h hr
  | producer p => exact (ShowsRefusals.provider p).evalProducer.not_meetsLimit hraised h hr
  | classification p =>
    exact (ShowsRefusals.provider p).evalClassification.not_meetsLimit hraised h hr
  | finalize s => exact (ShowsRefusals.attempt.evalFinalize s).not_meetsLimit hraised h hr
  | act a held x =>
    obtain ⟨hstep, hinquire⟩ := hact a held x rfl
    exact (ShowsRefusals.userCode.evalAction a held x hstep
      fun ⟨i, s, hs⟩ => absurd hs (hinquire i s)).not_meetsLimit hraised h hr
  | build s held => exact (ShowsRefusals.userCode.evalRecipe s held).not_meetsLimit hraised h hr
  | text p label => exact hq.elim
  | step s => exact hq.elim

open Terms (reading)

/-- A question that a reading of a graph comes to has met no limit if it succeeds, as long as no
code of the graph comes back to the engine. -/
theorem Action.Outside.unrefused (hC : Action.Outside C) {c : Reading}
    (hq : (reading C m c).asks q) (hk : (reading C m c).holds k) (hfallible : q.Fallible) :
    q.Unrefused k := by
  intro r n h
  obtain ⟨fuel, hfuel⟩ := engine_eq_some_iff.mp h
  suffices hunrefused : q.Unrefused k from hunrefused r n h
  clear h
  induction fuel generalizing q k n with
  | zero => exact absurd hfuel (by simp)
  | succ fuel ih =>
    apply Query.unrefused_of_rule hfallible
    · rintro a held x rfl
      constructor
      · rintro s rfl
        exact hC.perform hq
      · rintro i r rfl
        exact hC.inquire hq
    · intro q' k' hraised hfallible'
      obtain ⟨hq', hk'⟩ := (hC.kept m c).raises (hC.kept m c q hq) hk hraised
      obtain ⟨⟨r', n'⟩, hr'⟩ := hraised.answered hfuel
      exact ih hq' hk' hfallible' r' n' hr'

end ProviderGraph
