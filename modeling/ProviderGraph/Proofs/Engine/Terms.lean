import ProviderGraph.Proofs.Engine.RaisedQuestions

/-!
# Terms of an evaluation

Terms tell what an evaluation may ask, which answers it may rely on, and what holds of the machine
throughout. `Eval.KeepsTo` reads off the tree of an evaluation that it keeps to its terms. When the
rule of every question that may be asked does so, the terms hold of every run of the engine
(`Terms.Kept.engine`), and of all that comes up in its course (`Terms.Kept.brings`).
-/

namespace ProviderGraph

/-- What may be asked, what is answered, and what holds of the machine, whatever scopes are open and
whatever identities come next. -/
structure Terms where
  asks : Query → Prop
  gives : (q : Query) → q.Answer → Prop
  holds : Machine → Prop
  congr {m n : Machine} : n.properties = m.properties →
    n.providerRegisters = m.providerRegisters → holds m → holds n

/-- The evaluation keeps to the terms, and `P` holds of its result. It opens no scopes but for
its parts, and runs no step of a session. -/
def Eval.KeepsTo (T : Terms) : {α : Type} → Eval α → (α → Prop) → Prop
  | _, .done a, P => P a
  | _, .ask q next, P => T.asks q ∧ ∀ a, T.gives q a → (next a).KeepsTo T P
  | _, .look next, P => ∀ m, T.holds m → (next m).KeepsTo T P
  | _, .fresh next, P => ∀ i, (next i).KeepsTo T P
  | _, .change c next, P => (∀ m, T.holds m → T.holds (m.after c)) ∧ next.KeepsTo T P
  | _, .openScope _ _ _, _ | _, .withOwnLocals _ _, _ => False
  | _, .inScope _ body next, P =>
    (∀ f, (next (.error f)).KeepsTo T P) ∧
      body.KeepsTo T fun b => (next (.ok b)).KeepsTo T P
  | _, .onThread body next, P => body.KeepsTo T fun b => (next b).KeepsTo T P

/-- The rules of the questions that may be asked keep to the terms. -/
def Terms.Kept (T : Terms) : Prop := ∀ q, T.asks q → (rule q).KeepsTo T (T.gives q)

variable {α β ε : Type} {T : Terms} {m n : Machine} {q q' : Query}

/-! ### Runs -/

namespace Terms

variable (T)

/-- A new identity breaks no terms. -/
theorem holds_fresh (hm : T.holds m) : T.holds { m with supply := m.supply + 1 } :=
  T.congr (m := m) rfl rfl hm

/-- The terms hold whatever scopes are open. -/
theorem holds_stack (hm : T.holds m) (s : ScopeStack) : T.holds { m with stack := s } :=
  T.congr (m := m) rfl rfl hm

/-- The terms hold on a new thread. -/
theorem holds_newThread (hm : T.holds m) : T.holds (Eval.newThread m) :=
  T.congr (m := m) rfl rfl hm

/-- The terms hold when a thread has ended. -/
theorem holds_rejoin (hn : T.holds n) (m : Machine) :
    T.holds { n with stack := m.stack, locals := m.locals } :=
  T.congr (m := n) rfl rfl hn

end Terms

namespace Eval.KeepsTo

variable {x : Eval α} {P : α → Prop}

theorem imp {Q : α → Prop} (hx : x.KeepsTo T P) (h : ∀ a, P a → Q a) :
    x.KeepsTo T Q := by
  induction x with
  | done a => exact h a hx
  | ask q next ih => exact ⟨hx.1, fun a ha => ih a (hx.2 a ha) h⟩
  | look next ih => exact fun m hm => ih m (hx m hm) h
  | fresh next ih => exact fun i => ih i (hx i) h
  | change c next ih => exact ⟨hx.1, ih hx.2 h⟩
  | openScope | withOwnLocals => exact hx.elim
  | inScope o body next ihb ih =>
    exact ⟨fun f => ih _ (hx.1 f) h, ihb hx.2 fun b hb => ih _ hb h⟩
  | onThread body next ihb ih => exact ihb hx fun b hb => ih b hb h

/-- What the terms say holds at the end of a run. -/
theorem run {answers : Answerer} (hx : x.KeepsTo T P) (hm : T.holds m)
    (ha : ∀ q m r, T.asks q → T.holds m → answers q m = some r → T.holds r.2 ∧ T.gives q r.1)
    {r : α × Machine} (hr : x.run answers m = some r) : T.holds r.2 ∧ P r.1 := by
  induction x generalizing m with
  | done a =>
    obtain rfl := Option.some.inj hr
    exact ⟨hm, hx⟩
  | ask q next ih =>
    obtain ⟨r₁, h₁, hr⟩ := Option.bind_eq_some_iff.mp hr
    obtain ⟨hm₁, hgives⟩ := ha _ _ _ hx.1 hm h₁
    exact ih _ (hx.2 _ hgives) hm₁ hr
  | look next ih => exact ih _ (hx m hm) hm hr
  | fresh next ih => exact ih _ (hx _) (T.holds_fresh hm) hr
  | change c next ih => exact ih hx.2 (hx.1 m hm) hr
  | openScope | withOwnLocals => exact hx.elim
  | inScope o body next ihb ih =>
    simp only [Eval.run] at hr
    split at hr
    · exact ih _ (hx.1 _) hm hr
    · obtain ⟨r₁, h₁, hr⟩ := Option.bind_eq_some_iff.mp hr
      obtain ⟨hm₁, hnext⟩ := ihb hx.2 (T.holds_stack hm _) h₁
      exact ih _ hnext (T.holds_stack hm₁ _) hr
  | onThread body next ihb ih =>
    obtain ⟨r₁, h₁, hr⟩ := Option.bind_eq_some_iff.mp hr
    obtain ⟨hm₁, hnext⟩ := ihb hx (T.holds_newThread hm) h₁
    exact ih _ hnext (T.holds_rejoin hm₁ m) hr

end Eval.KeepsTo

namespace Terms.Kept

/-- Rules that keep to the terms give answers that do, with any fuel. -/
theorem answer (hT : T.Kept) {fuel : Nat} {r : q.Answer × Machine} (hq : T.asks q)
    (hm : T.holds m) (hr : answer fuel q m = some r) : T.holds r.2 ∧ T.gives q r.1 := by
  induction fuel generalizing q m with
  | zero => exact absurd hr (by simp)
  | succ fuel ih => exact (hT q hq).run hm (fun _ _ _ => ih) hr

/-- The engine keeps to the terms. -/
theorem engine (hT : T.Kept) {r : q.Answer × Machine} (hq : T.asks q) (hm : T.holds m)
    (hr : engine q m = some r) : T.holds r.2 ∧ T.gives q r.1 := by
  obtain ⟨fuel, hr⟩ := engine_eq_some_iff.mp hr
  exact hT.answer hq hm hr

/-- A computation that keeps to the terms leaves a machine that does, and its result is as told. -/
theorem run (hT : T.Kept) {x : Eval α} {P : α → Prop} (hx : x.KeepsTo T P) (hm : T.holds m)
    {r : α × Machine} (hr : x.run ProviderGraph.engine m = some r) : T.holds r.2 ∧ P r.1 :=
  hx.run hm (fun _ _ _ => hT.engine) hr

/-- What an evaluation raises may be asked. -/
theorem raises (hT : T.Kept) {x : Eval α} {P : α → Prop} (hx : x.KeepsTo T P)
    (hm : T.holds m) (h : x.Raises m q n) : T.asks q ∧ T.holds n := by
  induction x generalizing m with
  | done => exact h.elim
  | ask q' next ih =>
    rcases h with ⟨rfl, rfl⟩ | ⟨r, hr, h⟩
    · exact ⟨hx.1, hm⟩
    · obtain ⟨hm₁, hgives⟩ := hT.engine hx.1 hm hr
      exact ih _ (hx.2 _ hgives) hm₁ h
  | look next ih => exact ih _ (hx m hm) hm h
  | fresh next ih => exact ih _ (hx _) (T.holds_fresh hm) h
  | change c next ih => exact ih hx.2 (hx.1 m hm) h
  | openScope | withOwnLocals => exact hx.elim
  | inScope o body next ihb ih =>
    simp only [Eval.Raises] at h
    split at h
    · exact ih _ (hx.1 _) hm h
    · rcases h with h | ⟨r, hr, h⟩
      · exact ihb hx.2 (T.holds_stack hm _) h
      · obtain ⟨hm₁, hnext⟩ := hT.run hx.2 (T.holds_stack hm _) hr
        exact ih _ hnext (T.holds_stack hm₁ _) h
  | onThread body next ihb ih =>
    rcases h with h | ⟨r, hr, h⟩
    · exact ihb hx (T.holds_newThread hm) h
    · obtain ⟨hm₁, hnext⟩ := hT.run (x := body) hx (T.holds_newThread hm) hr
      exact ih _ hnext (T.holds_rejoin hm₁ m) h

/-- All that comes up in the course of a question may be asked. -/
theorem brings (hT : T.Kept) (hq : T.asks q) (hm : T.holds m) (h : Brings q m q' n) :
    T.asks q' ∧ T.holds n :=
  h.mem (P := fun q m => T.asks q ∧ T.holds m) ⟨hq, hm⟩
    fun q _ _ _ hP hr => hT.raises (hT q hP.1) hP.2 hr

end Terms.Kept

/-! ### Parts -/

/-- Two computations keep to the terms if the first one does and leads to a second one that does. -/
theorem Eval.keepsTo_bind (x : Eval α) (f : α → Eval β) {P : β → Prop} :
    (x >>= f).KeepsTo T P ↔ x.KeepsTo T fun a => (f a).KeepsTo T P := by
  induction x with
  | done a => exact Iff.rfl
  | ask q next ih => exact and_congr_right fun _ => forall₂_congr fun a _ => ih a f
  | look next ih => exact forall₂_congr fun m _ => ih m f
  | fresh next ih => exact forall_congr' fun i => ih i f
  | change c next ih => exact and_congr_right fun _ => ih f
  | openScope | withOwnLocals => exact Iff.rfl
  | inScope o body next _ ih =>
    refine and_congr (forall_congr' fun e => ih _ f) ?_
    exact iff_of_eq (congrArg _ (funext fun b => propext (ih _ f)))
  | onThread body next _ ih =>
    exact iff_of_eq (congrArg _ (funext fun b => propext (ih b f)))

/-- A computation that may fail keeps to the terms, and `P` holds of what it gives. -/
def Keeping (T : Terms) (x : ExceptT ε Eval α) (P : α → Prop) : Prop :=
  x.run.KeepsTo T fun r => ∀ a, r = .ok a → P a

namespace Keeping

variable {x : ExceptT ε Eval α} {P : α → Prop} {Q : β → Prop}

theorem pure {a : α} (h : P a) : Keeping T (Pure.pure a : ExceptT ε Eval α) P :=
  fun _ hb => Except.ok.inj hb ▸ h

theorem throw (e : ε) : Keeping T (MonadExcept.throw e : ExceptT ε Eval α) P :=
  fun _ hb => nomatch hb

theorem ofExcept (r : Except ε α) (h : ∀ a, r = .ok a → P a) :
    Keeping T (MonadExcept.ofExcept r : ExceptT ε Eval α) P := by
  cases r with
  | ok a => exact .pure (h a rfl)
  | error e => exact .throw e

theorem bind {f : α → ExceptT ε Eval β} (hx : Keeping T x P)
    (hf : ∀ a, P a → Keeping T (f a) Q) : Keeping T (x >>= f) Q := by
  rw [Keeping, ExceptT.run_bind, Eval.keepsTo_bind]
  refine hx.imp fun r hr => ?_
  cases r with
  | ok a => exact hf a (hr a rfl)
  | error e => exact fun _ hb => nomatch hb

theorem lift {x : Eval α} (hx : x.KeepsTo T P) :
    Keeping T (liftM x : ExceptT ε Eval α) P :=
  (Eval.keepsTo_bind x _).mpr (hx.imp fun _ ha _ hb => Except.ok.inj hb ▸ ha)

theorem within {o : Owner} {x : Attempt α} (hx : Keeping T x P) :
    Keeping T (ProviderGraph.within o x) P := And.intro (fun _ _ hb => nomatch hb) hx

theorem ask {q : Query} (hq : T.asks q) : (Eval.ask q Pure.pure).KeepsTo T (T.gives q) :=
  ⟨hq, fun _ ha => ha⟩

/-- A part that looks at a property goes on with its state on some machine. -/
theorem property {i : Identity} {f : Property → ExceptT ε Eval β}
    (hf : ∀ m, T.holds m → Keeping T (f (m.property i)) Q) :
    Keeping T ((liftM (Eval.property i) : ExceptT ε Eval Property) >>= f) Q :=
  fun m hm => hf m hm

theorem settle {culprit : Eval String} (hc : culprit.KeepsTo T fun _ => True)
    {r : Except Failure α} (h : ∀ a, r = .ok a → P a) : Keeping T (settle culprit r) P := by
  match r with
  | .ok a => exact .pure (h a rfl)
  | .error (.fault f) => exact .throw f
  | .error (.rejected message) => exact .bind (.lift hc) fun _ _ => .throw _

end Keeping

end ProviderGraph
