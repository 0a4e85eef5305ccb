import ProviderGraph.Proofs.Engine.AttemptComposition
import ProviderGraph.Proofs.Finalization.FailedFinalization

/-!
# Contributions

Where no flat map is on the way, the producers of a provider can be read off the graph below it and
the states of the properties (`Provider.Contributes`). The search for them then calls no code and
changes nothing (`Provider.Contributes.walk`).
-/

namespace ProviderGraph

variable {α β : Type} {m n k : Machine} {r : PropertyRef} {p q : Provider} {o : Owner}
  {t t' : Producer} {S S' : States}

/-! ### Questions of parts -/

namespace Eval

variable {ε : Type} {answers : Answerer}

/-- After a computation that succeeds come the questions of what follows. -/
theorem questions_bind_ok {x : ExceptT ε Eval α} {a : α}
    (hx : x.run.run answers m = some (.ok a, n)) (f : α → ExceptT ε Eval β) :
    (x >>= f).run.questions answers m =
      x.run.questions answers m ++ (f a).run.questions answers n := by
  rw [ExceptT.run_bind, questions_bind, hx]
  rfl

/-- A computation that fails ends the questions. -/
theorem questions_bind_error {x : ExceptT ε Eval α} {e : ε}
    (hx : x.run.run answers m = some (.error e, n)) (f : α → ExceptT ε Eval β) :
    (x >>= f).run.questions answers m = x.run.questions answers m := by
  rw [ExceptT.run_bind, questions_bind, hx]
  exact List.append_nil _

theorem questions_property_bind {i : Identity} {f : Property → ExceptT ε Eval α} :
    ((liftM (Eval.property i) : ExceptT ε Eval Property) >>= f).run.questions answers m =
      (f (m.property i)).run.questions answers m := by
  rw [run_lift_bind, questions_bind, run_property]
  rfl

/-- What is asked in a scope is asked once it is open. -/
theorem questions_within {x : Attempt α} {s : ScopeStack} (hs : m.stack.enter o = .ok s) :
    (ProviderGraph.within o x).run.questions answers m =
      x.run.questions answers { m with stack := s } := by
  change (Eval.inScope o x.run _).questions answers m = _
  simp only [questions, hs]
  cases x.run.run answers { m with stack := s } <;> exact List.append_nil _

/-- Where the scope cannot be opened nothing is asked. -/
theorem questions_within_error {x : Attempt α} {f : Fault} (hs : m.stack.enter o = .error f) :
    (ProviderGraph.within o x).run.questions answers m = [] := by
  change (Eval.inScope o x.run _).questions answers m = _
  simp only [questions, hs]
  rfl

theorem questions_value {p : Provider} {c : Reading} :
    (Ask.value p c).run.questions answers m = [(.ownValue p c, m)] := by
  change ((ask (.ownValue p c) Pure.pure : Eval (Except Fault Outcome)) >>= _).questions answers m = _
  rw [questions_bind, questions_ask]
  cases (ask (.ownValue p c) Pure.pure).run answers m with
  | none => rfl
  | some r =>
    obtain ⟨⟨⟩, _⟩ := r <;> rfl

end Eval

/-! ### Producers without a choice -/

/-- In the states `S` of the properties the tree `t` is contributed by the graph below a provider,
which chooses nothing: there is no flat map on the way to the producers, and no provider of another
kind. -/
inductive Provider.Contributes (S : States) : Provider → Producer → Prop where
  | fixed (i : Identity) (x : Payload) : Contributes S (.fixed i x) .none
  | undefined (i : Identity) (type : PayloadType) (path : List String) :
    Contributes S (.undefined i type path) .none
  | leaf (i : Identity) (type : PayloadType) (calls : Calls) :
    Contributes S (.changing i type none calls) .unknown
  | output (i : Identity) (type : PayloadType) (node : String) (calls : Calls) :
    Contributes S (.changing i type (some node) calls) (.node node)
  | map {base : Provider} {t : Producer} (i : Identity) (f : Closure) (type : PayloadType)
    (h : Contributes S base t) : Contributes S (.map i base f type) t
  | orElse {left right : Provider} {t t' : Producer} (i : Identity) (h : Contributes S left t)
    (h' : Contributes S right t') : Contributes S (.orElse i left right) (t.plus t')
  | withEffect {inner : Provider} {t : Producer} (i : Identity) (e : Effect)
    (h : Contributes S inner t) : Contributes S (.withEffect i inner e) t
  | named {inner : Provider} {t : Producer} (i : Identity) (name : String)
    (h : Contributes S inner t) : Contributes S (.named i inner name) t
  | frozen {r : PropertyRef} {t : Producer} (hf : (S r.id).finalized = true)
    (h : (S r.id).frozenProducer = some t) :
    Contributes S (.property r) ((Producer.ofOption (S r.id).attached).plus t)
  | held {r : PropertyRef} {q : Provider} {t : Producer} (hf : (S r.id).frozenProducer = none)
    (hq : (S r.id).effective = some q) (h : Contributes S q t) :
    Contributes S (.property r) ((Producer.ofOption (S r.id).attached).plus t)
  | blank {r : PropertyRef} (hf : (S r.id).frozenProducer = none)
    (hq : (S r.id).effective = none) :
    Contributes S (.property r) (Producer.ofOption (S r.id).attached)

/-- The evaluation calls no code and leaves the machine as it is. It may fail, but gives nothing but
`a`. -/
structure Idles (x : Attempt α) (m : Machine) (a : α) : Prop where
  run : ∃ b, x.run.run engine m = some (b, m) ∧ ∀ a', b = .ok a' → a' = a
  calls : ((x.run.questions engine m).flatMap fun e => e.1.calls e.2) = []

namespace Idles

variable {x : Attempt α} {a : α} {b : β}

theorem pure (a : α) : Idles (Pure.pure a) m a :=
  ⟨⟨.ok a, rfl, fun _ h => Except.ok.inj h.symm⟩, rfl⟩

theorem bind {f : α → Attempt β} (hx : Idles x m a) (hf : Idles (f a) m b) :
    Idles (x >>= f) m b := by
  obtain ⟨⟨res, hrun, hres⟩, hcalls⟩ := hx
  cases res with
  | ok a' =>
    obtain rfl := hres a' rfl
    refine ⟨?_, ?_⟩
    · rw [Eval.run_bind_ok hrun]
      exact hf.run
    · rw [Eval.questions_bind_ok hrun, List.flatMap_append, hcalls, hf.calls]
      rfl
  | error e =>
    refine ⟨⟨.error e, Eval.run_bind_error hrun f, fun _ h => nomatch h⟩, ?_⟩
    rw [Eval.questions_bind_error hrun, hcalls]

theorem property_bind {i : Identity} {f : Property → Attempt β} (h : Idles (f (m.property i)) m b) :
    Idles ((liftM (Eval.property i) : Attempt Property) >>= f) m b := by
  obtain ⟨hrun, hcalls⟩ := h
  refine ⟨?_, ?_⟩
  · rw [Eval.run_property_bind]
    exact hrun
  · rw [Eval.questions_property_bind, hcalls]

theorem within (h : ∀ s, m.stack.enter o = .ok s → Idles x { m with stack := s } a) :
    Idles (ProviderGraph.within o x) m a := by
  cases hs : m.stack.enter o with
  | error f =>
    refine ⟨⟨.error f, Eval.run_within_error hs rfl, fun _ h => nomatch h⟩, ?_⟩
    rw [Eval.questions_within_error hs]
    rfl
  | ok s =>
    obtain ⟨⟨res, hrun, hres⟩, hcalls⟩ := h s hs
    refine ⟨⟨res, Eval.run_within hs hrun, hres⟩, ?_⟩
    rw [Eval.questions_within hs, hcalls]

/-- What idles in its rule idles when it is asked for. -/
theorem producer (h : Idles (evalProducer p) m t) : Idles (Ask.producer p) m t := by
  obtain ⟨⟨res, hrun, hres⟩, hcalls⟩ := h
  have hengine : engine (.producer p) m = some (res, m) := (engine_eq_rule _ _).trans hrun
  refine ⟨⟨res, (Eval.run_ask _ _ _).trans hengine, hres⟩, ?_⟩
  change ((Eval.ask (.producer p) Pure.pure).questions engine m).flatMap _ = _
  rw [Eval.questions_ask, List.flatMap_singleton, Query.calls_eq id hengine]
  exact hcalls

end Idles

namespace Provider.Contributes

/-- Where nothing is chosen the search for the producers calls no code, changes nothing, and finds
the tree that is contributed, unless it cannot open a scope. -/
theorem walk (h : p.Contributes S t) (hn : n.property = S) : Idles (Ask.producer p) n t := by
  induction h generalizing n with
  | fixed | undefined | leaf | output => exact .producer (.pure _)
  | map i f type h ih | withEffect i e h ih | named i name h ih =>
    exact .producer (.within fun s hs => ih hn)
  | orElse i h h' ih ih' =>
    refine .producer (.bind (.within fun s hs => ih hn) ?_)
    exact .bind (.within fun s hs => ih' hn) (.pure _)
  | @frozen r t hf h =>
    refine .producer (.property_bind ?_)
    subst hn
    rw [h]
    exact .pure _
  | @held r q t hf hq h ih =>
    refine .producer (.property_bind ?_)
    subst hn
    rw [hf, hq]
    exact .bind (.within fun s hs => ih rfl) (.pure _)
  | @blank r hf hq =>
    refine .producer (.property_bind ?_)
    subst hn
    rw [hf, hq]
    exact .pure _

end Provider.Contributes

end ProviderGraph
