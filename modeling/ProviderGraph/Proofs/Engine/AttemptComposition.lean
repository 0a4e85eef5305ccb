import ProviderGraph.Proofs.Engine.RaisedQuestions
import ProviderGraph.Proofs.Reference.EngineAgreement

/-!
# What attempts are composed of

A property of computations that may fail is compositional if a computation has it as soon as its
parts do. A call of user code is one part together with the report of its rejection, so that such a
property may tell how a failure is handed on. The rule of every question but two has each such
property: a text never fails, and a step answers whatever happens.
-/

namespace ProviderGraph

/-! ### Questions that fail -/

/-- The failure that a result tells of. -/
def Failure.of? {ε α : Type} (wrap : ε → Failure) : Except ε α → Option Failure
  | .ok _ => none
  | .error e => some (wrap e)

/-- A fault is told of where the result is that fault. -/
theorem Failure.of?_fault_eq_some_iff {α : Type} {r : Except Fault α} {f : Fault} :
    Failure.of? .fault r = some (.fault f) ↔ r = .error f := by
  cases r <;> simp [Failure.of?]

/-- A failure of user code is told of where the result is that failure. -/
theorem Failure.of?_id_eq_some_iff {α : Type} {r : Except Failure α} {e : Failure} :
    Failure.of? id r = some e ↔ r = .error e := by
  cases r <;> simp [Failure.of?]

/-- The failure that an answer tells of. A text and the reply to a step tell of none. -/
def Query.failure? : (q : Query) → q.Answer → Option Failure
  | .ownValue _ _, r | .presence _ _, r | .producer _, r | .classification _, r | .finalize _, r =>
    Failure.of? .fault r
  | .act _ _ _, r | .build _ _, r => Failure.of? id r
  | .text _ _, _ | .step _, _ => none

/-- The question may fail. -/
def Query.Fallible : Query → Prop
  | .text _ _ | .step _ => False
  | _ => True

/-- On the machine `m` the question fails, and leaves the machine `n`. -/
def Query.Fails (q : Query) (m : Machine) (e : Failure) (n : Machine) : Prop :=
  ∃ r, engine q m = some (r, n) ∧ q.failure? r = some e

/-! ### Parts -/

/-- The text of the provider that a rejection by its code is attributed to. -/
def Provider.blamed : Provider → Eval String
  | .changing _ _ none _ => pure "changing"
  | .changing _ _ (some node) _ => pure ("output of " ++ node)
  | .custom _ form _ _ _ => pure form.label
  | p => Ask.text p

/-- The provider that a flat map is given by its code, or the rejection, reported. -/
def Provider.choose (p : Provider) (choice : Recipe) (v : Outcome) : Attempt (Option Provider) :=
  within p.owner (ExceptT.lift
    (match v.payload? with
    | some x => (Ask.build choice (some x)).run
    | none => pure (.ok none))) >>= settle (Ask.text p)

/-- Attempts have the property `P` as soon as the parts that call no code have it. -/
structure Attempt.Compositional (P : {α : Type} → Attempt α → Prop) : Prop where
  pure {α : Type} (a : α) : P (Pure.pure a : Attempt α)
  throw {α : Type} (f : Fault) : P (MonadExcept.throw f : Attempt α)
  bind {α β : Type} {x : Attempt α} {f : α → Attempt β} (hx : P x) (hf : ∀ a, P (f a)) :
    P (x >>= f)
  within {α : Type} (o : Owner) {x : Attempt α} (hx : P x) : P (ProviderGraph.within o x)
  ownValue (p : Provider) (c : Reading) : P (Ask.ownValue p c)
  presence (p : Provider) (c : Reading) : P (Ask.presence p c)
  producer (p : Provider) : P (Ask.producer p)
  classification (p : Provider) : P (Ask.classification p)
  finalize (r : PropertyRef) : P (Ask.finalize r)
  identity : P (liftM Eval.identity)
  property (i : Identity) : P (liftM (Eval.property i))
  note (e : Event) : P (liftM (Eval.note e))
  setProperty (i : Identity) (s : Property) : P (liftM (Eval.apply (.setProperty i s)))

/-- The computations of the provider `p` have the property `P` as soon as their parts do. Leaves are
blamed by their names and make calls, other providers are blamed by their texts. -/
structure Provider.Compositional (p : Provider) (P : {α : Type} → Attempt α → Prop) : Prop where
  attempt : Attempt.Compositional P
  call (hp : ∃ name, p.blamed = pure name) (calls : Calls) :
    P (liftM (nextCall calls) >>= settle p.blamed)
  applyTransform (hp : p.blamed = Ask.text p) (f : Closure) (x : Payload) :
    P (ProviderGraph.applyTransform p f x)
  choose (hp : p.blamed = Ask.text p) (choice : Recipe) (v : Outcome) : P (p.choose choice v)

/-- User code has the property `Q` as soon as its parts have it and what it attempts has `P`. What
it looks at is the same whatever the depth limit. -/
structure UserCode.Compositional (P : {α : Type} → Attempt α → Prop)
    (Q : {α : Type} → UserCode α → Prop) : Prop where
  attempt : Attempt.Compositional P
  pure {α : Type} (a : α) : Q (Pure.pure a : UserCode α)
  throw {α : Type} (e : Failure) : Q (MonadExcept.throw e : UserCode α)
  bind {α β : Type} {x : UserCode α} {f : α → UserCode β} (hx : Q x) (hf : ∀ a, Q (f a)) :
    Q (x >>= f)
  action (a : Action) (held : Option Payload) (x : Payload) : Q (Ask.action a held x)
  build (r : Recipe) (held : Option Payload) : Q (Ask.build r held)
  identity : Q (liftM Eval.identity)
  note (e : Event) : Q (liftM (Eval.note e))
  look {α β : Type} (view : Machine → α)
    (hview : ∀ (m : Machine) limit, view { m with stack := m.stack.setLimit limit } = view m)
    {f : α → UserCode β} (hf : ∀ a, Q (f a)) : Q (liftM Eval.machine >>= fun m => f (view m))
  elsewhere (a : Action) (held : Option Payload) (x : Payload) :
    Q (ExceptT.mk (Eval.elsewhere (Ask.act a held x)))
  asUserCode {α : Type} {x : Attempt α} (hx : P x) : Q x.asUserCode

/-! ### Attempts -/

namespace Attempt.Compositional

variable {P : {α : Type} → Attempt α → Prop} (h : Attempt.Compositional P) {α β : Type}
include h

theorem map {x : Attempt α} (f : α → β) (hx : P x) : P (f <$> x) := by
  rw [map_eq_pure_bind]
  exact h.bind hx fun _ => h.pure _

theorem liftBind {x : Eval α} {f : α → Eval β} (hx : P (liftM x)) (hf : ∀ a, P (liftM (f a))) :
    P (liftM (x >>= f)) := by
  rw [liftM_bind]
  exact h.bind hx hf

theorem liftPure (a : α) : P (liftM (Pure.pure a : Eval α)) := h.pure a

theorem value (p : Provider) (c : Reading) : P (Ask.value p c) :=
  h.bind (h.ownValue p c) fun _ => h.pure _

theorem freshUndefined (type : PayloadType) (path : List String) :
    P (liftM (ProviderGraph.freshUndefined type path)) :=
  h.liftBind h.identity fun _ => h.liftPure _

theorem freshFixed (x : Payload) : P (liftM (ProviderGraph.freshFixed x)) :=
  h.liftBind h.identity fun _ => h.liftPure _

theorem wrapEffect (p : Provider) (e : Option Effect) :
    P (liftM (ProviderGraph.wrapEffect p e)) := by
  cases e with
  | none => exact h.liftPure p
  | some e => exact h.liftBind h.identity fun _ => h.liftPure _

theorem toProvider (type : PayloadType) (c : Classification) : P (liftM (c.toProvider type)) := by
  cases c with
  | fixed x e => exact h.liftBind (h.freshFixed x) fun p => h.wrapEffect p e
  | changing p => exact h.liftPure p
  | missing path => exact h.freshUndefined type path

theorem addEffect (c : Classification) (e : Effect) : P (liftM (c.addEffect e)) := by
  cases c with
  | fixed | missing => exact h.liftPure _
  | changing => exact h.liftBind h.identity fun _ => h.liftPure _

theorem addName (c : Classification) (name : String) : P (liftM (c.addName name)) := by
  cases c with
  | fixed | missing => exact h.liftPure _
  | changing => exact h.liftBind h.identity fun _ => h.liftPure _

/-- To finalize a property before it is read is at most one attempt. -/
theorem finalizeFor (r : PropertyRef) (c : Reading) : P (ProviderGraph.finalizeFor r c) := by
  apply h.bind (h.property _)
  intro s
  split
  · exact h.finalize r
  · exact h.pure _

theorem updateProperty (i : Identity) (f : Property → Property) :
    P (liftM (ProviderGraph.updateProperty i f)) :=
  h.liftBind (h.property i) fun s => h.setProperty i (f s)

theorem setPayload (r : PropertyRef) (x : Payload) : P (ProviderGraph.setPayload r x) := by
  apply h.bind (h.freshFixed x)
  intro q
  apply h.bind (h.property _)
  intro s
  split
  · exact h.setProperty _ _
  · exact h.throw _

/-- What is kept is composed of the question for the producers and the reading. -/
theorem computeFrozen (r : PropertyRef) (held : Option Provider) :
    P (ProviderGraph.computeFrozen r held) := by
  cases held with
  | none => exact h.bind (h.freshUndefined _ _) fun _ => h.pure _
  | some q =>
    apply h.bind (h.within _ (h.producer q))
    intro t
    apply h.bind (h.within _ (h.value q .strict))
    intro v
    exact h.bind (h.toProvider _ _) fun _ => h.pure _

/-- A finalization is composed of what is asked of the provider that is held. -/
theorem evalFinalize (r : PropertyRef) : P (ProviderGraph.evalFinalize r) := by
  apply h.bind (h.property _)
  intro s
  split
  · exact h.pure _
  · apply h.bind (h.computeFrozen r _)
    intro f
    exact h.updateProperty _ _

theorem get (p : Provider) (hdeeds : ∀ deeds, P (liftM (perform deeds))) : P (Ask.get p) := by
  apply h.bind (h.value p .strict)
  intro v
  cases v with
  | missing path => exact h.throw _
  | present x e => exact h.bind (hdeeds _) fun _ => h.pure _

theorem get? (p : Provider) (hdeeds : ∀ deeds, P (liftM (perform deeds))) : P (Ask.get? p) := by
  apply h.bind (h.value p .strict)
  intro v
  cases v with
  | missing path => exact h.pure _
  | present x e => exact h.map some (h.bind (hdeeds _) fun _ => h.pure _)

theorem inquire (q : Inquiry) (p : Provider) (hdeeds : ∀ deeds, P (liftM (perform deeds))) :
    P (ProviderGraph.inquire q p) := by
  cases q with
  | get => exact h.map some (h.get p hdeeds)
  | getOrNone => exact h.get? p hdeeds
  | isPresent => exact h.bind (h.presence p .lenient) fun _ => h.pure _

end Attempt.Compositional

/-! ### Rules of a provider -/

namespace Provider.Compositional

variable {p : Provider} {P : {α : Type} → Attempt α → Prop} (h : p.Compositional P) {α : Type}
include h

theorem callThen (hp : ∃ name, p.blamed = pure name) (calls : Calls)
    {f : Option Payload → Attempt α} (hf : ∀ y, P (f y)) :
    P (liftM (nextCall calls) >>= fun r => settle p.blamed r >>= f) := by
  rw [← bind_assoc]
  exact h.attempt.bind (h.call hp calls) hf

theorem chooseNext (hp : p.blamed = Ask.text p) (choice : Recipe) (type : PayloadType)
    (v : Outcome) : P (ProviderGraph.chooseNext p choice type v) := by
  rw [ProviderGraph.chooseNext, ← bind_assoc]
  apply h.attempt.bind (h.choose hp choice v)
  intro q
  cases q with
  | some q => exact h.attempt.wrapEffect q _
  | none => exact h.attempt.freshUndefined type []

theorem backing (hp : p.blamed = Ask.text p) (base : Provider) (choice : Recipe)
    (type : PayloadType) : P (ProviderGraph.backing p base choice type) := by
  apply h.attempt.bind (h.attempt.within _ (h.attempt.value base .lenient))
  intro v
  split
  · exact h.attempt.freshUndefined type []
  · exact h.chooseNext hp choice type v

/-- The rule for values is composed of attempts, scopes and calls. -/
theorem evalValue (c : Reading) : P (ProviderGraph.evalValue p c) := by
  have hP := h.attempt
  cases p with
  | fixed | undefined => exact hP.pure _
  | changing i type node calls => cases node <;> exact h.callThen ⟨_, rfl⟩ calls fun _ => hP.pure _
  | map i base f type =>
    apply hP.bind (hP.within _ (hP.value base c))
    intro v
    cases v with
    | missing path => exact hP.pure _
    | present x e => exact hP.bind (h.applyTransform rfl f x) fun _ => hP.pure _
  | flatMap i base choice type =>
    apply hP.bind (hP.within _ (hP.value base c))
    intro v
    split
    · exact hP.pure _
    · exact hP.bind (h.chooseNext rfl choice type v) fun q => hP.within _ (hP.value q c)
  | orElse i left right =>
    apply hP.bind (hP.within _ (hP.value left c))
    intro l
    split
    · apply hP.bind (hP.within _ (hP.value right c))
      intro r
      split <;> exact hP.pure _
    · exact hP.pure _
  | withEffect i inner e => exact hP.bind (hP.within _ (hP.value inner c)) fun _ => hP.pure _
  | named i inner name => exact hP.within _ (hP.value inner c)
  | property r =>
    apply hP.bind (hP.finalizeFor r c)
    intro _
    apply hP.bind (hP.property _)
    intro s
    split
    · exact hP.within _ (hP.value _ c)
    · exact hP.pure _
  | custom i form producer calls effect =>
    apply hP.bind (hP.note _)
    intro _
    apply h.callThen ⟨_, rfl⟩ calls
    intro y
    cases y <;> exact hP.pure _

theorem evaluatedPresence : P (ProviderGraph.evaluatedPresence p) :=
  h.attempt.bind (h.attempt.ownValue p .lenient) fun _ => h.attempt.pure _

/-- The rule for presence is composed of attempts, scopes and calls. -/
theorem evalPresence (c : Reading) : P (ProviderGraph.evalPresence p c) := by
  have hP := h.attempt
  cases p with
  | fixed | undefined => exact hP.pure _
  | changing i type node calls =>
    cases node with
    | some name => exact hP.pure _
    | none => exact hP.bind (hP.ownValue _ c) fun _ => hP.pure _
  | map => exact h.evaluatedPresence
  | flatMap i base choice type =>
    exact hP.bind (h.backing rfl base choice type) fun q => hP.within _ (hP.presence q _)
  | orElse i left right =>
    apply hP.bind (hP.within _ (hP.presence left c))
    intro b
    split
    · exact hP.pure _
    · exact hP.within _ (hP.presence right c)
  | withEffect i inner e => exact hP.within _ (hP.presence inner c)
  | named i inner name => exact hP.within _ (hP.presence inner c)
  | property r =>
    apply hP.bind (hP.property _)
    intro s
    split
    · exact hP.within _ (hP.presence _ c)
    · exact hP.pure _
  | custom i form producer calls effect =>
    rw [ProviderGraph.evalPresence]
    split
    · exact h.evaluatedPresence
    · apply hP.bind (hP.note _)
      intro _
      split
      · exact hP.pure _
      · exact h.callThen ⟨_, rfl⟩ calls fun _ => hP.pure _

/-- The rule for producers is composed of attempts, scopes and calls. -/
theorem evalProducer : P (ProviderGraph.evalProducer p) := by
  have hP := h.attempt
  cases p with
  | fixed | undefined => exact hP.pure _
  | changing i type node calls => cases node <;> exact hP.pure _
  | map i base f type => exact hP.within _ (hP.producer base)
  | withEffect i inner e => exact hP.within _ (hP.producer inner)
  | named i inner name => exact hP.within _ (hP.producer inner)
  | flatMap i base choice type =>
    exact hP.bind (h.backing rfl base choice type) fun q => hP.within _ (hP.producer q)
  | orElse i left right =>
    apply hP.bind (hP.within _ (hP.producer left))
    intro l
    exact hP.bind (hP.within _ (hP.producer right)) fun _ => hP.pure _
  | property r =>
    apply hP.bind (hP.property _)
    intro s
    split
    · exact hP.pure _
    · exact hP.bind (hP.within _ (hP.producer _)) fun _ => hP.pure _
    · exact hP.pure _
  | custom => exact hP.bind (hP.note _) fun _ => hP.pure _

/-- The rule for classifications is composed of attempts, scopes and calls. -/
theorem evalClassification : P (ProviderGraph.evalClassification p) := by
  have hP := h.attempt
  cases p with
  | fixed | undefined => exact hP.pure _
  | changing => exact hP.bind hP.identity fun _ => hP.pure _
  | map i base f type =>
    apply hP.bind (hP.within _ (hP.classification base))
    intro k
    cases k with
    | missing path => exact hP.pure _
    | changing q => exact hP.bind hP.identity fun _ => hP.pure _
    | fixed x e =>
      apply hP.bind (h.applyTransform rfl f x)
      intro y
      cases y <;> exact hP.pure _
  | flatMap i base choice type =>
    apply hP.bind (hP.within _ (hP.classification base))
    intro k
    cases k with
    | missing path => exact hP.pure _
    | changing q => exact hP.bind hP.identity fun _ => hP.pure _
    | fixed x e =>
      exact hP.bind (h.chooseNext rfl choice type _) fun q => hP.within _ (hP.classification q)
  | orElse i left right =>
    apply hP.bind (hP.within _ (hP.classification left))
    intro l
    split
    · exact hP.pure _
    · apply hP.bind (hP.within _ (hP.classification right))
      intro r
      split
      · exact hP.pure _
      · split
        · exact hP.pure _
        · apply hP.bind (hP.toProvider _ l)
          intro p
          apply hP.bind (hP.toProvider _ r)
          intro q
          exact hP.bind hP.identity fun _ => hP.pure _
  | withEffect i inner e =>
    exact hP.bind (hP.within _ (hP.classification inner)) fun k => hP.addEffect k e
  | named i inner name =>
    exact hP.bind (hP.within _ (hP.classification inner)) fun k => hP.addName k name
  | property r =>
    apply hP.bind (hP.property _)
    intro s
    split
    · exact hP.within _ (hP.classification _)
    · exact hP.pure _
  | custom i form producer calls effect =>
    apply hP.bind (hP.note _)
    intro _
    apply h.callThen ⟨_, rfl⟩ calls
    intro y
    cases y <;> exact hP.pure _

end Provider.Compositional

/-! ### Rules of user code -/

namespace UserCode.Compositional

variable {P : {α : Type} → Attempt α → Prop} {Q : {α : Type} → UserCode α → Prop}
  (h : UserCode.Compositional P Q) {α β : Type}
include h

theorem map {x : UserCode α} (f : α → β) (hx : Q x) : Q (f <$> x) := by
  rw [map_eq_pure_bind]
  exact h.bind hx fun _ => h.pure _

theorem ofExcept (r : Except Failure α) : Q (MonadExcept.ofExcept r) := by
  cases r with
  | ok a => exact h.pure a
  | error e => exact h.throw e

theorem liftBind {x : Eval α} {f : α → Eval β} (hx : Q (liftM x)) (hf : ∀ a, Q (liftM (f a))) :
    Q (liftM (x >>= f)) := by
  rw [liftM_bind]
  exact h.bind hx hf

theorem liftPure (a : α) : Q (liftM (Pure.pure a : Eval α)) := h.pure a

theorem lookupProvider (name : String) : Q (ProviderGraph.lookupProvider name) :=
  h.look (·.providerRegisters) (fun _ _ => rfl)
    (f := fun registers => MonadExcept.ofExcept (registers.content "provider" name))
    fun _ => h.ofExcept _

theorem lookupProperty (name : String) : Q (ProviderGraph.lookupProperty name) :=
  h.look (·.propertyRegisters) (fun _ _ => rfl)
    (f := fun registers => MonadExcept.ofExcept (registers.content "property" name))
    fun _ => h.ofExcept _

/-- An action that runs no step of a session, and does no deeds of what it reads unless they have
the property too. -/
theorem evalAction (a : Action) (held : Option Payload) (x : Payload) (hstep : ∀ s, a ≠ .perform s)
    (hdeeds : (∃ q r, a = .inquire q r) → ∀ deeds, P (liftM (perform deeds))) :
    Q (ProviderGraph.evalAction a held x) := by
  cases a with
  | compute f =>
    rw [ProviderGraph.evalAction]
    split
    · exact h.pure _
    · exact h.throw _
  | held => exact h.pure _
  | andThen first second =>
    apply h.bind (h.action first held x)
    intro y
    cases y with
    | some y => exact h.action second held y
    | none => exact h.pure _
  | both left right =>
    apply h.bind (h.action left held x)
    intro y
    apply h.bind (h.action right held x)
    intro z
    split <;> exact h.pure _
  | dispatch f => exact h.action (f x) held x
  | record label => exact h.bind (h.note _) fun _ => h.pure _
  | perform s => exact absurd rfl (hstep s)
  | elsewhere a => exact h.elsewhere a held x
  | inquire q r =>
    apply h.bind (h.build r (some x))
    intro p
    cases p with
    | none => exact h.pure _
    | some p => exact h.asUserCode (h.attempt.inquire q p (hdeeds ⟨q, r, rfl⟩))
  | assign name a =>
    apply h.bind (h.action a held x)
    intro y
    cases y with
    | none => exact h.pure _
    | some y =>
      apply h.bind (h.lookupProperty name)
      intro r
      exact h.bind (h.asUserCode (h.attempt.setPayload r y)) fun _ => h.pure _
  | finalize name =>
    apply h.bind (h.lookupProperty name)
    intro r
    exact h.bind (h.asUserCode (h.attempt.finalize r)) fun _ => h.pure _
  | depth =>
    exact h.look (·.stack.depth) (fun _ _ => rfl)
      (f := fun depth => Pure.pure (some (Payload.int (Int64.ofNat depth)))) fun _ => h.pure _

theorem withPart (r : Recipe) (held : Option Payload) {next : Provider → UserCode Provider}
    (hn : ∀ p, Q (next p)) : Q (ProviderGraph.withPart r held next) := by
  apply h.bind (h.build r held)
  intro p
  cases p with
  | some p => exact h.map some (hn p)
  | none => exact h.pure _

theorem freshCalls (code : Nat → Action) (held : Option Payload) :
    Q (liftM (ProviderGraph.freshCalls code held)) :=
  h.liftBind h.identity fun _ => h.liftPure _

theorem freshFixed (x : Payload) : Q (liftM (ProviderGraph.freshFixed x)) :=
  h.liftBind h.identity fun _ => h.liftPure _

/-- Building is composed of the building of parts. -/
theorem evalRecipe (r : Recipe) (held : Option Payload) :
    Q (ProviderGraph.evalRecipe r held) := by
  have part {r : Recipe} (f : Identity → Provider → Provider) :
      Q (ProviderGraph.withPart r held fun p => do return f (← Eval.identity) p) :=
    h.withPart r held fun _ => h.bind h.identity fun _ => h.pure _
  have leaf (code : Nat → Action) (f : Identity → Calls → Provider) :
      Q (do return some (f (← Eval.identity) (← ProviderGraph.freshCalls code held)) :
        UserCode _) :=
    h.bind h.identity fun _ => h.bind (h.freshCalls code held) fun _ => h.pure _
  cases r with
  | register name => exact h.map some (h.lookupProvider name)
  | fixed x => exact h.bind (h.freshFixed x) fun _ => h.pure _
  | undefined type => exact h.bind (h.liftBind h.identity fun _ => h.liftPure _) fun _ => h.pure _
  | property name => exact h.bind (h.lookupProperty name) fun _ => h.pure _
  | changing type code => exact leaf code fun i calls => .changing i type none calls
  | produced type node code =>
    exact h.bind (h.ofExcept _) fun name => leaf code fun i calls =>
      .changing i type (some name) calls
  | custom form code effect =>
    exact h.look (·.locals.producers) (fun _ _ => rfl) fun registers => leaf code fun i calls =>
      .custom i form (form.producer.tree registers) calls effect
  | map base f type => exact part fun i p => .map i p ⟨f, held⟩ type
  | flatMap base choice type => exact part fun i p => .flatMap i p choice type
  | withEffect inner e => exact part fun i p => .withEffect i p e
  | named inner name => exact part fun i p => .named i p name
  | orElse left right =>
    apply h.bind (h.build left held)
    intro l
    cases l with
    | none => exact h.pure _
    | some l => exact part fun i r => .orElse i l r
  | result a =>
    apply h.bind (h.ofExcept _)
    intro x
    apply h.bind (h.action a held x)
    intro y
    cases y with
    | none => exact h.pure _
    | some y => exact h.bind (h.freshFixed y) fun _ => h.pure _
  | after a next =>
    apply h.bind (h.ofExcept _)
    intro x
    apply h.bind (h.action a held x)
    intro y
    cases y with
    | none => exact h.pure _
    | some y => exact h.build next held
  | dispatch f => exact h.bind (h.ofExcept _) fun x => h.build (f x) held

end UserCode.Compositional

/-! ### Runs of parts -/

namespace Eval

variable {m n : Machine} {q : Query} {α β ε : Type}

/-- An attempt that succeeds in a scope does so once the scope is open. -/
theorem run_within_ok {o : Owner} {x : Attempt α} {a : α}
    (h : (ProviderGraph.within o x).run.run engine m = some (.ok a, n)) :
    ∃ t k, m.stack.enter o = .ok t ∧ x.run.run engine { m with stack := t } = some (.ok a, k) ∧
      n = { k with stack := k.stack.leave o.id } := by
  cases ht : m.stack.enter o with
  | error f =>
    have hrun : (ProviderGraph.within o x).run.run engine m = _ := run_within_error ht rfl
    cases hrun.symm.trans h
  | ok t =>
    have hrun : (ProviderGraph.within o x).run.run engine m = _ := run_within_eq ht
    obtain ⟨⟨r, k⟩, hrun, hk⟩ := Option.map_eq_some_iff.mp (hrun.symm.trans h)
    cases hk
    exact ⟨t, k, rfl, hrun, rfl⟩

/-- The question that makes the next call. -/
def callOf (calls : Calls) (m : Machine) : Query :=
  .act (calls.code (m.count calls.counter)) calls.held
    (.int (Int64.ofNat (m.count calls.counter)))

/-- A call is counted and made. -/
theorem run_call (calls : Calls) (f : Except Failure (Option Payload) → Attempt α) :
    (liftM (nextCall calls) >>= f).run.run engine m =
      (engine (callOf calls m) (m.bump calls.counter)).bind fun r =>
        (f r.1).run.run engine r.2 := by
  rw [run_lift_bind, run_bind]
  exact congrArg (Option.bind · _) (run_ask engine (m.bump calls.counter) (callOf calls m))

/-- A call is counted before its code is asked for, and what follows is asked after it. -/
theorem raises_call (calls : Calls) (f : Except Failure (Option Payload) → Attempt α) :
    (liftM (nextCall calls) >>= f).run.Raises m q n ↔
      (q = callOf calls m ∧ n = m.bump calls.counter) ∨
        ∃ r, engine (callOf calls m) (m.bump calls.counter) = some r ∧
          (f r.1).run.Raises r.2 q n := by
  rw [run_lift_bind, raises_bind]
  have hrun := run_ask engine (m.bump calls.counter) (callOf calls m)
  have hrun : (nextCall calls).run engine m = engine (callOf calls m) (m.bump calls.counter) := hrun
  rw [hrun]
  exact or_congr_left raises_ask

/-- Faults are turned into failures of user code when the attempt is done. -/
theorem run_asUserCode (x : Attempt α) :
    x.asUserCode.run.run engine m =
      (x.run.run engine m).map fun r => (r.1.mapError Failure.fault, r.2) := by
  change (Except.mapError Failure.fault <$> x.run).run engine m = _
  rw [map_eq_pure_bind, run_bind]
  cases x.run.run engine m <;> rfl

/-- What is asked does not depend on who is told of faults. -/
theorem raises_asUserCode {x : Attempt α} :
    x.asUserCode.run.Raises m q n ↔ x.run.Raises m q n := by
  change (Except.mapError Failure.fault <$> x.run).Raises m q n ↔ _
  rw [map_eq_pure_bind, raises_bind]
  constructor
  · rintro (h | ⟨r, -, h⟩)
    · exact h
    · exact h.elim
  · exact .inl

end Eval

end ProviderGraph
