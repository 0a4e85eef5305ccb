import ProviderGraph.Engine

/-!
# What rules are composed of

A property of evaluations is compositional if an evaluation has it as soon as its parts do. Every
rule but two is composed of simple parts, so it has each compositional property
(`Eval.Compositional.rule`). The two are the rule of a step, which does with scopes what a session
asks for, and that of a finalization, which keeps a value in a property. The rules of questions to
providers are composed of fewer parts than user code is, the elementary ones
(`Eval.Elementary.rule`).
-/

namespace ProviderGraph

/-- The question is not a step of a session, which opens and closes scopes as it is told. -/
def Query.Routine : Query → Prop
  | .step _ => False
  | _ => True

/-- The change fills a register, or empties it. -/
def Change.OnRegister : Change → Prop
  | .keepProperty _ _ | .keepProvider _ _ | .keepOwner _ _ | .keepValue _ _ | .dropValue _
  | .keepClassification _ _ | .keepProducer _ _ => True
  | _ => False

namespace Eval

/-- Evaluations have the property `P` as soon as the parts that the rules of questions to providers
are composed of have it. -/
structure Elementary (P : {α : Type} → Eval α → Prop) : Prop where
  pure {α : Type} (a : α) : P (Pure.pure a : Eval α)
  bind {α β : Type} {x : Eval α} {f : α → Eval β} (hx : P x) (hf : ∀ a, P (f a)) : P (x >>= f)
  ask (q : Query) (hq : q.Routine) : P (Eval.ask q Pure.pure)
  machine : P Eval.machine
  identity : P Eval.identity
  bump (i : Identity) : P (Eval.apply (.bump i))
  note (e : Event) : P (Eval.note e)
  inScope {α : Type} {o : Owner} {refused : Fault → Eval α} {body : Eval α}
    (hr : ∀ f, P (refused f)) (hb : P body) : P (Eval.within o refused body)

/-- Evaluations have the property `P` as soon as the parts that rules are composed of have it. -/
structure Compositional (P : {α : Type} → Eval α → Prop) : Prop extends Elementary P where
  elsewhere {α : Type} {x : Eval α} (hx : P x) : P (Eval.elsewhere x)
  apart (s : Step) : P (Eval.apart (Ask.step s))
  setProvider (r : PropertyRef) (q : Provider) : P (ProviderGraph.setProvider r q).run

namespace Elementary

variable {P : {α : Type} → Eval α → Prop} (h : Elementary P) {α β ε : Type}
include h

/-! ### Computations that may fail -/

theorem throw (e : ε) : P (MonadExcept.throw e : ExceptT ε Eval α).run := h.pure _

theorem bindExcept {x : ExceptT ε Eval α} {f : α → ExceptT ε Eval β} (hx : P x.run)
    (hf : ∀ a, P (f a).run) : P (x >>= f).run := by
  rw [ExceptT.run_bind]
  refine h.bind hx ?_
  intro r
  cases r with
  | ok a => exact hf a
  | error e => exact h.pure _

theorem map {x : ExceptT ε Eval α} (f : α → β) (hx : P x.run) : P (f <$> x).run := by
  rw [map_eq_pure_bind]
  exact h.bindExcept hx fun _ => h.pure _

theorem lift {x : Eval α} (hx : P x) : P (liftM x : ExceptT ε Eval α).run :=
  h.bind hx fun _ => h.pure _

theorem ofExcept (r : Except ε α) : P (MonadExcept.ofExcept r : ExceptT ε Eval α).run := by
  cases r with
  | ok a => exact h.pure _
  | error e => exact h.throw e

theorem asUserCode {x : Attempt α} (hx : P x.run) : P x.asUserCode.run := by
  refine h.bind hx ?_
  intro r
  cases r <;> exact h.pure _

theorem within {o : Owner} {x : Attempt α} (hx : P x.run) : P (ProviderGraph.within o x).run :=
  h.inScope (fun _ => h.pure _) hx

/-- A rejection is attributed to a provider that is shown by its text. -/
theorem settle {culprit : Eval String} (hc : P culprit) (r : Except Failure α) :
    P (ProviderGraph.settle culprit r).run := by
  match r with
  | .ok a => exact h.pure _
  | .error (.fault f) => exact h.throw f
  | .error (.rejected message) => exact h.bindExcept (h.lift hc) fun _ => h.throw _

theorem property (i : Identity) : P (Eval.property i) := h.bind h.machine fun _ => h.pure _

theorem value (p : Provider) (c : Reading) : P (Ask.value p c).run :=
  h.bindExcept (h.ask _ trivial) fun _ => h.pure _

theorem text (p : Provider) : P (Ask.text p) := h.ask _ trivial

/-! ### Parts of the rules -/

theorem nextCall (calls : Calls) : P (ProviderGraph.nextCall calls) := by
  refine h.bind h.machine fun m => ?_
  refine h.bind (h.bump _) fun _ => ?_
  exact h.ask _ trivial

theorem freshUndefined (type : PayloadType) (path : List String) :
    P (ProviderGraph.freshUndefined type path) := h.bind h.identity fun _ => h.pure _

theorem freshFixed (x : Payload) : P (ProviderGraph.freshFixed x) :=
  h.bind h.identity fun _ => h.pure _

theorem wrapEffect (p : Provider) (e : Option Effect) : P (ProviderGraph.wrapEffect p e) := by
  cases e with
  | none => exact h.pure p
  | some e => exact h.bind h.identity fun _ => h.pure _

theorem toProvider (type : PayloadType) (c : Classification) : P (c.toProvider type) := by
  cases c with
  | fixed x e => exact h.bind (h.freshFixed x) fun p => h.wrapEffect p e
  | changing p => exact h.pure p
  | missing path => exact h.freshUndefined type path

theorem applyTransform (p : Provider) (f : Closure) (x : Payload) :
    P (ProviderGraph.applyTransform p f x).run := by
  refine h.bindExcept (h.within (h.lift (h.ask _ trivial))) fun r => ?_
  exact h.settle (h.text p) r

theorem chooseNext (p : Provider) (choice : Recipe) (type : PayloadType) (v : Outcome) :
    P (ProviderGraph.chooseNext p choice type v).run := by
  refine h.bindExcept (h.within (h.lift ?_)) fun chosen => ?_
  · cases v.payload? with
    | some x => exact h.ask _ trivial
    | none => exact h.pure _
  · refine h.bindExcept (h.settle (h.text p) chosen) fun q => ?_
    cases q with
    | some q => exact h.lift (h.wrapEffect q _)
    | none => exact h.lift (h.freshUndefined type [])

theorem backing (p base : Provider) (choice : Recipe) (type : PayloadType) :
    P (ProviderGraph.backing p base choice type).run := by
  refine h.bindExcept (h.within (h.value base .lenient)) fun v => ?_
  split
  · exact h.lift (h.freshUndefined type [])
  · exact h.chooseNext p choice type v

theorem computeFrozen (r : PropertyRef) (held : Option Provider) :
    P (ProviderGraph.computeFrozen r held).run := by
  cases held with
  | none => exact h.bindExcept (h.lift (h.freshUndefined _ _)) fun _ => h.pure _
  | some q =>
    refine h.bindExcept (h.within (h.ask _ trivial)) fun t => ?_
    refine h.bindExcept (h.within (h.value q .strict)) fun v => ?_
    exact h.bindExcept (h.lift (h.toProvider _ _)) fun _ => h.pure _

/-! ### Questions to a provider -/

section Questions

variable (p : Provider)

theorem finalizeFor (r : PropertyRef) (c : Reading) :
    P (ProviderGraph.finalizeFor r c).run := by
  refine h.bindExcept (h.lift (h.property _)) fun s => ?_
  split
  · exact h.ask _ trivial
  · exact h.pure _

theorem evalValue (c : Reading) : P (ProviderGraph.evalValue p c).run := by
  cases p with
  | fixed | undefined => exact h.pure _
  | changing i type node calls =>
    refine h.bindExcept (h.lift (h.nextCall calls)) fun r => ?_
    exact h.bindExcept (h.settle (h.pure _) r) fun _ => h.pure _
  | map i base f type =>
    refine h.bindExcept (h.within (h.value base c)) fun v => ?_
    cases v with
    | missing path => exact h.pure _
    | present x e => exact h.bindExcept (h.applyTransform _ f x) fun _ => h.pure _
  | flatMap i base choice type =>
    refine h.bindExcept (h.within (h.value base c)) fun v => ?_
    split
    · exact h.pure _
    · exact h.bindExcept (h.chooseNext _ choice type v) fun q => h.within (h.value q c)
  | orElse i left right =>
    refine h.bindExcept (h.within (h.value left c)) fun l => ?_
    split
    · refine h.bindExcept (h.within (h.value right c)) fun r => ?_
      split <;> exact h.pure _
    · exact h.pure _
  | withEffect i inner e => exact h.bindExcept (h.within (h.value inner c)) fun _ => h.pure _
  | named i inner name => exact h.within (h.value inner c)
  | property r =>
    refine h.bindExcept (h.finalizeFor r c) fun _ => ?_
    refine h.bindExcept (h.lift (h.property _)) fun s => ?_
    split
    · exact h.within (h.value _ c)
    · exact h.pure _
  | custom i form producer calls effect =>
    refine h.bindExcept (h.lift (h.note _)) fun _ => ?_
    refine h.bindExcept (h.lift (h.nextCall calls)) fun r => ?_
    refine h.bindExcept (h.settle (h.pure _) r) fun y => ?_
    cases y <;> exact h.pure _

theorem evaluatedPresence : P (ProviderGraph.evaluatedPresence p).run :=
  h.bindExcept (h.ask _ trivial) fun _ => h.pure _

theorem evalPresence (c : Reading) : P (ProviderGraph.evalPresence p c).run := by
  cases p with
  | fixed | undefined => exact h.pure _
  | changing i type node calls =>
    cases node with
    | some name => exact h.pure _
    | none => exact h.bindExcept (h.ask _ trivial) fun _ => h.pure _
  | map => exact h.evaluatedPresence _
  | flatMap i base choice type =>
    exact h.bindExcept (h.backing _ base choice type) fun _ => h.within (h.ask _ trivial)
  | orElse i left right =>
    refine h.bindExcept (h.within (h.ask _ trivial)) fun b => ?_
    split
    · exact h.pure _
    · exact h.within (h.ask _ trivial)
  | withEffect | named => exact h.within (h.ask _ trivial)
  | property r =>
    refine h.bindExcept (h.lift (h.property _)) fun s => ?_
    split
    · exact h.within (h.ask _ trivial)
    · exact h.pure _
  | custom i form producer calls effect =>
    rw [ProviderGraph.evalPresence]
    split
    · exact h.evaluatedPresence _
    · refine h.bindExcept (h.lift (h.note _)) fun _ => ?_
      split
      · exact h.pure _
      · refine h.bindExcept (h.lift (h.nextCall calls)) fun r => ?_
        exact h.bindExcept (h.settle (h.pure _) r) fun _ => h.pure _

theorem evalProducer : P (ProviderGraph.evalProducer p).run := by
  cases p with
  | fixed | undefined => exact h.pure _
  | changing i type node calls => cases node <;> exact h.pure _
  | map | withEffect | named => exact h.within (h.ask _ trivial)
  | flatMap i base choice type =>
    exact h.bindExcept (h.backing _ base choice type) fun _ => h.within (h.ask _ trivial)
  | orElse i left right =>
    refine h.bindExcept (h.within (h.ask _ trivial)) fun _ => ?_
    exact h.bindExcept (h.within (h.ask _ trivial)) fun _ => h.pure _
  | property r =>
    refine h.bindExcept (h.lift (h.property _)) fun s => ?_
    split
    · exact h.pure _
    · exact h.bindExcept (h.within (h.ask _ trivial)) fun _ => h.pure _
    · exact h.pure _
  | custom => exact h.bindExcept (h.lift (h.note _)) fun _ => h.pure _

theorem addEffect (c : Classification) (e : Effect) : P (c.addEffect e) := by
  cases c with
  | fixed | missing => exact h.pure _
  | changing => exact h.bind h.identity fun _ => h.pure _

theorem addName (c : Classification) (name : String) : P (c.addName name) := by
  cases c with
  | fixed | missing => exact h.pure _
  | changing => exact h.bind h.identity fun _ => h.pure _

theorem evalClassification : P (ProviderGraph.evalClassification p).run := by
  cases p with
  | fixed | undefined => exact h.pure _
  | changing => exact h.bindExcept (h.lift h.identity) fun _ => h.pure _
  | map i base f type =>
    refine h.bindExcept (h.within (h.ask _ trivial)) fun c => ?_
    cases c with
    | missing path => exact h.pure _
    | changing q => exact h.bindExcept (h.lift h.identity) fun _ => h.pure _
    | fixed x e =>
      refine h.bindExcept (h.applyTransform _ f x) fun y => ?_
      cases y <;> exact h.pure _
  | flatMap i base choice type =>
    refine h.bindExcept (h.within (h.ask _ trivial)) fun c => ?_
    cases c with
    | missing path => exact h.pure _
    | changing q => exact h.bindExcept (h.lift h.identity) fun _ => h.pure _
    | fixed x e =>
      exact h.bindExcept (h.chooseNext _ choice type _) fun _ => h.within (h.ask _ trivial)
  | orElse i left right =>
    refine h.bindExcept (h.within (h.ask _ trivial)) fun l => ?_
    split
    · exact h.pure _
    · refine h.bindExcept (h.within (h.ask _ trivial)) fun r => ?_
      split
      · exact h.pure _
      · split
        · exact h.pure _
        · refine h.bindExcept (h.lift (h.toProvider _ l)) fun _ => ?_
          refine h.bindExcept (h.lift (h.toProvider _ r)) fun _ => ?_
          exact h.bindExcept (h.lift h.identity) fun _ => h.pure _
  | withEffect i inner e =>
    exact h.bindExcept (h.within (h.ask _ trivial)) fun c => h.lift (h.addEffect c e)
  | named i inner name =>
    exact h.bindExcept (h.within (h.ask _ trivial)) fun c => h.lift (h.addName c name)
  | property r =>
    refine h.bindExcept (h.lift (h.property _)) fun s => ?_
    split
    · exact h.within (h.ask _ trivial)
    · exact h.pure _
  | custom i form producer calls effect =>
    refine h.bindExcept (h.lift (h.note _)) fun _ => ?_
    refine h.bindExcept (h.lift (h.nextCall calls)) fun r => ?_
    refine h.bindExcept (h.settle (h.pure _) r) fun y => ?_
    cases y <;> exact h.pure _

theorem describe : P (ProviderGraph.describe p) := by
  cases p with
  | fixed | undefined | changing | named => exact h.pure _
  | map | flatMap => exact h.bind (h.ask _ trivial) fun _ => h.pure _
  | orElse => exact h.bind (h.ask _ trivial) fun _ => h.bind (h.ask _ trivial) fun _ => h.pure _
  | withEffect => exact h.ask _ trivial
  | property r =>
    rw [ProviderGraph.describe]
    split
    · exact h.pure _
    · refine h.bind (h.property _) fun s => ?_
      split
      · exact h.bind (h.ask _ trivial) fun _ => h.pure _
      · exact h.pure _
  | custom =>
    rw [ProviderGraph.describe]
    split <;> exact h.pure _

theorem render (label : String) : P (ProviderGraph.render p label) :=
  h.inScope (fun _ => h.pure _) (h.describe p)

end Questions

/-! ### User code -/

section UserCode

theorem lookup {what name : String} {registers : Machine → Table String α} :
    P (ProviderGraph.lookup what registers name).run :=
  h.bindExcept (h.lift h.machine) fun _ => h.ofExcept _

theorem perform (deeds : List (Action × Payload)) : P (ProviderGraph.perform deeds) := by
  induction deeds with
  | nil => exact h.pure _
  | cons deed deeds ih => exact h.bind (h.ask _ trivial) fun _ => ih

theorem unpack (v : Outcome) : P (ProviderGraph.unpack v).run := by
  cases v with
  | missing path => exact h.throw _
  | present x e => exact h.bindExcept (h.lift (h.perform _)) fun _ => h.pure _

theorem unpack? (v : Outcome) : P (ProviderGraph.unpack? v).run := by
  cases v with
  | missing path => exact h.pure _
  | present x e => exact h.map some (h.unpack _)

theorem get (p : Provider) : P (Ask.get p).run :=
  h.bindExcept (h.value p .strict) fun v => h.unpack v

theorem get? (p : Provider) : P (Ask.get? p).run :=
  h.bindExcept (h.value p .strict) fun v => h.unpack? v

theorem withPart {r : Recipe} {held : Option Payload} {next : Provider → UserCode Provider}
    (hn : ∀ p, P (next p).run) : P (ProviderGraph.withPart r held next).run := by
  refine h.bindExcept (h.ask _ trivial) fun p => ?_
  cases p with
  | some p => exact h.map some (hn p)
  | none => exact h.pure _

theorem freshCalls (code : Nat → Action) (held : Option Payload) :
    P (ProviderGraph.freshCalls code held) := h.bind h.identity fun _ => h.pure _

theorem evalRecipe (r : Recipe) (held : Option Payload) :
    P (ProviderGraph.evalRecipe r held).run := by
  have part {r : Recipe} (f : Identity → Provider → Provider) :
      P (ProviderGraph.withPart r held fun p => do return f (← Eval.identity) p).run :=
    h.withPart fun _ => h.bindExcept (h.lift h.identity) fun _ => h.pure _
  have leaf (code : Nat → Action) (f : Identity → Calls → Provider) :
      P (do return some (f (← Eval.identity) (← ProviderGraph.freshCalls code held)) :
        UserCode _).run :=
    h.bindExcept (h.lift h.identity) fun _ =>
      h.bindExcept (h.lift (h.freshCalls code held)) fun _ => h.pure _
  cases r with
  | register name => exact h.map some h.lookup
  | fixed x => exact h.bindExcept (h.lift (h.freshFixed x)) fun _ => h.pure _
  | undefined type => exact h.bindExcept (h.lift (h.freshUndefined type [])) fun _ => h.pure _
  | property name => exact h.bindExcept h.lookup fun _ => h.pure _
  | changing type code => exact leaf code fun i calls => .changing i type none calls
  | produced type node code =>
    exact h.bindExcept (h.ofExcept _) fun name => leaf code fun i calls =>
      .changing i type (some name) calls
  | custom form code effect =>
    exact h.bindExcept (h.lift h.machine) fun m => leaf code fun i calls =>
      .custom i form (form.producer.tree m.locals.producers) calls effect
  | map base f type => exact part fun i p => .map i p ⟨f, held⟩ type
  | flatMap base choice type => exact part fun i p => .flatMap i p choice type
  | withEffect inner e => exact part fun i p => .withEffect i p e
  | named inner name => exact part fun i p => .named i p name
  | orElse left right =>
    refine h.bindExcept (h.ask _ trivial) fun l => ?_
    cases l with
    | none => exact h.pure _
    | some l => exact part fun i r => .orElse i l r
  | result a =>
    refine h.bindExcept (h.ofExcept _) fun x => h.bindExcept (h.ask _ trivial) fun y => ?_
    cases y with
    | none => exact h.pure _
    | some y => exact h.bindExcept (h.lift (h.freshFixed y)) fun _ => h.pure _
  | after a next =>
    refine h.bindExcept (h.ofExcept _) fun x => h.bindExcept (h.ask _ trivial) fun y => ?_
    cases y with
    | none => exact h.pure _
    | some y => exact h.ask _ trivial
  | dispatch f => exact h.bindExcept (h.ofExcept _) fun x => h.ask _ trivial

end UserCode

/-! ### Requests -/

section Requests

variable (hkeep : ∀ c : Change, c.OnRegister → P (Eval.apply c))

theorem tellClassification (c : Classification) : P (ProviderGraph.tellClassification c) := by
  cases c with
  | fixed | missing => exact h.pure _
  | changing p => exact h.bind (h.text p) fun _ => h.pure _

theorem guardedRequest (o : Owner) (p : Provider) (request : GuardedRequest) :
    P (request.answer o p).run := by
  cases request with
  | value c => exact h.bindExcept (h.within (h.value p c)) fun _ => h.pure _
  | presence | producer => exact h.bindExcept (h.within (h.ask _ trivial)) fun _ => h.pure _
  | classification =>
    exact h.bindExcept (h.within (h.ask _ trivial)) fun c => h.lift (h.tellClassification c)
  | type => exact h.pure _
  | text | inner => exact h.bindExcept (h.lift (h.text p)) fun _ => h.pure _

include hkeep

theorem keepOutcome (p : Provider) (into : Option String) (v : Outcome) :
    P (ProviderGraph.keepOutcome p into v) := h.bind (hkeep _ trivial) fun _ => h.pure _

theorem providerRequest (p : Provider) (request : ProviderRequest) : P (request.answer p).run := by
  cases request with
  | keep into => exact h.bindExcept (h.lift (hkeep _ trivial)) fun _ => h.pure _
  | get => exact h.bindExcept (h.asUserCode (h.get p)) fun _ => h.pure _
  | getOrNone => exact h.bindExcept (h.asUserCode (h.get? p)) fun _ => h.pure _
  | isPresent | presence =>
    exact h.bindExcept (h.asUserCode (h.ask _ trivial)) fun _ => h.pure _
  | value c into =>
    exact h.bindExcept (h.asUserCode (h.value p c)) fun v => h.lift (h.keepOutcome hkeep p into v)
  | ownValue c into =>
    exact h.bindExcept (h.asUserCode (h.ask _ trivial)) fun v =>
      h.lift (h.keepOutcome hkeep p into v)
  | producer into =>
    refine h.bindExcept (h.asUserCode (h.ask _ trivial)) fun tree => ?_
    exact h.bindExcept (h.lift (hkeep _ trivial)) fun _ => h.pure _
  | classification into =>
    refine h.bindExcept (h.asUserCode (h.ask _ trivial)) fun c => ?_
    exact h.bindExcept (h.lift (hkeep _ trivial)) fun _ => h.lift (h.tellClassification c)
  | type | info => exact h.pure _
  | text | debugText => exact h.bindExcept (h.lift (h.text p)) fun _ => h.pure _
  | guarded owner request =>
    exact h.bindExcept h.lookup fun o => h.asUserCode (h.guardedRequest o p request)

end Requests

/-- A question that is answered neither by an action, nor by a finalization or a step, has a rule of
elementary parts. -/
theorem rule {q : Query} (hq : q.Routine) (ha : ∀ a held x, q ≠ .act a held x)
    (hf : ∀ r, q ≠ .finalize r) : P (ProviderGraph.rule q) := by
  cases q with
  | ownValue p c => exact h.evalValue p c
  | presence p c => exact h.evalPresence p c
  | producer p => exact h.evalProducer p
  | classification p => exact h.evalClassification p
  | text p label => exact h.render p label
  | finalize r => exact absurd rfl (hf r)
  | act a held x => exact absurd rfl (ha a held x)
  | build r held => exact h.evalRecipe r held
  | step s => exact hq.elim

end Elementary

namespace Compositional

variable {P : {α : Type} → Eval α → Prop} (h : Compositional P)
include h

theorem setPayload (r : PropertyRef) (x : Payload) : P (ProviderGraph.setPayload r x).run :=
  h.bindExcept (h.lift (h.freshFixed x)) fun q => h.setProvider r q

theorem evalAction (a : Action) (held : Option Payload) (x : Payload) :
    P (ProviderGraph.evalAction a held x).run := by
  cases a with
  | compute f =>
    rw [ProviderGraph.evalAction]
    split
    · exact h.pure _
    · exact h.throw _
  | held => exact h.pure _
  | andThen first second =>
    refine h.bindExcept (h.ask _ trivial) fun y => ?_
    cases y with
    | some y => exact h.ask _ trivial
    | none => exact h.pure _
  | both left right =>
    refine h.bindExcept (h.ask _ trivial) fun y => h.bindExcept (h.ask _ trivial) fun z => ?_
    split <;> exact h.pure _
  | dispatch f => exact h.ask _ trivial
  | record label => exact h.bindExcept (h.lift (h.note _)) fun _ => h.pure _
  | perform s =>
    refine h.bindExcept (h.lift (h.apart s)) fun _ => ?_
    exact h.bindExcept (h.lift (h.note _)) fun _ => h.pure _
  | elsewhere a => exact h.elsewhere (h.ask _ trivial)
  | inquire q r =>
    refine h.bindExcept (h.ask _ trivial) fun p => ?_
    cases p with
    | none => exact h.pure _
    | some p =>
      refine h.asUserCode ?_
      cases q with
      | get => exact h.map some (h.get p)
      | getOrNone => exact h.get? p
      | isPresent => exact h.bindExcept (h.ask _ trivial) fun _ => h.pure _
  | assign name a =>
    refine h.bindExcept (h.ask _ trivial) fun y => ?_
    cases y with
    | none => exact h.pure _
    | some y =>
      refine h.bindExcept h.lookup fun r => ?_
      exact h.bindExcept (h.asUserCode (h.setPayload r y)) fun _ => h.pure _
  | finalize name =>
    refine h.bindExcept h.lookup fun r => ?_
    exact h.bindExcept (h.asUserCode (h.ask _ trivial)) fun _ => h.pure _
  | depth => exact h.bindExcept (h.lift h.machine) fun _ => h.pure _

/-- A question that finalizes nothing and is no step has a rule with each compositional
property. -/
theorem rule {q : Query} (hq : q.Routine) (hf : ∀ r, q ≠ .finalize r) :
    P (ProviderGraph.rule q) := by
  cases q with
  | act a held x => exact h.evalAction a held x
  | _ => exact h.toElementary.rule hq (fun _ _ _ hq => by cases hq) hf

end Compositional

end Eval

end ProviderGraph
