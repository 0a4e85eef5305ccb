import ProviderGraph.Change

/-!
# Evaluation

The rules of the engine are evaluations. An evaluation is a tree: it poses questions, looks at the
machine and changes it, and has parts that run in a scope, on a thread or with registers of their
own. What it does to a machine is told by `Eval.run`, given a way to have questions answered, and
the module `ProviderGraph.Engine` ties the knot. So whatever the nodes of the tree keep is kept by
the engine, and what a rule asks can be read off its tree. The lack of fuel is kept apart from
every answer.
-/

namespace ProviderGraph

/-- A question to the engine. -/
inductive Query where
  /-- The value of a provider, without its declared name. -/
  | ownValue (p : Provider) (c : Reading)
  /-- Whether a provider has a payload. -/
  | presence (p : Provider) (c : Reading)
  /-- What would produce the value of a provider. -/
  | producer (p : Provider)
  /-- What is known of a provider ahead of execution. -/
  | classification (p : Provider)
  /-- The text of a provider, which is the label where it is being rendered already. -/
  | text (p : Provider) (label : String)
  /-- Compute the value of a property and keep it. -/
  | finalize (p : PropertyRef)
  /-- Run an action. -/
  | act (a : Action) (held : Option Payload) (x : Payload)
  /-- Build the provider that a recipe describes. -/
  | build (r : Recipe) (held : Option Payload)
  /-- Run a step of a session. -/
  | step (s : Step)

@[reducible]
def Query.Answer : Query → Type
  | .ownValue _ _ => Except Fault Outcome
  | .presence _ _ => Except Fault Bool
  | .producer _ => Except Fault Producer
  | .classification _ => Except Fault Classification
  | .text _ _ => String
  | .finalize _ => Except Fault Unit
  | .act _ _ _ => Except Failure (Option Payload)
  | .build _ _ => Except Failure (Option Provider)
  | .step _ => Reply

/-- A computation on the machine, as the tree of what it does. -/
inductive Eval : Type → Type 1 where
  | done {α : Type} (a : α) : Eval α
  /-- Pose a question. -/
  | ask {α : Type} (q : Query) (next : q.Answer → Eval α) : Eval α
  | look {α : Type} (next : Machine → Eval α) : Eval α
  /-- Take a new identity. -/
  | fresh {α : Type} (next : Identity → Eval α) : Eval α
  | change {α : Type} (c : Change) (next : Eval α) : Eval α
  /-- Open a scope and keep it in a register. -/
  | openScope {α : Type} (name : String) (o : Owner) (next : Except Fault Unit → Eval α) : Eval α
  /-- Run `body` in the scope of an owner, unless the scope cannot be opened. The scope is closed
  when `body` ends. -/
  | inScope {α β : Type} (o : Owner) (body : Eval β) (next : Except Fault β → Eval α) : Eval α
  /-- Run `body` on a thread of its own, with no open scopes and empty registers. -/
  | onThread {α β : Type} (body : Eval β) (next : β → Eval α) : Eval α
  /-- Run `body` with registers of its own. Scopes that it keeps open are closed at its end. -/
  | withOwnLocals {α β : Type} (body : Eval β) (next : β → Eval α) : Eval α

/-- A way to have questions answered; `none` is the lack of fuel. -/
abbrev Answerer := (q : Query) → Machine → Option (q.Answer × Machine)

namespace Eval

/-- One computation and then another. -/
def bind {α β : Type} : Eval α → (α → Eval β) → Eval β
  | .done a, f => f a
  | .ask q next, f => .ask q fun a => (next a).bind f
  | .look next, f => .look fun m => (next m).bind f
  | .fresh next, f => .fresh fun i => (next i).bind f
  | .change c next, f => .change c (next.bind f)
  | .openScope name o next, f => .openScope name o fun r => (next r).bind f
  | .inScope o body next, f => .inScope o body fun r => (next r).bind f
  | .onThread body next, f => .onThread body fun b => (next b).bind f
  | .withOwnLocals body next, f => .withOwnLocals body fun b => (next b).bind f

instance : Monad Eval where
  pure := .done
  bind := bind

instance : LawfulMonad Eval := LawfulMonad.mk' Eval
  (fun x => by
    induction x with
    | done => rfl
    | ask q next ih => exact congrArg (ask q) (funext ih)
    | look next ih => exact congrArg look (funext ih)
    | fresh next ih => exact congrArg fresh (funext ih)
    | change c next ih => exact congrArg (change c) ih
    | openScope name o next ih => exact congrArg (openScope name o) (funext ih)
    | inScope o body next _ ih => exact congrArg (inScope o body) (funext ih)
    | onThread body next _ ih => exact congrArg (onThread body) (funext ih)
    | withOwnLocals body next _ ih => exact congrArg (withOwnLocals body) (funext ih))
  (fun _ _ => rfl)
  (fun x f g => by
    induction x with
    | done => rfl
    | ask q next ih => exact congrArg (ask q) (funext fun a => ih a f)
    | look next ih => exact congrArg look (funext fun m => ih m f)
    | fresh next ih => exact congrArg fresh (funext fun i => ih i f)
    | change c next ih => exact congrArg (change c) (ih f)
    | openScope name o next ih => exact congrArg (openScope name o) (funext fun r => ih r f)
    | inScope o body next _ ih => exact congrArg (inScope o body) (funext fun r => ih r f)
    | onThread body next _ ih => exact congrArg (onThread body) (funext fun r => ih r f)
    | withOwnLocals body next _ ih =>
      exact congrArg (withOwnLocals body) (funext fun r => ih r f))

/-- A part that cannot fail is followed by the rest. -/
theorem run_lift_bind {ε α β : Type} (x : Eval α) (f : α → ExceptT ε Eval β) :
    ((liftM x : ExceptT ε Eval α) >>= f).run = x >>= fun a => (f a).run :=
  ExceptT.run_bind_lift x f

/-- The machine as it stands while `body` runs on a thread of its own. -/
def newThread (m : Machine) : Machine :=
  { m with stack := .empty m.threadLimit, locals := .empty }

/-- The machine after a part with registers of its own: the scopes kept in them are closed. -/
def dropLocals (m n : Machine) : Machine :=
  { n with
    stack := n.locals.scopes.foldl (fun s e => s.leave e.2) n.stack
    locals := m.locals }

/-- What a computation gives and does to a machine. -/
def run (answers : Answerer) {α : Type} : Eval α → Machine → Option (α × Machine)
  | .done a, m => some (a, m)
  | .ask q next, m => (answers q m).bind fun r => (next r.1).run answers r.2
  | .look next, m => (next m).run answers m
  | .fresh next, m => (next m.supply).run answers { m with supply := m.supply + 1 }
  | .change c next, m => next.run answers (m.after c)
  | .openScope name o next, m =>
    match m.openScope name o with
    | .error f => (next (.error f)).run answers m
    | .ok m => (next (.ok ())).run answers m
  | .inScope o body next, m =>
    match m.stack.enter o with
    | .error f => (next (.error f)).run answers m
    | .ok s => (body.run answers { m with stack := s }).bind fun r =>
      (next (.ok r.1)).run answers { r.2 with stack := r.2.stack.leave o.id }
  | .onThread body next, m => (body.run answers (newThread m)).bind fun r =>
    (next r.1).run answers { r.2 with stack := m.stack, locals := m.locals }
  | .withOwnLocals body next, m => (body.run answers { m with locals := .empty }).bind fun r =>
    (next r.1).run answers (dropLocals m r.2)

end Eval

/-- A computation that may end with a fault. -/
abbrev Attempt := ExceptT Fault Eval

/-- A computation of user code. -/
abbrev UserCode := ExceptT Failure Eval

namespace Ask

/-- The value of a provider, without its declared name. -/
def ownValue (p : Provider) (c : Reading) : Attempt Outcome :=
  ExceptT.mk (.ask (.ownValue p c) pure)

/-- The value of a provider; its declared name stands in front of a missing path. -/
def value (p : Provider) (c : Reading) : Attempt Outcome := do
  return (← ownValue p c).push p.declaredName

/-- Whether a provider has a payload. -/
def presence (p : Provider) (c : Reading) : Attempt Bool :=
  ExceptT.mk (.ask (.presence p c) pure)

def producer (p : Provider) : Attempt Producer := ExceptT.mk (.ask (.producer p) pure)

def classification (p : Provider) : Attempt Classification :=
  ExceptT.mk (.ask (.classification p) pure)

def text (p : Provider) : Eval String := .ask (.text p p.kind) pure

def propertyText (p : PropertyRef) : Eval String := .ask (.text (.property p) p.label) pure

def finalize (p : PropertyRef) : Attempt Unit := ExceptT.mk (.ask (.finalize p) pure)

def act (a : Action) (held : Option Payload) (x : Payload) :
    Eval (Except Failure (Option Payload)) :=
  .ask (.act a held x) pure

def action (a : Action) (held : Option Payload) (x : Payload) : UserCode (Option Payload) :=
  ExceptT.mk (act a held x)

def build (r : Recipe) (held : Option Payload) : UserCode (Option Provider) :=
  ExceptT.mk (.ask (.build r held) pure)

def step (s : Step) : Eval Reply := .ask (.step s) pure

end Ask

namespace Eval

def machine : Eval Machine := .look pure

def identity : Eval Identity := .fresh pure

def apply (c : Change) : Eval Unit := .change c (pure ())

/-- Open a scope and keep it in a register. -/
def keepOpen (name : String) (o : Owner) : Eval (Except Fault Unit) := .openScope name o pure

def property (i : Identity) : Eval Property := do return (← machine).property i

def note (e : Event) : Eval Unit := apply (.note e)

/-- Run `body` in the scope of an owner, or `refused` when the scope cannot be opened. -/
def within {α : Type} (o : Owner) (refused : Fault → Eval α) (body : Eval α) : Eval α :=
  .inScope o body fun
    | .ok a => pure a
    | .error f => refused f

/-- Run `body` on a thread of its own. -/
def elsewhere {α : Type} (body : Eval α) : Eval α := .onThread body pure

/-- Run `body` with registers of its own. -/
def apart {α : Type} (body : Eval α) : Eval α := .withOwnLocals body pure

variable {α β : Type} (answers : Answerer) (m : Machine)

theorem run_pure (a : α) : (pure a : Eval α).run answers m = some (a, m) := rfl

/-- A single question does what its answer does. -/
theorem run_ask (q : Query) : (ask q pure).run answers m = answers q m := by
  cases h : answers q m <;> simp [run, h, pure]

theorem run_property (i : Identity) :
    (Eval.property i).run answers m = some (m.property i, m) := rfl

theorem run_bind (x : Eval α) (f : α → Eval β) :
    (x >>= f).run answers m = (x.run answers m).bind fun r => (f r.1).run answers r.2 := by
  induction x generalizing m with
  | done a => rfl
  | ask q next ih =>
    change ((answers q m).bind fun r => (next r.1 >>= f).run answers r.2) = _
    simp [run, ih, Option.bind_assoc]
  | look next ih => exact ih _ _ _
  | fresh next ih => exact ih _ _ _
  | change c next ih => exact ih _ _
  | openScope name o next ih =>
    change (openScope name o fun r => next r >>= f).run answers m = _
    simp only [run]
    split <;> exact ih _ _ _
  | inScope o body next _ ih =>
    change (inScope o body fun r => next r >>= f).run answers m = _
    simp only [run]
    split
    · exact ih _ _ _
    · simp [ih, Option.bind_assoc]
  | onThread body next _ ih =>
    change ((body.run answers _).bind fun r => (next r.1 >>= f).run answers _) = _
    simp [run, ih, Option.bind_assoc]
  | withOwnLocals body next _ ih =>
    change ((body.run answers _).bind fun r => (next r.1 >>= f).run answers _) = _
    simp [run, ih, Option.bind_assoc]

theorem run_bind_of {answers : Answerer} {m n : Machine} {x : Eval α} {a : α}
    (h : x.run answers m = some (a, n)) (f : α → Eval β) :
    (x >>= f).run answers m = (f a).run answers n := by
  rw [run_bind, h, Option.bind_some]

theorem run_bind_ok {ε : Type} {answers : Answerer} {m n : Machine} {x : ExceptT ε Eval α} {a : α}
    (h : x.run.run answers m = some (.ok a, n)) (f : α → ExceptT ε Eval β) :
    (x >>= f).run.run answers m = (f a).run.run answers n := by
  rw [ExceptT.run_bind, run_bind_of h]

theorem run_bind_error {ε : Type} {answers : Answerer} {m n : Machine} {x : ExceptT ε Eval α}
    {e : ε} (h : x.run.run answers m = some (.error e, n)) (f : α → ExceptT ε Eval β) :
    (x >>= f).run.run answers m = some (.error e, n) := by
  rw [ExceptT.run_bind, run_bind_of h, run_pure]

/-- A computation that succeeds does so in both parts. -/
theorem run_bindExcept_ok {ε : Type} {answers : Answerer} {m n : Machine} {x : ExceptT ε Eval α}
    {f : α → ExceptT ε Eval β} {b : β} (h : (x >>= f).run.run answers m = some (.ok b, n)) :
    ∃ a m₁, x.run.run answers m = some (.ok a, m₁) ∧
      (f a).run.run answers m₁ = some (.ok b, n) := by
  rw [ExceptT.run_bind, run_bind] at h
  obtain ⟨⟨a, m₁⟩, hx, hf⟩ := Option.bind_eq_some_iff.mp h
  cases a with
  | ok a => exact ⟨a, m₁, hx, hf⟩
  | error e => cases hf

/-- A part that looks at a property goes on with its state. -/
theorem run_property_bind {ε : Type} {answers : Answerer} {m : Machine} {i : Identity}
    {f : Property → ExceptT ε Eval α} :
    ((liftM (Eval.property i) : ExceptT ε Eval Property) >>= f).run.run answers m =
      (f (m.property i)).run.run answers m := by
  rw [run_lift_bind, run_bind_of (run_property _ _ _)]

end Eval

/-- Run `body` in the scope of an owner. -/
def within {α : Type} (o : Owner) (body : Attempt α) : Attempt α :=
  ExceptT.mk (Eval.within o (fun f => pure (.error f)) body.run)

/-- The fault of a provider, seen from the user code that reads it. -/
def Attempt.asUserCode {α : Type} (x : Attempt α) : UserCode α := ExceptT.adapt .fault x

/-- The result of user code, where a rejection is attributed to the provider that called it. -/
def settle {α : Type} (culprit : Eval String) : Except Failure α → Attempt α
  | .ok a => pure a
  | .error (.fault f) => throw f
  | .error (.rejected message) => do throw (.transform (← culprit) message)

end ProviderGraph
