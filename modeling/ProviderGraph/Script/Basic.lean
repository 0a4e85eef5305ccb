import ProviderGraph.Fault
import ProviderGraph.Script.Request
import ProviderGraph.SideEffect

/-!
# User code

Transforms, callables, side effects and the steps of a session are user code, and user code may
come back to the engine: it may read providers, change properties and run whole steps. An action
takes a payload and gives a payload, nothing or a failure. A recipe describes a provider that is
built each time the recipe is followed. Code written inside a recipe sees the payload that the
recipe holds.
-/

namespace ProviderGraph

/-- What user code asks of a provider it builds. -/
inductive Inquiry where
  | get
  | getOrNone
  | isPresent
deriving DecidableEq

mutual
/-- Code that runs on a payload. -/
inductive Action where
  /-- A function of the payload alone. -/
  | compute (f : Payload → Except Failure (Option Payload))
  /-- The payload that the surrounding recipe holds. -/
  | held
  /-- One action, then another on its result. -/
  | andThen (first second : Action)
  /-- Both actions on the payload, and the sum of the results. -/
  | both (left right : Action)
  /-- An action chosen by the payload. -/
  | dispatch (f : Payload → Action)
  /-- Note the payload under a label and give it back. -/
  | record (label : String)
  /-- Run a step of a session and give the payload back. -/
  | perform (s : Step)
  /-- An action on a thread of its own. -/
  | elsewhere (a : Action)
  /-- Build a provider that holds the payload, and read it. -/
  | inquire (q : Inquiry) (r : Recipe)
  /-- Set a property to the result of an action, and give the payload back. -/
  | assign (property : String) (a : Action)
  /-- Finalize a property and give the payload back. -/
  | finalize (property : String)
  /-- The number of open scopes. -/
  | depth

/-- A description of a provider. -/
inductive Recipe where
  /-- The provider kept in a register. -/
  | register (name : String)
  | fixed (x : Payload)
  | undefined (type : PayloadType)
  /-- A leaf whose calls are numbered from zero. -/
  | changing (type : PayloadType) (calls : Nat → Action)
  /-- An output of a work node; without a name, of the node named by the held payload. -/
  | produced (type : PayloadType) (node : Option String) (calls : Nat → Action)
  | property (name : String)
  | map (base : Recipe) (f : Action) (type : PayloadType)
  | flatMap (base : Recipe) (choice : Recipe) (type : PayloadType)
  | orElse (left right : Recipe)
  | withEffect (inner : Recipe) (e : SideEffect Action)
  | named (inner : Recipe) (name : String)
  | custom (form : CustomForm) (calls : Nat → Action) (effect : Option (SideEffect Action))
  /-- A fixed payload: the result of an action on the held one. -/
  | result (a : Action)
  /-- Run an action on the held payload, drop its result, then build. -/
  | after (a : Action) (next : Recipe)
  /-- A recipe chosen by the held payload. -/
  | dispatch (f : Payload → Recipe)

/-- A step of a session. -/
inductive Step where
  /-- The steps again and again; the answers are those of the last round. -/
  | iterate (n : Nat) (body : List Step)
  /-- The steps on a thread of their own. -/
  | onThread (body : List Step)
  /-- The steps inside the scope of an owner, if it can be opened. -/
  | tryRun (owner : String) (body : List Step)
  | runEffect (e : Option (SideEffect Action)) (x : Payload)
  | scope (s : ScopeRequest)
  | producer (s : ProducerRequest)
  | provider (e : Recipe) (s : ProviderRequest)
  /-- Whether two recipes build one provider. -/
  | same (a b : Recipe)
  /-- Keep a new property in a register. -/
  | newProperty (p : String) (type : PayloadType) (name : Option String)
  | property (p : String) (s : PropertyRequest)
  | setProvider (p : String) (e : Recipe)
  | convention (p : String) (e : Recipe)
  | declared (d : Declared String Recipe) (s : DeclaredRequest)
  | value (v : String) (s : ValueRequest)
  | valueWithEffect (v : String) (e : Option (SideEffect Action))
  | valueTransform (v : String) (f : Action) (type : PayloadType) (into : String)
  | classification (v : String) (s : ClassificationRequest)
  | classificationChanging (v : String) (e : Recipe)
  | classificationWithEffect (v : String) (e : SideEffect Action)
end

end ProviderGraph
