import ProviderGraph.Producer
import ProviderGraph.Scope
import ProviderGraph.Script.Basic
import ProviderGraph.Value

/-!
# Providers

A provider describes a payload that has not been computed yet: a leaf, a combination of other
providers, or a view of a property. Providers never change, and each carries the identity it was
built with. The user code of a provider is kept together with the payload held when it was built.
-/

namespace ProviderGraph

/-- A side effect of user code. -/
abbrev Effect := SideEffect Action

abbrev Outcome := Value Action

/-- User code with the payload it holds. -/
structure Closure where
  code : Action
  held : Option Payload

/-- Numbered calls of user code. The counter is shared by all that make these calls. -/
structure Calls where
  counter : Identity
  code : Nat → Action
  held : Option Payload

/-- A property as it is referred to. -/
structure PropertyRef where
  id : Identity
  type : PayloadType
  name : Option String

/-- The label of a property: its name, if it has one. -/
def PropertyRef.label (p : PropertyRef) : String := p.name.getD "property"

/-- A description of a payload that has not been computed yet. -/
inductive Provider where
  | fixed (id : Identity) (x : Payload)
  | undefined (id : Identity) (type : PayloadType) (path : List String)
  /-- A leaf that makes a call on every evaluation, as an output of a work node or not. -/
  | changing (id : Identity) (type : PayloadType) (node : Option String) (calls : Calls)
  | map (id : Identity) (base : Provider) (f : Closure) (type : PayloadType)
  | flatMap (id : Identity) (base : Provider) (choice : Recipe) (type : PayloadType)
  | orElse (id : Identity) (left right : Provider)
  | withEffect (id : Identity) (inner : Provider) (e : Effect)
  | named (id : Identity) (inner : Provider) (name : String)
  | property (p : PropertyRef)
  | custom (id : Identity) (form : CustomForm) (producer : Producer) (calls : Calls)
      (effect : Option Effect)

namespace Provider

def id : Provider → Identity
  | .fixed id _ => id
  | .undefined id _ _ => id
  | .changing id _ _ _ => id
  | .map id _ _ _ => id
  | .flatMap id _ _ _ => id
  | .orElse id _ _ => id
  | .withEffect id _ _ => id
  | .named id _ _ => id
  | .property p => p.id
  | .custom id _ _ _ _ => id

/-- The short name of a provider's kind. -/
def kind : Provider → String
  | .fixed _ _ => "fixed"
  | .undefined _ _ _ => "undefined"
  | .changing _ _ _ _ => "changing"
  | .map _ _ _ _ => "map"
  | .flatMap _ _ _ _ => "flatmap"
  | .orElse _ _ _ => "or"
  | .withEffect _ _ _ => "with_side_effect"
  | .named _ _ _ => "named"
  | .property _ => "property"
  | .custom _ form _ _ _ => form.kind.name

/-- The label of the scope that a provider evaluates others in. -/
def label : Provider → String
  | .named _ _ name => name
  | .property p => p.label
  | p => p.kind

/-- The owner of the scope that a provider evaluates others in. -/
def owner (p : Provider) : Owner := ⟨p.id, p.label⟩

/-- The name that a provider puts in front of the path of its missing values. -/
def declaredName : Provider → Option String
  | .named _ _ name => some name
  | .property p => p.name
  | .custom _ form _ _ _ =>
    match form.kind with
    | .plain => none
    | .spy => some form.label
  | _ => none

def type : Provider → PayloadType
  | .fixed _ x => x.type
  | .undefined _ type _ => type
  | .changing _ type _ _ => type
  | .map _ _ _ type => type
  | .flatMap _ _ _ type => type
  | .orElse _ left _ => left.type
  | .withEffect _ inner _ => inner.type
  | .named _ inner _ => inner.type
  | .property p => p.type
  | .custom _ form _ _ _ => form.type

/-- The type that a provider tells of its payloads, where it is known before the evaluation. -/
def knownType : Provider → Option PayloadType
  | .flatMap _ _ _ _ => none
  | .orElse _ left _ => left.knownType
  | .withEffect _ inner _ => inner.knownType
  | .named _ inner _ => inner.knownType
  | .custom _ form _ _ _ =>
    match form.kind with
    | .plain => some form.type
    | .spy => none
  | p => some p.type

/-- The name of a leaf that makes calls. -/
def callText : Option String → String
  | some node => "output of " ++ node
  | none => "changing"

@[simp] theorem owner_id (p : Provider) : p.owner.id = p.id := rfl

@[simp] theorem owner_label (p : Provider) : p.owner.label = p.label := rfl

end Provider

end ProviderGraph
