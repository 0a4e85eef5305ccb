import ProviderGraph.Classification
import ProviderGraph.Property
import ProviderGraph.Table

/-!
# The machine

The state that evaluation works on: the scope stack of the current thread, the properties, the
counters of numbered calls, the registers of the session, and the events noted so far. New
identities come from one supply.
-/

namespace ProviderGraph

/-- Something kept in a register together with the type of its payloads. -/
structure Typed (α : Type) where
  type : PayloadType
  content : α

/-- The answer to a step of a session. -/
inductive Reply where
  /-- There is nothing to tell. -/
  | done
  | fault (f : Fault)
  /-- The step names something that does not exist. -/
  | refused (reason : String)
  | text (s : String)
  | flag (b : Bool)
  | depth (n : Nat)
  | payload (x : Option Payload)
  | optionalText (s : Option String)
  | producer (p : Producer)
  | value (v : Option Outcome)
  /-- A value with all that can be asked of it. -/
  | inspected (v : Outcome)
  /-- A classification, with the text of the provider where it is changing. -/
  | classification (c : Classification) (changing : Option String)
  | info (kind : String) (name : Option String)
  | replies (rs : List Reply)

/-- What a session notes while it runs. -/
inductive Event where
  | note (s : String)
  | reply (r : Reply)

/-- The registers of one thread, or of one step run by user code. -/
structure Locals where
  values : Table String (Typed Outcome)
  classifications : Table String (Typed Classification)
  producers : Table String Producer
  scopes : Table String Identity

def Locals.empty : Locals := ⟨[], [], [], []⟩

/-- The state of a session. -/
structure Machine where
  stack : ScopeStack
  /-- The depth limit that a new thread starts with. -/
  threadLimit : Nat
  locals : Locals
  /-- The next identity. -/
  supply : Identity
  properties : Table Identity Property
  /-- How many calls were made under each counter. -/
  counters : Table Identity Nat
  providerRegisters : Table String Provider
  propertyRegisters : Table String PropertyRef
  ownerRegisters : Table String Owner
  events : List Event

namespace Machine

/-- The machine of a fresh session. Events are kept with the latest first. -/
def fresh (limit : Nat) : Machine where
  stack := .empty limit
  threadLimit := limit
  locals := .empty
  supply := 0
  properties := []
  counters := []
  providerRegisters := []
  propertyRegisters := []
  ownerRegisters := []
  events := []

variable (m : Machine)

/-- The state of a property. A property that nothing was done to is blank. -/
def property (i : Identity) : Property := (m.properties.find? i).getD .blank

def setProperty (i : Identity) (s : Property) : Machine :=
  { m with properties := m.properties.set i s }

def count (i : Identity) : Nat := (m.counters.find? i).getD 0

def bump (i : Identity) : Machine := { m with counters := m.counters.set i (m.count i + 1) }

def note (e : Event) : Machine := { m with events := e :: m.events }

def keepProperty (name : String) (p : PropertyRef) : Machine :=
  { m with propertyRegisters := m.propertyRegisters.set name p }

def keepProvider (name : String) (p : Provider) : Machine :=
  { m with providerRegisters := m.providerRegisters.set name p }

def keepOwner (name : String) (o : Owner) : Machine :=
  { m with ownerRegisters := m.ownerRegisters.set name o }

/-- Keep a value, if a register is named for it. -/
def keepValue (name : Option String) (v : Typed Outcome) : Machine :=
  { m with locals.values := m.locals.values.setSome name v }

def dropValue (name : String) : Machine :=
  { m with locals.values := m.locals.values.erase name }

def keepClassification (name : Option String) (c : Typed Classification) : Machine :=
  { m with locals.classifications := m.locals.classifications.setSome name c }

def keepProducer (name : Option String) (p : Producer) : Machine :=
  { m with locals.producers := m.locals.producers.setSome name p }

def closeScope (name : String) : Machine :=
  match m.locals.scopes.find? name with
  | some i =>
    { m with stack := m.stack.leave i, locals.scopes := m.locals.scopes.erase name }
  | none => m

/-- Open a scope and keep it in a register. The scope kept there before is closed afterwards. -/
def openScope (name : String) (o : Owner) : Except Fault Machine := do
  let m := { m with stack := ← m.stack.enter o }.closeScope name
  return { m with locals.scopes := m.locals.scopes.set name o.id }

@[simp] theorem property_setProperty_self (i : Identity) (s : Property) :
    (m.setProperty i s).property i = s := by simp [property, setProperty]

theorem property_setProperty_of_ne {i j : Identity} (h : j ≠ i) (s : Property) :
    (m.setProperty i s).property j = m.property j := by
  simp [property, setProperty, Table.find?_set_of_ne _ _ _ _ h]

@[simp] theorem stack_setProperty (i : Identity) (s : Property) :
    (m.setProperty i s).stack = m.stack := rfl

@[simp] theorem stack_note (e : Event) : (m.note e).stack = m.stack := rfl

@[simp] theorem properties_note (e : Event) : (m.note e).properties = m.properties := rfl

@[simp] theorem stack_bump (i : Identity) : (m.bump i).stack = m.stack := rfl

@[simp] theorem properties_bump (i : Identity) : (m.bump i).properties = m.properties := rfl

@[simp] theorem stack_keepProperty (name : String) (p : PropertyRef) :
    (m.keepProperty name p).stack = m.stack := rfl

@[simp] theorem stack_keepProvider (name : String) (p : Provider) :
    (m.keepProvider name p).stack = m.stack := rfl

@[simp] theorem stack_keepValue (name : Option String) (v : Typed Outcome) :
    (m.keepValue name v).stack = m.stack := rfl

end Machine

end ProviderGraph
