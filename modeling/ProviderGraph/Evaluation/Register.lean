import ProviderGraph.Evaluation.Basic

/-!
# Registers

Sessions and user code name what they work on by registers. Providers, properties and owners are
shared by all threads; values, classifications, producers and scopes belong to one thread.
-/

namespace ProviderGraph

/-- The content of a register. User code that names an empty one is rejected. -/
def Table.content {α : Type} (t : Table String α) (what name : String) : Except Failure α :=
  match t.find? name with
  | some a => .ok a
  | none => .error (.rejected ("there is no " ++ what ++ " " ++ name))

def lookup {α : Type} (what : String) (registers : Machine → Table String α) (name : String) :
    UserCode α := do
  ofExcept ((registers (← Eval.machine)).content what name)

def lookupProperty (name : String) : UserCode PropertyRef :=
  lookup "property" (·.propertyRegisters) name

def lookupProvider (name : String) : UserCode Provider :=
  lookup "provider" (·.providerRegisters) name

def lookupOwner (name : String) : UserCode Owner := lookup "owner" (·.ownerRegisters) name

def lookupValue (name : String) : UserCode (Typed Outcome) := lookup "value" (·.locals.values) name

def lookupClassification (name : String) : UserCode (Typed Classification) :=
  lookup "classification" (·.locals.classifications) name

end ProviderGraph
