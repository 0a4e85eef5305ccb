import ProviderGraph.Evaluation.Act

/-!
# Building providers

The rule for each kind of recipe. Parts are built in the order in which they are read: the base of
a transform before the transform, left before right. A part that builds nothing, or fails, does so
for the whole.
-/

namespace ProviderGraph

mutual
/-- The producer tree that a term stands for. Registers are those of the current thread. -/
def ProducerTerm.tree (registers : Table String Producer) : ProducerTerm → Producer
  | .none => .none
  | .unknown => .unknown
  | .node name => .node name
  | .union parts => .union (trees registers parts)
  | .plus parts => (trees registers parts).foldl Producer.plus .none
  | .register name => (registers.find? name).getD .none

def ProducerTerm.trees (registers : Table String Producer) : List ProducerTerm → List Producer
  | [] => []
  | t :: ts => t.tree registers :: trees registers ts
end

def heldPayload : Option Payload → Except Failure Payload
  | some x => .ok x
  | none => .error (.rejected "nothing is held")

def nodeName (node : Option String) (held : Option Payload) : Except Failure String :=
  match node, held with
  | some name, _ => .ok name
  | none, some (.str name) => .ok name
  | none, _ => .error (.rejected "no text is held")

/-- Build a part, and go on with what it builds. -/
def withPart (r : Recipe) (held : Option Payload) (next : Provider → UserCode Provider) :
    UserCode (Option Provider) := do
  match ← Ask.build r held with
  | some p => some <$> next p
  | none => return none

/-- Numbered calls with a counter of their own. -/
def freshCalls (code : Nat → Action) (held : Option Payload) : Eval Calls := do
  return ⟨← Eval.identity, code, held⟩

def evalRecipe (r : Recipe) (held : Option Payload) : UserCode (Option Provider) :=
  match r with
  | .register name => some <$> lookupProvider name
  | .fixed x => do return some (← freshFixed x)
  | .undefined type => do return some (← freshUndefined type [])
  | .changing type code => do
    return some (.changing (← Eval.identity) type none (← freshCalls code held))
  | .produced type node code => do
    let name ← ofExcept (nodeName node held)
    return some (.changing (← Eval.identity) type (some name) (← freshCalls code held))
  | .property name => do return some (.property (← lookupProperty name))
  | .map base f type => withPart base held fun p => do
    return .map (← Eval.identity) p ⟨f, held⟩ type
  | .flatMap base choice type => withPart base held fun p => do
    return .flatMap (← Eval.identity) p choice type
  | .orElse left right => do
    match ← Ask.build left held with
    | some l => withPart right held fun r => do return .orElse (← Eval.identity) l r
    | none => return none
  | .withEffect inner e => withPart inner held fun p => do
    return .withEffect (← Eval.identity) p e
  | .named inner name => withPart inner held fun p => do
    return .named (← Eval.identity) p name
  | .custom form code effect => do
    let tree := form.producer.tree (← Eval.machine).locals.producers
    return some (.custom (← Eval.identity) form tree (← freshCalls code held) effect)
  | .result a => do
    match ← Ask.action a held (← ofExcept (heldPayload held)) with
    | some y => return some (← freshFixed y)
    | none => return none
  | .after a next => do
    match ← Ask.action a held (← ofExcept (heldPayload held)) with
    | some _ => Ask.build next held
    | none => return none
  | .dispatch f => do Ask.build (f (← ofExcept (heldPayload held))) held

end ProviderGraph
