import ProviderGraph.Names

/-!
# Producers

A producer tree says which work nodes must have run before a value can be read. Trees are joined
with empty sides dropped and unions flattened, and looked at through the nodes they name.
-/

namespace ProviderGraph

/-- What would produce a value. -/
inductive Producer where
  /-- No work is needed. -/
  | none
  /-- Work that cannot be described. -/
  | unknown
  /-- The named work node. -/
  | node (name : String)
  /-- Any of these. -/
  | union (parts : List Producer)

namespace Producer

/-- The parts of a tree seen as a union. -/
def parts : Producer → List Producer
  | .union ps => ps
  | p => [p]

/-- Join two trees. -/
def plus : Producer → Producer → Producer
  | .none, q => q
  | p, .none => p
  | p, q => .union (p.parts ++ q.parts)

@[simp] theorem none_plus (p : Producer) : plus .none p = p := by cases p <;> rfl

@[simp] theorem plus_none (p : Producer) : p.plus .none = p := by cases p <;> rfl

mutual
/-- The work nodes of a tree, in the order of their place in it. -/
def visit : Producer → List String
  | .none => []
  | .unknown => []
  | .node name => [name]
  | .union ps => visitAll ps

def visitAll : List Producer → List String
  | [] => []
  | p :: ps => p.visit ++ visitAll ps
end

mutual
/-- Whether a tree names a work node. -/
def isKnown : Producer → Bool
  | .none => false
  | .unknown => false
  | .node _ => true
  | .union ps => anyKnown ps

def anyKnown : List Producer → Bool
  | [] => false
  | p :: ps => p.isKnown || anyKnown ps
end

mutual
def same : Producer → Producer → Bool
  | .none, .none => true
  | .unknown, .unknown => true
  | .node a, .node b => a == b
  | .union ps, .union qs => sameAll ps qs
  | _, _ => false

def sameAll : List Producer → List Producer → Bool
  | [], [] => true
  | p :: ps, q :: qs => p.same q && sameAll ps qs
  | _, _ => false
end

/-- The distinct work nodes of a tree, in the order of their names. -/
def names (p : Producer) : List String := sortNames p.visit

/-- The tree that may name a node: an attached producer. -/
def ofOption : Option String → Producer
  | some name => .node name
  | Option.none => .none

end Producer

end ProviderGraph
