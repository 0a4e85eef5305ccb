import ProviderGraph.Evaluation.Register

/-!
# Requests to the scope stack

What a session does with owners and scopes. A scope that could not be opened changes nothing.
-/

namespace ProviderGraph

/-- The identity of a new owner: that of the owner it shall be the same as, or one of its own. -/
def ownerIdentity : Option String → UserCode Identity
  | some other => do return (← lookupOwner other).id
  | none => Eval.identity

def ScopeRequest.answer : ScopeRequest → UserCode Reply
  | .declare owner label sameAs => do
    let i ← ownerIdentity sameAs
    Eval.apply (.keepOwner owner ⟨i, label⟩)
    return .text label
  | .enter owner into => do
    let o ← lookupOwner owner
    match ← (Eval.keepOpen into o : Eval (Except Fault Unit)) with
    | .ok () => return .done
    | .error f => throw (.fault f)
  | .leave register => do
    Eval.apply (.closeScope register)
    return .done
  | .isOpen owner => do
    let o ← lookupOwner owner
    return .flag ((← Eval.machine).stack.isOpen o.id)
  | .depth => do return .depth (← Eval.machine).stack.depth
  | .setLimit n => do
    Eval.apply (.setLimit n)
    return .done
  | .limit => do return .text (toString (← Eval.machine).stack.limit)

end ProviderGraph
