import ProviderGraph.Evaluation.Classify
import ProviderGraph.Session.Provider
import ProviderGraph.Session.Value

/-!
# Requests to a classification register

What a session does with classifications themselves: it makes them, looks at them, and turns them
into values and providers.
-/

namespace ProviderGraph

/-- Keep a classification in a register, and tell it. -/
def keepClassification (name : String) (type : PayloadType) (c : Classification) : Eval Reply := do
  Eval.apply (.keepClassification (some name) ⟨type, c⟩)
  tellClassification c

def tellProvider (name : String) (p : Provider) : Eval String := do
  Eval.apply (.keepProvider name p)
  Ask.text p

def ClassificationRequest.answer (name : String) : ClassificationRequest → UserCode Reply
  | .fixed x => keepClassification name x.type (.fixed x none)
  | .missing type path => keepClassification name type (.missing path)
  | .ofValue register => do
    let v ← takeValue register
    keepClassification name v.type (.ofValue v.content)
  | .inspect => do tellClassification (← lookupClassification name).content
  | .toValue into => do
    let c ← lookupClassification name
    match c.content.toValue with
    | some v =>
      Eval.apply (.keepValue into ⟨c.type, v⟩)
      return .value (some v)
    | none => return .value none
  | .toProvider into => do
    let c ← lookupClassification name
    let p ← (c.content.toProvider c.type : Eval Provider)
    return .text (← tellProvider into p)
  | .changing into => do
    match (← lookupClassification name).content.changing? with
    | some p => return .optionalText (some (← tellProvider into p))
    | none => return .optionalText none

def addClassificationEffect (name : String) (e : Effect) : UserCode Reply := do
  let c ← lookupClassification name
  let d ← (c.content.addEffect e : Eval Classification)
  keepClassification name c.type d

end ProviderGraph
