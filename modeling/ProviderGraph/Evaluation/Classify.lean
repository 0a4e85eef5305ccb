import ProviderGraph.Evaluation.Call

/-!
# Classification of providers

What is known of a provider ahead of execution. A combination over a changing provider is rebuilt
around what that provider turned into, a combination over a fixed one is carried out, and a side of
a fallback that can never supply the payload is dropped.
-/

namespace ProviderGraph

/-- Put an effect behind the one a classification carries. -/
def Classification.addEffect (e : Effect) : Classification → Eval Classification
  | .fixed x old => pure (.fixed x (SideEffect.composite old (some e)))
  | .changing p => do return .changing (.withEffect (← Eval.identity) p e)
  | .missing path => pure (.missing path)

def Classification.addName (name : String) : Classification → Eval Classification
  | .fixed x e => pure (.fixed x e)
  | .changing p => do return .changing (.named (← Eval.identity) p name)
  | .missing path => pure (.missing (name :: path))

def evalClassification (self : Provider) : Attempt Classification :=
  match self with
  | .fixed _ x => pure (.fixed x none)
  | .undefined _ _ path => pure (.missing path)
  | .changing _ type node calls => do
    return .changing (.changing (← Eval.identity) type node calls)
  | .map _ base f type => do
    match ← within self.owner (Ask.classification base) with
    | .missing path => return .missing path
    | .fixed x e =>
      match ← applyTransform self f x with
      | some y => return .fixed y (SideEffect.boundTo x e)
      | none => return .missing []
    | .changing q => return .changing (.map (← Eval.identity) q f type)
  | .flatMap _ base choice type => do
    match ← within self.owner (Ask.classification base) with
    | .missing path => return .missing path
    | .changing q => return .changing (.flatMap (← Eval.identity) q choice type)
    | .fixed x e =>
      let next ← chooseNext self choice type (.present x e)
      within self.owner (Ask.classification next)
  | .orElse _ left right => do
    let l ← within self.owner (Ask.classification left)
    if l.isFixed then return l
    else
      let r ← within self.owner (Ask.classification right)
      if l.isMissing then return r
      else if r.isMissing then return l
      else
        let p ← l.toProvider left.type
        let q ← r.toProvider right.type
        return .changing (.orElse (← Eval.identity) p q)
  | .withEffect _ inner e => do
    (← within self.owner (Ask.classification inner)).addEffect e
  | .named _ inner name => do
    (← within self.owner (Ask.classification inner)).addName name
  | .property p => do
    match (← Eval.property p.id).effective with
    | some q => within self.owner (Ask.classification q)
    | none => return .missing []
  | .custom _ form _ calls effect => do
    Eval.note (.note (form.label ++ ".etv"))
    let result ← nextCall calls
    match ← settle (pure form.label) result with
    | some x => return .fixed x effect
    | none => return .missing form.path

end ProviderGraph
