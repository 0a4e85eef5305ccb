import ProviderGraph.Proofs.Graph.PureCode

/-!
# What a provider asks of others

Where user code only computes, the rule of a provider boils down to an agenda: it asks other
providers one after the other, each in the scope of the provider, and puts the answers together. The
agenda knows neither scopes nor identities; what is new in it has the identity that comes next.
-/

namespace ProviderGraph

/-- What may be asked of a provider. -/
inductive Demand where
  | value (p : Provider)
  | presence (p : Provider)
  | producer (p : Provider)
  | classification (p : Provider)

namespace Demand

def provider : Demand → Provider
  | .value p | .presence p | .producer p | .classification p => p

@[reducible]
def Answer : Demand → Type
  | .value _ => Outcome
  | .presence _ => Bool
  | .producer _ => Producer
  | .classification _ => Classification

@[reducible]
def query (c : Reading) : Demand → Query
  | .value p => .ownValue p c
  | .presence p => .presence p c
  | .producer p => .producer p
  | .classification p => .classification p

end Demand

/-- What is left to ask, and what comes of it. -/
inductive Agenda (α : Type) where
  | done (r : Except Failure α)
  | ask (d : Demand) (next : d.Answer → Agenda α)

namespace Agenda

variable {α β : Type}

/-- One agenda and then another, if the first does not fail. -/
def bind : Agenda α → (α → Agenda β) → Agenda β
  | .done (.ok a), f => f a
  | .done (.error e), _ => .done (.error e)
  | .ask d next, f => .ask d fun a => (next a).bind f

instance : Monad Agenda where
  pure a := .done (.ok a)
  bind := bind

theorem bind_assoc {γ : Type} (x : Agenda α) (f : α → Agenda β) (g : β → Agenda γ) :
    x >>= f >>= g = x >>= fun a => f a >>= g := by
  induction x with
  | done r => cases r <;> rfl
  | ask d next ih => exact congrArg (Agenda.ask d) (funext ih)

theorem bind_pure (x : Agenda α) : x >>= pure = x := by
  induction x with
  | done r => cases r <;> rfl
  | ask d next ih => exact congrArg (Agenda.ask d) (funext ih)

def demand (d : Demand) : Agenda d.Answer := .ask d pure

/-- Ask for the value of a provider; its declared name stands in front of a missing path. -/
def askValue (p : Provider) : Agenda Outcome := do
  match ← demand (.value p), p.declaredName with
  | .missing path, some name => return .missing (name :: path)
  | v, _ => return v

/-- To ask for a value is to demand it and to put the declared name in front of its path. -/
theorem askValue_eq (p : Provider) :
    askValue p = demand (.value p) >>= fun v => pure (v.push p.declaredName) := by
  refine congrArg (demand (.value p) >>= ·) (funext fun v => ?_)
  cases v <;> cases p.declaredName <;> rfl

/-- The result of an agenda, when its demands are answered. A fault ends it. -/
def run (asked : (d : Demand) → Except Fault d.Answer) : Agenda α → Except Failure α
  | .done r => r
  | .ask d next =>
    match asked d with
    | .ok a => (next a).run asked
    | .error f => .error (.fault f)

/-- The result of an agenda, when its demands are answered as far as possible. -/
def run? (asked : (d : Demand) → Option (Except Fault d.Answer)) :
    Agenda α → Option (Except Failure α)
  | .done r => some r
  | .ask d next => (asked d).bind fun
    | .ok a => (next a).run? asked
    | .error f => some (.error (.fault f))

/-- Two agendas that follow one another are run one after the other. -/
theorem run_bind (asked : (d : Demand) → Except Fault d.Answer) (x : Agenda α)
    (f : α → Agenda β) : (x >>= f).run asked = x.run asked >>= fun a => (f a).run asked := by
  induction x with
  | done r => cases r <;> rfl
  | ask d next ih =>
    change (Agenda.ask d fun a => next a >>= f).run asked = _
    simp only [run]
    cases asked d with
    | ok a => exact ih a
    | error e => rfl

/-- A demand that is answered is gone past. -/
theorem run_ask_ok {asked : (d : Demand) → Except Fault d.Answer} {d : Demand}
    {next : d.Answer → Agenda α} {b : d.Answer} (h : asked d = .ok b) :
    (Agenda.ask d next).run asked = (next b).run asked := by
  rw [run, h]

/-- A demand that fails ends the agenda. -/
theorem run_ask_error {asked : (d : Demand) → Except Fault d.Answer} {d : Demand}
    {next : d.Answer → Agenda α} {f : Fault} (h : asked d = .error f) :
    (Agenda.ask d next).run asked = .error (.fault f) := by
  rw [run, h]

theorem run_demand (asked : (d : Demand) → Except Fault d.Answer) (d : Demand) :
    (demand d).run asked = (asked d).mapError .fault := by
  simp only [demand, run]
  cases asked d <;> rfl

/-- The result of an agenda as far as possible, and then what follows. -/
theorem run?_bind (asked : (d : Demand) → Option (Except Fault d.Answer)) (x : Agenda α)
    (f : α → Agenda β) :
    (x >>= f).run? asked = (x.run? asked).bind fun
      | .ok a => (f a).run? asked
      | .error e => some (.error e) := by
  induction x with
  | done r => cases r <;> rfl
  | ask d next ih =>
    change (Agenda.ask d fun a => next a >>= f).run? asked = _
    simp only [run?]
    cases asked d with
    | none => rfl
    | some r =>
      cases r with
      | ok a => exact ih a
      | error e => rfl

end Agenda

theorem map_eq_ok_iff {ε α β : Type} {r : Except ε α} {f : α → β} {b : β} :
    r.map f = .ok b ↔ ∃ a, r = .ok a ∧ f a = b := by
  cases r <;> simp [Except.map]

/-- The result of user code, where a rejection is attributed to the culprit. -/
def blame {α : Type} (culprit : String) : Except Failure α → Except Fault α
  | .ok a => .ok a
  | .error (.fault f) => .error f
  | .error (.rejected message) => .error (.transform culprit message)

section Blame

variable {α β : Type} (culprit : String)

/-- What is blamed on a culprit can be blamed part by part. -/
theorem blame_bind (r : Except Failure α) (f : α → Except Failure β) :
    blame culprit (r >>= f) = blame culprit r >>= fun a => blame culprit (f a) := by
  match r with
  | .ok a => rfl
  | .error (.fault f) => rfl
  | .error (.rejected message) => rfl

variable {culprit} in
/-- Blame makes no failure a success. -/
theorem blame_eq_ok {r : Except Failure α} {a : α} (h : blame culprit r = .ok a) : r = .ok a := by
  match r, h with
  | .ok _, h => exact congrArg _ (Except.ok.inj h)

/-- A fault passes without blame. -/
theorem blame_mapError (r : Except Fault α) : blame culprit (r.mapError .fault) = r := by
  cases r <;> rfl

/-- A demand fails with faults only, so that there is nothing to blame. -/
theorem blame_run_demand (asked : (d : Demand) → Except Fault d.Answer) (d : Demand) :
    blame culprit ((Agenda.demand d).run asked) = asked d := by
  rw [Agenda.run_demand, blame_mapError]

theorem blame_run_askValue (asked : (d : Demand) → Except Fault d.Answer) (p : Provider) :
    blame culprit ((Agenda.askValue p).run asked) =
      do return (← asked (.value p)).push p.declaredName := by
  rw [Agenda.askValue_eq, Agenda.run_bind, blame_bind, blame_run_demand]
  rfl

end Blame

/-! ### The agendas of providers -/

namespace Provider

variable (m : Machine)

/-- A provider with an effect, if there is one, and the provider itself otherwise. -/
def withEffect? (p : Provider) : Option Effect → Provider
  | some e => .withEffect m.supply p e
  | none => p

/-- The provider that a recipe gives for a payload, with an effect to follow. -/
def chosen (choice : Recipe) (type : PayloadType) (x : Payload) (e : Option Effect) :
    Except Failure Provider := do
  match ← choice.plan m (some x) with
  | some q => return q.withEffect? m e
  | none => return .undefined m.supply type []

def next (choice : Recipe) (type : PayloadType) : Outcome → Agenda Provider
  | .present x e => .done (chosen m choice type x (SideEffect.boundTo x e))
  | .missing _ => pure (.undefined m.supply type [])

open Agenda

/-- How a provider finds its value. -/
def valueAgenda : Provider → Agenda Outcome
  | .fixed _ x => pure (.present x none)
  | .undefined _ _ path => pure (.missing path)
  | .changing _ _ node calls =>
    let text := match node with
      | none => "changing"
      | some name => "output of " ++ name
    .done <| Except.mapError .fault <| blame text do
      return .ofOption (← (calls.code 0).result calls.held (.int 0))
  | .map _ base f _ => do
    match ← askValue base with
    | .missing path => return .missing path
    | .present x e =>
      let y ← .done (f.code.result f.held x)
      return (Value.ofOption y).withEffect (SideEffect.boundTo x e)
  | .flatMap _ base choice type => do
    match ← askValue base with
    | .missing path => return .missing path
    | .present x e => askValue (← next m choice type (.present x e))
  | .orElse _ left right => do
    match ← askValue left with
    | .present x e => return .present x e
    | .missing path =>
      match ← askValue right with
      | .present x e => return .present x e
      | .missing path' => return .missing (path ++ path')
  | .withEffect _ inner e => do return (← askValue inner).withEffect (some e)
  | .named _ inner _ => askValue inner
  | .property p =>
    match (m.property p.id).effective with
    | some q => askValue q
    | none => pure (.missing [])
  | .custom _ _ _ _ _ => .done (.error (.rejected ""))

/-- What a leaf that makes calls is blamed by is its name. -/
theorem valueAgenda_changing (i : Identity) (type : PayloadType) (node : Option String)
    (calls : Calls) :
    valueAgenda m (.changing i type node calls) =
      (.done <| Except.mapError .fault <| blame (callText node) do
        return .ofOption (← (calls.code 0).result calls.held (.int 0))) := by
  cases node <;> rfl

/-- The provider that presence and producers of a flat map go through. -/
def backed (base : Provider) (choice : Recipe) (type : PayloadType) : Agenda Provider := do
  next m choice type (← askValue base)

/-- How a provider finds out whether it has a payload. -/
def presenceAgenda (self : Provider) : Agenda Bool :=
  match self with
  | .fixed _ _ => pure true
  | .undefined _ _ _ => pure false
  | .changing _ _ (some _) _ => pure true
  | .changing _ _ none _ | .map _ _ _ _ => do return !(← valueAgenda m self).isMissing
  | .flatMap _ base choice type => do
    demand (.presence (← backed m base choice type))
  | .orElse _ left right => do
    if ← demand (.presence left) then return true else demand (.presence right)
  | .withEffect _ inner _ | .named _ inner _ => demand (.presence inner)
  | .property p =>
    match (m.property p.id).effective with
    | some q => demand (.presence q)
    | none => pure false
  | .custom _ _ _ _ _ => .done (.error (.rejected ""))

/-- How a provider finds its producers. -/
def producerAgenda : Provider → Agenda Producer
  | .fixed _ _ | .undefined _ _ _ => pure .none
  | .changing _ _ (some name) _ => pure (.node name)
  | .changing _ _ none _ => pure .unknown
  | .map _ base _ _ => demand (.producer base)
  | .flatMap _ base choice type => do
    demand (.producer (← backed m base choice type))
  | .orElse _ left right => do
    let l ← demand (.producer left)
    let r ← demand (.producer right)
    return l.plus r
  | .withEffect _ inner _ | .named _ inner _ => demand (.producer inner)
  | .property p =>
    let s := m.property p.id
    match s.frozenProducer, s.effective with
    | some frozen, _ => pure ((Producer.ofOption s.attached).plus frozen)
    | none, some q => do return (Producer.ofOption s.attached).plus (← demand (.producer q))
    | none, none => pure (Producer.ofOption s.attached)
  | .custom _ _ _ _ _ => .done (.error (.rejected ""))

/-- The classification with an effect behind the one it carries. -/
def withEffectOn (e : Effect) : Classification → Classification
  | .fixed x old => .fixed x (SideEffect.composite old (some e))
  | .changing p => .changing (.withEffect m.supply p e)
  | .missing path => .missing path

def nameOn (name : String) : Classification → Classification
  | .fixed x e => .fixed x e
  | .changing p => .changing (.named m.supply p name)
  | .missing path => .missing (name :: path)

/-- A provider that reproduces a classification. -/
def ofClassification (type : PayloadType) : Classification → Provider
  | .fixed x e => withEffect? m (.fixed m.supply x) e
  | .changing p => p
  | .missing path => .undefined m.supply type path

/-- How a provider is classified. -/
def classificationAgenda : Provider → Agenda Classification
  | .fixed _ x => pure (.fixed x none)
  | .undefined _ _ path => pure (.missing path)
  | .changing _ type node calls => pure (.changing (.changing m.supply type node calls))
  | .map _ base f type => do
    match ← demand (.classification base) with
    | .missing path => return .missing path
    | .fixed x e =>
      match ← .done (f.code.result f.held x) with
      | some y => return .fixed y (SideEffect.boundTo x e)
      | none => return .missing []
    | .changing q => return .changing (.map m.supply q f type)
  | .flatMap _ base choice type => do
    match ← demand (.classification base) with
    | .missing path => return .missing path
    | .changing q => return .changing (.flatMap m.supply q choice type)
    | .fixed x e =>
      demand (.classification (← .done (chosen m choice type x (SideEffect.boundTo x e))))
  | .orElse _ left right => do
    let l ← demand (.classification left)
    if l.isFixed then return l
    else
      let r ← demand (.classification right)
      if l.isMissing then return r
      else if r.isMissing then return l
      else return .changing (.orElse m.supply (ofClassification m left.type l)
        (ofClassification m right.type r))
  | .withEffect _ inner e => do return withEffectOn m e (← demand (.classification inner))
  | .named _ inner name => do return nameOn m name (← demand (.classification inner))
  | .property p =>
    match (m.property p.id).effective with
    | some q => demand (.classification q)
    | none => pure (.missing [])
  | .custom _ _ _ _ _ => .done (.error (.rejected ""))

end Provider

def Demand.agenda (m : Machine) : (d : Demand) → Agenda d.Answer
  | .value p => p.valueAgenda m
  | .presence p => p.presenceAgenda m
  | .producer p => p.producerAgenda m
  | .classification p => p.classificationAgenda m

end ProviderGraph
