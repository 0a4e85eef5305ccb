import ProviderGraph.Proofs.Engine.Fuel

/-!
# Pure user code

User code that only computes gives the same result wherever it is called, and leaves the machine as
it is (`Action.Pure.engine_act`). A recipe that holds such code builds the same provider wherever it
is followed, but for the new identities.
-/

namespace ProviderGraph

/-! ### Actions -/

/-- An action that is a function of its payload and of the payload that is held. -/
inductive Action.Pure : Action → Prop where
  | compute (f : Payload → Except Failure (Option Payload)) : Pure (.compute f)
  | held : Pure .held
  | andThen {first second : Action} : Pure first → Pure second → Pure (.andThen first second)
  | both {left right : Action} : Pure left → Pure right → Pure (.both left right)
  | dispatch {f : Payload → Action} : (∀ x, Pure (f x)) → Pure (.dispatch f)
  | elsewhere {a : Action} : Pure a → Pure (.elsewhere a)

/-- The function that a pure action computes. -/
def Action.result (held : Option Payload) : Action → Payload → Except Failure (Option Payload)
  | .compute f, x => f x
  | .held, _ => .ok held
  | .andThen first second, x => do
    match ← first.result held x with
    | some y => second.result held y
    | none => return none
  | .both left right, x => do
    let y ← left.result held x
    let z ← right.result held x
    match y, z with
    | some y, some z => return y.add z
    | _, _ => return none
  | .dispatch f, x => (f x).result held x
  | .elsewhere a, x => a.result held x
  | _, _ => .ok none

/-- The code gives a result, whatever the machine, and leaves the machine as it is. -/
def UserCode.Computes {α : Type} (x : UserCode α) (r : Except Failure α) : Prop :=
  ∀ m, x.run.run engine m = some (r, m)

namespace UserCode.Computes

variable {α β : Type} {held : Option Payload}

theorem pure (a : α) : Computes (Pure.pure a) (.ok a) := fun _ => rfl

theorem bind {x : UserCode α} {r : Except Failure α} {f : α → UserCode β}
    {g : α → Except Failure β} (hx : Computes x r) (hf : ∀ a, Computes (f a) (g a)) :
    Computes (x >>= f) (r >>= g) := by
  intro m
  cases r with
  | ok a => exact (Eval.run_bind_ok (hx m) f).trans (hf a m)
  | error e => exact Eval.run_bind_error (hx m) f

/-- An action is asked for and runs by its rule. -/
theorem action {a : Action} {x : Payload} {r : Except Failure (Option Payload)}
    (h : Computes (evalAction a held x) r) : Computes (Ask.action a held x) r := by
  intro m
  refine (Eval.run_ask _ _ _).trans ?_
  rw [engine_eq_rule]
  exact h m

end UserCode.Computes

open UserCode (Computes)

/-- A pure action computes its function. -/
theorem Action.Pure.computes {a : Action} (h : a.Pure) (held : Option Payload) (x : Payload) :
    Computes (Ask.action a held x) (a.result held x) := by
  refine .action ?_
  induction h generalizing x with
  | compute f =>
    rw [evalAction, result]
    intro m
    cases f x <;> rfl
  | held => exact .pure _
  | andThen _ _ ihf ihs =>
    exact .bind (.action (ihf x)) fun
      | some y => .action (ihs y)
      | none => .pure none
  | both _ _ ihl ihr =>
    refine .bind (.action (ihl x)) fun y => .bind (.action (ihr x)) fun z => ?_
    cases y <;> cases z <;> exact .pure _
  | dispatch _ ih => exact .action (ih x x)
  | @elsewhere a _ ih =>
    intro m
    exact (Option.bind_eq_some_iff (f := fun r => _)).mpr
      ⟨_, Computes.action (ih x) (Eval.newThread m), rfl⟩

/-- A pure action does nothing else. -/
theorem Action.Pure.engine_act {a : Action} (h : a.Pure) (held : Option Payload) (x : Payload)
    (m : Machine) : engine (.act a held x) m = some (a.result held x, m) :=
  (Eval.run_ask _ _ _).symm.trans (h.computes held x m)

/-- Calls that give the same result each time. -/
def Calls.Steady (calls : Calls) (r : Except Failure (Option Payload)) : Prop :=
  ∀ n, (calls.code n).Pure ∧
    (calls.code n).result calls.held (.int (Int64.ofNat n)) = r

/-! ### Recipes -/

/-- A recipe whose code is pure. What the new providers are made of does not run while they are
built. -/
inductive Recipe.Pure : Recipe → Prop where
  | register (name : String) : Pure (.register name)
  | fixed (x : Payload) : Pure (.fixed x)
  | undefined (type : PayloadType) : Pure (.undefined type)
  | changing (type : PayloadType) (code : Nat → Action) : Pure (.changing type code)
  | produced (type : PayloadType) (node : Option String) (code : Nat → Action) :
    Pure (.produced type node code)
  | property (name : String) : Pure (.property name)
  | map {base : Recipe} (f : Action) (type : PayloadType) : Pure base → Pure (.map base f type)
  | flatMap {base : Recipe} (choice : Recipe) (type : PayloadType) :
    Pure base → Pure (.flatMap base choice type)
  | orElse {left right : Recipe} : Pure left → Pure right → Pure (.orElse left right)
  | withEffect {inner : Recipe} (e : Effect) : Pure inner → Pure (.withEffect inner e)
  | named {inner : Recipe} (name : String) : Pure inner → Pure (.named inner name)
  | result {a : Action} : a.Pure → Pure (.result a)
  | after {a : Action} {next : Recipe} : a.Pure → Pure next → Pure (.after a next)
  | dispatch {f : Payload → Recipe} : (∀ x, Pure (f x)) → Pure (.dispatch f)

/-- The provider that a recipe describes. All that is new in it has the identity that comes next. -/
def Recipe.plan (m : Machine) (held : Option Payload) : Recipe → Except Failure (Option Provider)
  | .register name => do return some (← m.providerRegisters.content "provider" name)
  | .fixed x => .ok (some (.fixed m.supply x))
  | .undefined type => .ok (some (.undefined m.supply type []))
  | .changing type code => .ok (some (.changing m.supply type none ⟨m.supply, code, held⟩))
  | .produced type node code => do
    let name ← nodeName node held
    return some (.changing m.supply type (some name) ⟨m.supply, code, held⟩)
  | .property name => do return some (.property (← m.propertyRegisters.content "property" name))
  | .map base f type => do
    return (← base.plan m held).map (.map m.supply · ⟨f, held⟩ type)
  | .flatMap base choice type => do
    return (← base.plan m held).map (.flatMap m.supply · choice type)
  | .orElse left right => do
    match ← left.plan m held with
    | some l => return (← right.plan m held).map (.orElse m.supply l)
    | none => return none
  | .withEffect inner e => do return (← inner.plan m held).map (.withEffect m.supply · e)
  | .named inner name => do return (← inner.plan m held).map (.named m.supply · name)
  | .custom _ _ _ => .ok none
  | .result a => do
    return (← a.result held (← heldPayload held)).map (.fixed m.supply)
  | .after a next => do
    match ← a.result held (← heldPayload held) with
    | some _ => next.plan m held
    | none => return none
  | .dispatch f => do (f (← heldPayload held)).plan m held

end ProviderGraph
