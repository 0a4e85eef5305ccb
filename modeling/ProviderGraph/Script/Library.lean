import ProviderGraph.Script.Basic

/-!
# Ready-made user code

The actions, recipes and call lists that sessions are written with.
-/

namespace ProviderGraph

inductive Test where
  | equals (x : Payload)
  | below (n : Int64)
  /-- Whether the integer is even comes out as told. -/
  | even (b : Bool)

/-- Whether a payload passes a test. Only integers are below a number, even or odd. -/
def Test.holds : Test → Payload → Bool
  | .equals y, x => x == y
  | .below n, .int m => decide (m < n)
  | .even b, .int m => (m.toInt % 2 == 0) == b
  | _, _ => false

namespace Action

/-- An action that always gives a payload. -/
def total (f : Payload → Payload) : Action := .compute fun x => .ok (some (f x))

/-- An action that is defined on some payloads. -/
def defined (f : Payload → Option Payload) : Action := .compute fun x => .ok (f x)

def id : Action := total fun x => x

def const (y : Payload) : Action := total fun _ => y

def nothing : Action := .compute fun _ => .ok none

def fail (message : String) : Action := .compute fun _ => .error (.rejected message)

def add (n : Int64) : Action := defined (·.add (.int n))

def mul (n : Int64) : Action :=
  defined fun
    | .int m => some (.int (m * n))
    | _ => none

def append (s : String) : Action := defined (·.add (.str s))

def push (n : Int64) : Action := defined (·.add (.list [n]))

def length : Action := defined fun x => x.length?.map fun n => .int (Int64.ofNat n)

def printed : Action := total fun x => .str x.text

def ifThenElse (t : Test) (yes no : Action) : Action :=
  .dispatch fun x => if t.holds x then yes else no

def sequence : List Action → Action
  | [] => id
  | a :: as => .andThen a (sequence as)

/-- The calls of a list: the `n`-th element, or the last one past the end. -/
def calls (as : List Action) (n : Nat) : Action := as.getD n (as.getLastD nothing)

end Action

namespace Recipe

def orElseValue (left : Recipe) (x : Payload) : Recipe := .orElse left (.fixed x)

def withEffect? (inner : Recipe) : Option (SideEffect Action) → Recipe
  | some e => .withEffect inner e
  | none => inner

def nothing : Recipe := .result .nothing

def fail (message : String) : Recipe := .result (.fail message)

def ifThenElse (t : Test) (yes no : Recipe) : Recipe :=
  .dispatch fun x => if t.holds x then yes else no

end Recipe

end ProviderGraph
