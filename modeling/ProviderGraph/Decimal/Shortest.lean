/-!
# Shortest decimals

A binary floating-point number stands for the interval of reals that round to it. Its shortest
decimal is the one with the fewest digits in that interval, and among those the nearest to the
number; of two equally near ones it is the even one. All arithmetic is on natural numbers: the
number is `num / den`, and the interval reaches `below / den` down and `above / den` up, its ends
included or not.
-/

namespace ProviderGraph.Decimal

/-- A positive binary number with the interval of reals that round to it. -/
structure Rounded where
  num : Nat
  den : Nat
  below : Nat
  above : Nat
  closed : Bool

/-- The double `m * 2 ^ q`, where `m` is not zero. The gap below is half as wide when `m` is the
least of its binade and the binade below has the same count of numbers. -/
def Rounded.ofBinary (m : Nat) (q : Int) (narrow : Bool) : Rounded where
  num := 4 * m * Nat.pow 2 q.toNat
  den := 4 * Nat.pow 2 (-q).toNat
  below := (if narrow then 1 else 2) * Nat.pow 2 q.toNat
  above := 2 * Nat.pow 2 q.toNat
  closed := m % 2 == 0

/-- Whether the decimal `d * 10 ^ k` rounds to the number. -/
def Rounded.accepts (r : Rounded) (d : Nat) (k : Int) : Bool :=
  let x := d * r.den * Nat.pow 10 k.toNat
  let low := (r.num - r.below) * Nat.pow 10 (-k).toNat
  let high := (r.num + r.above) * Nat.pow 10 (-k).toNat
  if r.closed then decide (low ≤ x) && decide (x ≤ high) else decide (low < x) && decide (x < high)

/-- The digit strings next to the number on the grid of step `10 ^ k`, the nearer one first, and the
even one where both are equally near. -/
def Rounded.neighbours (r : Rounded) (k : Int) : List Nat :=
  let n := r.num * Nat.pow 10 (-k).toNat
  let d := r.den * Nat.pow 10 k.toNat
  let floor := n / d
  if 2 * (n % d) < d ∨ (2 * (n % d) = d ∧ floor % 2 = 0) then [floor, floor + 1]
  else [floor + 1, floor]

/-- The number of decimal digits before the point, zero or less for a number below one. -/
def Rounded.magnitude (r : Rounded) : Int :=
  if r.num ≥ r.den then ((Nat.toDigits 10 (r.num / r.den)).length : Int)
  else 1 - ((Nat.toDigits 10 ((r.den + r.num - 1) / r.num - 1)).length : Int)

/-- The first digit string, by increasing count of digits, that rounds to the number. -/
def Rounded.search (r : Rounded) (magnitude : Int) : Nat → Nat → Nat × Int
  | 0, digits => ((r.neighbours (magnitude - digits)).headD 0, magnitude - digits)
  | tries + 1, digits =>
    let k := magnitude - digits
    match (r.neighbours k).find? (r.accepts · k) with
    | some d => (d, k)
    | none => r.search magnitude tries (digits + 1)

/-- The digits and the exponent of the shortest decimal. -/
def Rounded.shortest (r : Rounded) : Nat × Int := r.search r.magnitude 17 1

/-- Move the zeros at the end of a digit string into the exponent. -/
def trimZeros : Nat → Nat → Int → Nat × Int
  | 0, d, k => (d, k)
  | tries + 1, d, k => if d ≠ 0 ∧ d % 10 = 0 then trimZeros tries (d / 10) (k + 1) else (d, k)

end ProviderGraph.Decimal
