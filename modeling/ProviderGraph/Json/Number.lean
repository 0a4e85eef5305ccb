import ProviderGraph.Json.Fault

/-!
# JSON numbers

An integer literal that fits 64 bits is read exactly. Any other number, one with a fraction or an
exponent, a negative zero and an integer beyond 64 bits, is read as a floating-point number: its
first digits as an integer, scaled by a power of ten.
-/

namespace ProviderGraph.Json

/-- What a number literal denotes. -/
inductive Numeral where
  | natural (n : Nat)
  | negative (n : Int)
  | real (f : Float)

/-- The largest 64-bit natural number. -/
def maxNatural : Nat := 0xffffffffffffffff

def digitValue (c : Char) : Nat := c.toNat - '0'.toNat

def digitRun (cs : List Char) : List Char := cs.takeWhile Char.isDigit

/-- What follows the digits at the front of a text. -/
def afterDigits (cs : List Char) : List Char := cs.dropWhile Char.isDigit

/-- Append digits to a number as long as it fits 64 bits: the number and the digits left over. -/
def absorb : Nat → List Char → Nat × List Char
  | n, [] => (n, [])
  | n, c :: cs =>
    if n * 10 + digitValue c ≤ maxNatural then absorb (n * 10 + digitValue c) cs else (n, c :: cs)

/-! ### Scaling -/

/-- The power of ten nearest to `10 ^ n`. -/
def powerOfTen (n : Nat) : Float := Float.ofScientific 1 false n

/-- `f` times a power of ten, in steps of at most `10 ^ 308`; `none` when the result is infinite. -/
def scaleWithin : Nat → Float → Int → Option Float
  | 0, f, _ => some f
  | steps + 1, f, exponent =>
    if exponent.natAbs ≤ 308 then
      if 0 ≤ exponent then
        let scaled := f * powerOfTen exponent.natAbs
        if scaled.isInf then none else some scaled
      else some (f / powerOfTen exponent.natAbs)
    else if f == 0.0 then some f
    else if 0 ≤ exponent then none
    else scaleWithin steps (f / powerOfTen 308) (exponent + 308)

/-- The floating-point number with the given sign, digits and decimal exponent. -/
def scale (negative : Bool) (significand : Nat) (exponent : Int) : Except SyntaxFault Numeral :=
  match scaleWithin (exponent.natAbs / 308 + 2) significand.toUInt64.toFloat exponent with
  | some f => .ok (.real (if negative then -f else f))
  | none => .error .numberOutOfRange

/-! ### The literal -/

/-- The largest exponent that is told apart from infinity, a 31-bit number. -/
def maxExponent : Nat := 0x7fffffff

/-- An exponent, after its letter. -/
def readExponent (negative : Bool) (significand : Nat) (start : Int) (cs : List Char) :
    Except SyntaxFault (Numeral × List Char) := do
  let (down, digits) := match cs with
    | '+' :: rest => (false, rest)
    | '-' :: rest => (true, rest)
    | _ => (false, cs)
  match digits with
  | [] => throw .endInValue
  | c :: _ =>
    if c.isDigit then
      let exponent := (digitRun digits).foldl (fun n c => n * 10 + digitValue c) 0
      if maxExponent < exponent then
        if significand ≠ 0 ∧ ¬ down then throw .numberOutOfRange
        else return (.real (if negative then -0.0 else 0.0), afterDigits digits)
      else
        let total := if down then start - exponent else start + exponent
        return (← scale negative significand total, afterDigits digits)
    else throw .badNumber

/-- The end of a number with a fraction: an exponent or nothing. -/
def readScaled (negative : Bool) (significand : Nat) (exponent : Int) (cs : List Char) :
    Except SyntaxFault (Numeral × List Char) :=
  match cs with
  | 'e' :: rest | 'E' :: rest => readExponent negative significand exponent rest
  | _ => do return (← scale negative significand exponent, cs)

/-- A fraction, after its point. Digits that no longer fit are ignored. -/
def readFraction (negative : Bool) (significand : Nat) (exponent : Int) (cs : List Char) :
    Except SyntaxFault (Numeral × List Char) :=
  match cs with
  | [] => .error .endInValue
  | c :: _ =>
    if c.isDigit then
      let digits := digitRun cs
      let (significand, ignored) := absorb significand digits
      readScaled negative significand (exponent - (digits.length - ignored.length)) (afterDigits cs)
    else .error .badNumber

/-- The magnitude of the least 64-bit integer. -/
def leastMagnitude : Nat := 0x8000000000000000

/-- An integer without fraction or exponent. -/
def integer (negative : Bool) (n : Nat) : Numeral :=
  if negative then
    if n = 0 ∨ leastMagnitude < n then .real (-n.toUInt64.toFloat) else .negative (-n)
  else .natural n

/-- A number literal, after its sign. -/
def readNumeral (negative : Bool) (cs : List Char) : Except SyntaxFault (Numeral × List Char) :=
  match cs with
  | [] => .error .endInValue
  | c :: rest =>
    if ¬ c.isDigit then .error .badNumber
    else if c = '0' ∧ (rest.headD ' ').isDigit then .error .badNumber
    else
      let (significand, excess) := absorb 0 (digitRun cs)
      match afterDigits cs with
      | '.' :: rest => readFraction negative significand excess.length rest
      | 'e' :: rest | 'E' :: rest => readExponent negative significand excess.length rest
      | rest =>
        if excess.isEmpty then .ok (integer negative significand, rest)
        else do return (← scale negative significand excess.length, rest)

end ProviderGraph.Json
