import ProviderGraph.Decimal.Shortest

/-!
# The text of a floating-point number

The shortest digits are written positionally for magnitudes from a hundred-thousandth up to 10 to
the 16th, always with a point, and otherwise with one digit before the point and a signed exponent.
-/

namespace ProviderGraph.Decimal

def zeros (n : Nat) : String := String.ofList (List.replicate n '0')

def exponentText (n : Int) : String :=
  (if 0 ≤ n then "e+" else "e-") ++ toString n.natAbs

/-- The layout of the digit string `d`, which is not zero, at exponent `k`. -/
def layout (d : Nat) (k : Int) : String :=
  let digits := Nat.toDigits 10 d
  let point : Int := digits.length + k
  if 0 ≤ k ∧ point ≤ 16 then String.ofList digits ++ zeros k.toNat ++ ".0"
  else if 0 < point ∧ point ≤ 16 then
    String.ofList (digits.take point.toNat) ++ "." ++ String.ofList (digits.drop point.toNat)
  else if -5 < point ∧ point ≤ 0 then "0." ++ zeros (-point).toNat ++ String.ofList digits
  else
    let fraction := digits.drop 1
    String.ofList (digits.take 1)
      ++ (if fraction.isEmpty then "" else "." ++ String.ofList fraction)
      ++ exponentText (point - 1)

/-- One more than the greatest fraction field. -/
def fractionSize : Nat := 0x10000000000000

/-- One more than the greatest exponent field. -/
def exponentSize : Nat := 0x800

def floatText (f : Float) : String :=
  let bits := f.toBits.toNat
  let sign := if bits / fractionSize / exponentSize = 1 then "-" else ""
  let exponent := bits / fractionSize % exponentSize
  let fraction := bits % fractionSize
  if exponent = 0 ∧ fraction = 0 then sign ++ "0.0"
  else
    let number :=
      if exponent = 0 then Rounded.ofBinary fraction (-1074) false
      else Rounded.ofBinary (fractionSize + fraction) ((exponent : Int) - 1075)
        (decide (fraction = 0) && decide (1 < exponent))
    let shortest := number.shortest
    let trimmed := trimZeros 17 shortest.1 shortest.2
    sign ++ layout trimmed.1 trimmed.2

end ProviderGraph.Decimal
