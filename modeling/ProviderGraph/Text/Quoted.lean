import ProviderGraph.Text.Combining
import ProviderGraph.Text.Unprintable

/-!
# Quoted text

The quoted form of a text stands between double quotes. A quote, a backslash and the four named
control characters are escaped by a sign of their own; any other character that has no visible
form, or that would attach to its neighbour, is written by its code point in hexadecimal; all else
stands as it is.
-/

namespace ProviderGraph.Text

/-- The lower-case hexadecimal digits of a number, without leading zeros. -/
def hexDigits (n : Nat) : List Char := Nat.toDigits 16 n

/-- How a character is written inside a quoted text. -/
def quoteChar (c : Char) : List Char :=
  if c = '\x00' then ['\\', '0']
  else if c = '\t' then ['\\', 't']
  else if c = '\r' then ['\\', 'r']
  else if c = '\n' then ['\\', 'n']
  else if c = '"' then ['\\', '"']
  else if c = '\\' then ['\\', '\\']
  else if isPrintable c && !isCombining c then [c]
  else ['\\', 'u', '\x7b'] ++ hexDigits c.toNat ++ ['\x7d']

def quoted (s : String) : String :=
  String.ofList ('"' :: s.toList.flatMap quoteChar ++ ['"'])

end ProviderGraph.Text
