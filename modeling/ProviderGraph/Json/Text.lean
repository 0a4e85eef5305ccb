import ProviderGraph.Json.Fault

/-!
# JSON strings

Writing escapes a quote, a backslash and the characters below the space, and nothing else. Reading
accepts the escapes of the JSON grammar; a pair of surrogate escapes stands for one character, and
a surrogate alone for none.
-/

namespace ProviderGraph.Json

/-! ### Writing -/

/-- The hexadecimal digit of a number below sixteen, in lower case. -/
def hexDigit (n : Nat) : Char := Nat.digitChar n

/-- How a character is written inside a string. -/
def encodeChar (c : Char) : List Char :=
  if c = '"' then ['\\', '"']
  else if c = '\\' then ['\\', '\\']
  else if c = '\x08' then ['\\', 'b']
  else if c = '\x0c' then ['\\', 'f']
  else if c = '\n' then ['\\', 'n']
  else if c = '\r' then ['\\', 'r']
  else if c = '\t' then ['\\', 't']
  else if c.toNat < 0x20 then
    ['\\', 'u', '0', '0', hexDigit (c.toNat / 16), hexDigit (c.toNat % 16)]
  else [c]

def encode (s : String) : String :=
  String.ofList ('"' :: s.toList.flatMap encodeChar ++ ['"'])

/-! ### Reading -/

/-- The value of a hexadecimal digit. -/
def hexValue? (c : Char) : Option Nat :=
  if '0' ≤ c ∧ c ≤ '9' then some (c.toNat - '0'.toNat)
  else if 'a' ≤ c ∧ c ≤ 'f' then some (c.toNat - 'a'.toNat + 10)
  else if 'A' ≤ c ∧ c ≤ 'F' then some (c.toNat - 'A'.toNat + 10)
  else none

/-- The number of bytes that a list of characters takes in UTF-8. -/
def utf8Length : List Char → Nat
  | [] => 0
  | c :: cs => c.utf8Size + utf8Length cs

/-- The code unit of four hexadecimal digits. A text that ends within four bytes is cut off. -/
def readUnit (cs : List Char) : Except SyntaxFault (Nat × List Char) :=
  if utf8Length (cs.take 4) < 4 then .error .endInString
  else match cs with
    | a :: b :: c :: d :: rest =>
      match hexValue? a, hexValue? b, hexValue? c, hexValue? d with
      | some a, some b, some c, some d => .ok (((a * 16 + b) * 16 + c) * 16 + d, rest)
      | _, _, _, _ => .error .badEscape
    | _ => .error .badEscape

/-- The character of a hexadecimal escape, after its letter. -/
def readUnicode (cs : List Char) : Except SyntaxFault (Char × List Char) := do
  let (high, rest) ← readUnit cs
  if 0xdc00 ≤ high ∧ high ≤ 0xdfff then throw .loneSurrogate
  else if 0xd800 ≤ high ∧ high ≤ 0xdbff then
    match rest with
    | [] => throw .endInString
    | '\\' :: [] => throw .endInString
    | '\\' :: 'u' :: rest =>
      let (low, rest) ← readUnit rest
      if 0xdc00 ≤ low ∧ low ≤ 0xdfff then
        return (Char.ofNat ((high - 0xd800) * 0x400 + (low - 0xdc00) + 0x10000), rest)
      else throw .loneSurrogate
    | _ => throw .unfinishedSurrogate
  else return (Char.ofNat high, rest)

/-- The character of an escape, after its backslash. -/
def readEscape : List Char → Except SyntaxFault (Char × List Char)
  | [] => .error .endInString
  | '"' :: rest => .ok ('"', rest)
  | '\\' :: rest => .ok ('\\', rest)
  | '/' :: rest => .ok ('/', rest)
  | 'b' :: rest => .ok ('\x08', rest)
  | 'f' :: rest => .ok ('\x0c', rest)
  | 'n' :: rest => .ok ('\n', rest)
  | 'r' :: rest => .ok ('\r', rest)
  | 't' :: rest => .ok ('\t', rest)
  | 'u' :: rest => readUnicode rest
  | _ => .error .badEscape

/-- The characters up to the closing quote, and what follows it. Every step reads at least one
character, so the length of the input bounds the number of steps. -/
def readCharsWithin : Nat → List Char → Except SyntaxFault (List Char × List Char)
  | 0, _ => .error .endInString
  | _ + 1, [] => .error .endInString
  | _ + 1, '"' :: rest => .ok ([], rest)
  | steps + 1, '\\' :: rest => do
    let (c, rest) ← readEscape rest
    let (text, rest) ← readCharsWithin steps rest
    return (c :: text, rest)
  | steps + 1, c :: rest =>
    if c.toNat < 0x20 then .error .controlCharacter
    else do
      let (text, rest) ← readCharsWithin steps rest
      return (c :: text, rest)

/-- The text of a string, after its opening quote. -/
def readText (cs : List Char) : Except SyntaxFault (String × List Char) := do
  let (text, rest) ← readCharsWithin (cs.length + 1) cs
  return (String.ofList text, rest)

end ProviderGraph.Json
