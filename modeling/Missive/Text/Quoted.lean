import Missive.Text.Reader

/-!
# Strings in quotes

A string is written verbatim but for the quote, the backslash and the characters below the blank,
which are escaped. Every character may be read as an escape of its code, those beyond the first
plane as a pair of code units.
-/

namespace Missive

/-! ## Writing -/

namespace Text

/-- A character of a string as it is written. -/
def escape (c : Char) : List Char :=
  if c = '"' then ['\\', '"']
  else if c = '\\' then ['\\', '\\']
  else if c = '\x08' then ['\\', 'b']
  else if c = '\t' then ['\\', 't']
  else if c = '\n' then ['\\', 'n']
  else if c = '\x0c' then ['\\', 'f']
  else if c = '\r' then ['\\', 'r']
  else if c < ' ' then
    ['\\', 'u', '0', '0', Nat.digitChar (c.toNat / 16), Nat.digitChar (c.toNat % 16)]
  else [c]

/-- A string in quotes. -/
def quoted (s : String) : List Char := '"' :: s.toList.flatMap escape ++ ['"']

end Text

/-! ## Reading -/

namespace Reader

/-- The value of a hexadecimal digit, in upper or lower case. -/
def hexValue? (c : Char) : Option Nat :=
  if '0' ≤ c ∧ c ≤ '9' then some (c.toNat - '0'.toNat)
  else if 'a' ≤ c ∧ c ≤ 'f' then some (c.toNat - 'a'.toNat + 10)
  else if 'A' ≤ c ∧ c ≤ 'F' then some (c.toNat - 'A'.toNat + 10)
  else none

/-- The value of four hexadecimal digits. -/
def hex4? (a b c d : Char) : Option Nat := do
  return (((← hexValue? a) * 16 + (← hexValue? b)) * 16 + (← hexValue? c)) * 16 + (← hexValue? d)

/-- How many bytes the characters take in UTF-8. -/
def byteLength (s : List Char) : Nat := s.foldl (fun n c => n + c.utf8Size) 0

/-- The code unit of four hexadecimal digits. With fewer than four bytes left the text is
    truncated, whatever they are. -/
def codeUnit (s : List Char) : Except TextFault Nat :=
  match s with
  | a :: b :: c :: d :: _ =>
    match hex4? a b c d with
    | some n => .ok n
    | none => .error .unexpected
  | _ => if byteLength s < 4 then .error .truncated else .error .unexpected

/-- Whether the code unit is the first of a pair. -/
def isLeading (n : Nat) : Bool := 0xD800 ≤ n && n ≤ 0xDBFF

/-- Whether the code unit is the second of a pair. -/
def isTrailing (n : Nat) : Bool := 0xDC00 ≤ n && n ≤ 0xDFFF

/-- The second code unit of a pair, with the backslash and the letter before it. -/
def trailingUnit (s : List Char) : Except TextFault Nat := do
  let ((), s) ← word ['\\', 'u'] s
  let n ← codeUnit s
  if isTrailing n then return n else .error .unexpected

/-- The character of a code unit, or of the pair that it starts, and how many characters its
    escape takes behind the backslash. -/
def pairedUnit (n : Nat) (rest : List Char) : Except TextFault (Char × Nat) := do
  if isTrailing n then .error .unexpected
  else if isLeading n then
    let m ← trailingUnit rest
    return (.ofNat (0x10000 + (n - 0xD800) * 0x400 + (m - 0xDC00)), 11)
  else return (.ofNat n, 5)

/-- As `pairedUnit`, where the code unit need not be part of a character. -/
def looseUnit (n : Nat) (_rest : List Char) : Except TextFault (Char × Nat) := .ok (.ofNat n, 5)

/-- The character of an escape of one letter. -/
def simpleEscape? (c : Char) : Option Char :=
  if c = '"' ∨ c = '\\' ∨ c = '/' then some c
  else if c = 'b' then some '\x08'
  else if c = 'f' then some '\x0c'
  else if c = 'n' then some '\n'
  else if c = 'r' then some '\r'
  else if c = 't' then some '\t'
  else none

/-- The character of an escape, whose backslash has been read, and how many characters the rest
    of the escape takes. -/
def escape (unit : Nat → List Char → Except TextFault (Char × Nat)) (s : List Char) :
    Except TextFault (Char × Nat) :=
  match s with
  | [] => .error .truncated
  | c :: rest =>
    if c = 'u' then do
      let n ← codeUnit rest
      unit n (rest.drop 4)
    else
      match simpleEscape? c with
      | some d => .ok (d, 1)
      | none => .error .unexpected

/-- The characters of a string, whose opening quote has been read. The first `n` of the
    characters left belong to an escape and are passed over. -/
def stringBody (unit : Nat → List Char → Except TextFault (Char × Nat)) :
    (n : Nat) → Reader (List Char)
  | _, [] => .error .truncated
  | n + 1, _ :: s => stringBody unit n s
  | 0, c :: s =>
    if c = '"' then .ok ([], s)
    else if c = '\\' then do
      let (d, n) ← escape unit s
      let (ds, rest) ← stringBody unit n s
      return (d :: ds, rest)
    else if c < ' ' then .error .unexpected
    else do
      let (cs, rest) ← stringBody unit 0 s
      return (c :: cs, rest)

/-- A string in quotes, behind blanks. -/
def quoted : Reader String := fun s => do
  let ((), s) ← mark '"' s
  let (cs, rest) ← stringBody pairedUnit 0 s
  return (.ofList cs, rest)

/-- As `quoted`, where the code units of escapes need not form characters. -/
def looseQuoted : Reader String := fun s => do
  let ((), s) ← mark '"' s
  let (cs, rest) ← stringBody looseUnit 0 s
  return (.ofList cs, rest)

end Reader

end Missive
