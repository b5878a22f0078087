/-!
# Readers

A *reader* takes the characters that are left of a text and gives a result with the characters
after it, or a fault: the text ends where more is needed, or a character stands where it cannot.
Text is read from left to right, so the first fault is the one that is reported.
-/

namespace Missive

/-- Why a text cannot be read. -/
inductive TextFault where
  /-- The text ends where more is needed. -/
  | truncated
  /-- A character, or a value, is not allowed where it stands. -/
  | unexpected
deriving DecidableEq

/-- A reader of a part of a text. -/
abbrev Reader (α : Type) := List Char → Except TextFault (α × List Char)

namespace Reader

variable {α β : Type}

/-- Applies a function to what a reader gives. -/
def map (f : α → β) (r : Reader α) : Reader β := fun s => do
  let (a, rest) ← r s
  return (f a, rest)

/-- Allows nothing. -/
def refuse : Reader α := fun _ => .error .unexpected

/-- The characters that may stand between the parts of a text. -/
def isBlank (c : Char) : Bool := c = ' ' || c = '\t' || c = '\n' || c = '\r'

/-- What follows the blanks. -/
def skipBlanks (s : List Char) : List Char := s.dropWhile isBlank

/-- Reads the given characters. -/
def word : List Char → Reader Unit
  | [], s => .ok ((), s)
  | _ :: _, [] => .error .truncated
  | w :: ws, c :: s => if c = w then word ws s else .error .unexpected

/-- Reads the given character, behind blanks. -/
def mark (c : Char) : Reader Unit := fun s => word [c] (skipBlanks s)

/-- Reads a whole text: only blanks may follow what the reader takes. -/
def whole (r : Reader α) (text : String) : Except TextFault α := do
  let (a, rest) ← r text.toList
  if (skipBlanks rest).isEmpty then return a else .error .unexpected

end Reader

end Missive
