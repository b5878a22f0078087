import Missive.Text.Reader

/-!
# Containers in text

The inside of arrays and objects, whose elements are read by a given reader.
-/

namespace Missive.Reader

variable {α : Type}

/-- The items of an array up to its closing bracket, at least one of them. There are at most as
    many as the fuel, for which the number of characters left always suffices. -/
def itemsLoop (item : Reader α) : (fuel : Nat) → Reader (List α)
  | 0, _ => .error .truncated
  | fuel + 1, s => do
    let (a, s) ← item s
    match skipBlanks s with
    | ']' :: rest => return ([a], rest)
    | ',' :: s =>
      let (as, rest) ← itemsLoop item fuel s
      return (a :: as, rest)
    | [] => .error .truncated
    | _ => .error .unexpected

/-- The items of an array, whose opening bracket has been read. -/
def items (item : Reader α) : Reader (List α) := fun s =>
  match skipBlanks s with
  | ']' :: rest => .ok ([], rest)
  | s => itemsLoop item (s.length + 1) s

/-- The members of an object up to its closing bracket, at least one of them. The fuel is as
    for `itemsLoop`. -/
def membersLoop (key : Reader String) (value : String → Reader α) :
    (fuel : Nat) → Reader (List (String × α))
  | 0, _ => .error .truncated
  | fuel + 1, s => do
    let (k, s) ← key s
    let ((), s) ← mark ':' s
    let (a, s) ← value k s
    match skipBlanks s with
    | '\x7d' :: rest => return ([(k, a)], rest)
    | ',' :: s =>
      let (as, rest) ← membersLoop key value fuel s
      return ((k, a) :: as, rest)
    | [] => .error .truncated
    | _ => .error .unexpected

/-- The members of an object, whose opening bracket has been read. The value of a member may be
    read as its key tells. -/
def members (key : Reader String) (value : String → Reader α) : Reader (List (String × α)) :=
  fun s =>
    match skipBlanks s with
    | '\x7d' :: rest => .ok ([], rest)
    | s => membersLoop key value (s.length + 1) s

end Missive.Reader
