import Serie.Lib.Decimal
import Serie.Lib.Preorder
import Serie.Model.Record
import Mathlib.Data.List.AList
import Mathlib.Data.List.DropRight

/-! # The Python prototype

`tokenx`, `tre_buil` and `tre_sho` of the prototype. A `str` that holds ASCII characters only is the
list of these characters, a `dict` the list of its items in the order of insertion, in which no key
is repeated. A call that raises an exception has no result (`none`). -/

namespace Serie.Model.Proto

open Serie.Lib.CText Serie.Lib.Preorder Serie.Model.Record

/-! ### Strings and numbers -/

/-- `str.isspace`, of an ASCII character. -/
def isBlank (b : Byte) : Bool := b = 32 ∨ (9 ≤ b ∧ b ≤ 13) ∨ (28 ≤ b ∧ b ≤ 31)

/-- `x.split()`: the runs of characters that are no blanks. -/
def pySplit (x : List Byte) : List (List Byte) := (x.splitOnP isBlank).filter (· ≠ [])

/-- `x[a:b]`. -/
def pySlice (x : List Byte) (a b : ℕ) : List Byte := (x.take b).drop a

/-- The number after the digits read so far, one underscore being allowed between two digits. -/
def intDigits : ℕ → List Byte → Option ℕ
  | v, [] => some v
  | v, b :: x =>
    if isDigit b then intDigits (10 * v + (b.toNat - 48)) x
    else if b = ch '_' ∧ isDigit (deref x) then intDigits v x
    else none

/-- The number behind the sign: it begins with a digit. -/
def intAbs (x : List Byte) : Option ℕ := if isDigit (deref x) then intDigits 0 x else none

/-- `int(x)`: a sign and the blanks of C around the number are allowed, anything else raises
`ValueError`. -/
def pyInt (x : List Byte) : Option ℤ :=
  let y := (x.dropWhile isSpace).rdropWhile isSpace
  if deref y = ch '-' then (intAbs (y.drop 1)).map fun v : ℕ => -(v : ℤ)
  else if deref y = ch '+' then (intAbs (y.drop 1)).map Int.ofNat
  else (intAbs y).map Int.ofNat

/-! ### `tokenx` -/

/-- The loop of `tokenx` from index `i` on: the final `a` and `b`. As long as no `)` was met, `b` is
not bound. -/
def tokenxLoop : ℕ → ℕ → Option ℕ → List Byte → ℕ × Option ℕ
  | _, a, b, [] => (a, b)
  | i, a, b, val :: x =>
    tokenxLoop (i + 1) (if val = ch '(' then i + 1 else a) (if val = ch ')' then some i else b) x

/-- `tokenx`. Reading the unbound `b` raises `UnboundLocalError`. -/
def tokenx (x : List Byte) : Option (List (List Byte)) :=
  match tokenxLoop 0 0 none x with
  | (_, none) => none
  | (a, some b) => some (pySlice x a b :: (pySplit (x.drop (b + 2))).take 2)

/-! ### The tree -/

/-- `processes`: what `tokenx` returned for each pid. -/
abbrev Processes := AList fun _ : Pid => List (List Byte)

/-- The parent that an entry of `processes` records, if the entry is a name, a state and a
number. -/
def recordedPpid : List (List Byte) → Option ℤ
  | [_, _, ppid] => pyInt ppid
  | _ => none

/-- `childr`: the children of each parent. -/
abbrev Childr := AList fun _ : ℤ => List Pid

/-- `childr.get(pid, [])`. -/
def Childr.of (childr : Childr) (pid : ℤ) : List Pid := (childr.lookup pid).getD []

/-- The loop of `tre_buil`. Unpacking an entry raises `ValueError` unless it has three parts. -/
def treBuilLoop : Childr → List (Σ _ : Pid, List (List Byte)) → Option Childr
  | childr, [] => some childr
  | childr, ⟨pid, info⟩ :: items =>
    match recordedPpid info with
    | none => none
    | some parent => treBuilLoop (childr.insert parent (childr.of parent ++ [pid])) items

/-- `tre_buil`. -/
def treBuil (processes : Processes) : Option Childr := treBuilLoop ∅ processes.entries

/-- A line that `tre_sho` prints. -/
structure Line where
  lev : ℕ
  pid : Pid
  name : List Byte
deriving DecidableEq, Repr

/-- The text of the line. -/
def Line.text (l : Line) : List Byte :=
  List.replicate l.lev (ch ' ') ++ (Lib.Decimal.signed l.pid ++ ch ' ' :: l.name)

/-- `tre_sho`. The first number bounds the depth of the recursion, a call that would go deeper does
not return. An empty entry has no name (`IndexError`). -/
def treSho (processes : Processes) (childr : Childr) : ℕ → Pid → ℕ → Option (List Line)
  | 0, _, _ => none
  | n + 1, pid, lev =>
    match processes.lookup pid with
    | none => some []
    | some [] => none
    | some (name :: _) =>
      (outputs (fun child => treSho processes childr n child (lev + 4)) (childr.of pid)).map
        (⟨lev, pid, name⟩ :: ·)

end Serie.Model.Proto
