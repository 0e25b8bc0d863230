import Serie.Lib.CText

/-! # The first snapshot of the pids

`lookup` of the first C version. The array `pids` is a block with room for a number of `int`s; a
block that `malloc` returned holds no values yet, and `realloc` keeps those there are. What goes
wrong ends the run: the signed overflow of `cap *= 2`, and a store outside of the block. -/

namespace Serie.Model.OldSerie

open Serie.Lib.CText

/-- A block of `int`s: how many fit, and those that were stored. -/
structure Block where
  room : ℕ
  val : ℕ → Option ℤ

/-- How a run goes wrong. -/
inductive Fault where
  | overflow
  | outside
deriving DecidableEq, Repr

/-- `pid_list`. -/
structure PidList where
  pids : Option Block
  size : ℤ

/-- The variables of `lookup`. -/
structure Vars where
  count : ℕ
  pids : Option Block
  cap : ℤ

/-- `malloc(n)`, for an array of `int`s, if it succeeds. -/
def malloc (ok : Bool) (n : ℕ) : Option Block :=
  if ok then some ⟨n / 4, fun _ => none⟩ else none

/-- `realloc(b, n)`, if it succeeds: a null pointer is allocated afresh. -/
def realloc (ok : Bool) (b : Option Block) (n : ℕ) : Option Block :=
  match b with
  | none => malloc ok n
  | some b => if ok then some ⟨n / 4, fun i => if i < n / 4 then b.val i else none⟩ else none

/-- `pids[i] = v`. -/
def store (pids : Option Block) (i : ℕ) (v : ℤ) : Except Fault (Option Block) :=
  match pids with
  | none => .error .outside
  | some b =>
    if i < b.room then .ok (some ⟨b.room, fun j => if j = i then some v else b.val j⟩)
    else .error .outside

/-- `atoi`. -/
def atoi (s : List Byte) : ℤ := toInt32 (strtol s).1

/-- The test `count >= 1024` and the lines under it. `regrow` says which of the sizes `realloc`
grants. -/
def grow (regrow : ℕ → Bool) (s : Vars) : Except Fault Vars :=
  if 1024 ≤ s.count then
    if s.cap * 2 < 2 ^ 31 then
      let n := 4 * (s.cap * 2).toNat
      .ok { s with cap := s.cap * 2, pids := realloc (regrow n) s.pids n }
    else .error .overflow
  else .ok s

/-- One turn of the loop. -/
def lookupTurn (regrow : ℕ → Bool) (s : Vars) (dName : List Byte) : Except Fault Vars :=
  if isDigit (deref dName) then do
    let s ← grow regrow s
    let pids ← store s.pids s.count (atoi dName)
    .ok { s with pids := pids, count := s.count + 1 }
  else .ok s

/-- The loop over the entries of the directory. -/
def lookupLoop (regrow : ℕ → Bool) : Vars → List (List Byte) → Except Fault Vars
  | s, [] => .ok s
  | s, dName :: dirs => do
    let s ← lookupTurn regrow s dName
    lookupLoop regrow s dirs

/-- `lookup`: what it returns and `out`. A directory that cannot be opened is `none`; `first` says
whether the `malloc` of the first array succeeds. -/
def lookup (first : Bool) (regrow : ℕ → Bool) (dp : Option (List (List Byte))) (out : PidList) :
    Except Fault (ℤ × PidList) :=
  match dp with
  | none => .ok (1, out)
  | some dirs => do
    let s ← lookupLoop regrow ⟨0, malloc first (4 * 1024), 1024⟩ dirs
    .ok (0, ⟨s.pids, s.count⟩)

end Serie.Model.OldSerie
