import Serie.Model.Prfs
import Serie.Lib.Intrusive

/-! # The process table and the process tree

`ser_proc.c`. The memory of the program (`State`) holds the records, the hash table that owns them
and the strings of their slots. A chain of bucket nodes is the list of the records its nodes hold.

Three fields are history, which no function reads: `loaded` and `refreshed` record the calls of
`prfs_look` that created a record and that renewed one, with what `/proc` answered, and `destroyed`
the records given to `proc_dest`; each is newest first. -/

namespace Serie.Model.Table

open Serie.Model.Record Serie.Model.Prfs Serie.Lib.Intrusive

/-- `PROC_BUCK_NODES`. -/
def procBuckNodes : ℕ := 4096

/-- The memory of the program. -/
structure State where
  heap : Ref → Proc
  next : Ref
  buckets : ℕ → List Ref
  bucketCount : ℕ
  strs : Strs
  loaded : List (Ref × Files)
  refreshed : List (Ref × Files)
  destroyed : List Ref

/-- A write to the record `r`. -/
def State.upd (s : State) (r : Ref) (f : Proc → Proc) : State :=
  { s with heap := Function.update s.heap r (f (s.heap r)) }

/-- The links of the records. -/
def State.links (s : State) : Links Ref where
  up r := (s.heap r).pare
  first r := (s.heap r).firsChil
  next r := (s.heap r).nextSibl

/-- The records in the table. -/
def State.tracked (s : State) : Set Ref := {r | ∃ b, r ∈ s.buckets b}

/-- How a call ends: it returns, it reads through a `NULL` pointer, or it never ends. -/
inductive Outcome (α : Type) where
  | ret (a : α)
  | crash
  | spin

/-- Continue with the value returned. -/
def Outcome.bind {α β : Type} (o : Outcome α) (f : α → Outcome β) : Outcome β :=
  match o with
  | .ret a => f a
  | .crash => .crash
  | .spin => .spin

/-! ### The hash table -/

/-- `proc_tabl_init`: a table of empty buckets, if `calloc` succeeds. -/
def procTablInit (calloc : Bool) : Option State :=
  if calloc then
    some {
      heap := fun _ => Proc.zero
      next := 0
      buckets := fun _ => []
      bucketCount := procBuckNodes
      strs := ⟨0, [], []⟩
      loaded := []
      refreshed := []
      destroyed := [] }
  else none

/-- `proc_hash`: the low twelve bits of the pid. -/
def procHash (pid : Pid) : ℕ := (pid % procBuckNodes).toNat

/-- `proc_inse`; `calloc` says whether the node is allocated. -/
def procInse (r : Ref) (calloc : Bool) (s : State) : ℤ × State :=
  if calloc then
    let idx := procHash (s.heap r).pid
    (0, { s with buckets := Function.update s.buckets idx (r :: s.buckets idx) })
  else (-1, s)

/-- `proc_look`. -/
def procLook (s : State) (pid : Pid) : Option Ref :=
  (s.buckets (procHash pid)).find? fun r => (s.heap r).pid = pid

/-- `proc_dest`. -/
def procDest (p : Option Ref) (s : State) : State :=
  match p with
  | none => s
  | some r =>
    let x := prfsCleanFd (s.heap r) (s.heap r).fdCoun s.strs
    { s with
      heap := Function.update s.heap r x.1
      strs := x.2
      destroyed := r :: s.destroyed }

/-- The walk of `proc_dele`: the first record of the chain with the pid and birth time of `p`, and
the chain without its node. -/
def deleWalk (s : State) (p : Proc) : List Ref → Option (Ref × List Ref)
  | [] => none
  | curr :: next =>
    if (s.heap curr).pid = p.pid ∧ (s.heap curr).birthTime.tvSec = p.birthTime.tvSec ∧
        (s.heap curr).birthTime.tvNsec = p.birthTime.tvNsec then
      some (curr, next)
    else
      match deleWalk s p next with
      | none => none
      | some (c, l) => some (c, curr :: l)

/-- `proc_dele`. -/
def procDele (r : Ref) (s : State) : ℤ × State :=
  let idx := procHash (s.heap r).pid
  match deleWalk s (s.heap r) (s.buckets idx) with
  | none => (-1, s)
  | some (curr, l) =>
    (0, procDest (some curr) { s with buckets := Function.update s.buckets idx l })

/-- `proc_tabl_dest`: destroys the records of the buckets, and the table. -/
def procTablDest (s : State) : State :=
  let t := (List.range s.bucketCount).foldl
    (fun t i => (t.buckets i).foldl (fun u r => procDest (some r) u) t) s
  { t with buckets := fun _ => [], bucketCount := 0 }

/-! ### The tree -/

/-- `atta_chil`. -/
def attaChil (pare chil : Option Ref) (s : State) : ℤ × State :=
  match pare, chil with
  | some p, some c =>
    if p = c then (-1, s)
    else
      let s₁ := s.upd c fun x => { x with pare := some p, nextSibl := (s.heap p).firsChil }
      (0, s₁.upd p fun x => { x with firsChil := some c })
  | _, _ => (-1, s)

/-- The scan of `deta_chil` for the left neighbour of `chil`, starting at `curr`; `none` when the
list ends without it. A list longer than the number of records ever allocated is a cycle. -/
def detaScan (s : State) (chil : Ref) : ℕ → Option Ref → Outcome (Option Ref)
  | _, none => .crash
  | 0, some _ => .spin
  | n + 1, some curr =>
    if (s.heap curr).nextSibl = some chil then .ret (some curr)
    else
      match (s.heap curr).nextSibl with
      | none => .ret none
      | some x => detaScan s chil n (some x)

/-- `deta_chil`. -/
def detaChil (pare chil : Option Ref) (s : State) : Outcome (ℤ × State) :=
  match pare, chil with
  | some p, some c =>
    let clear (s : State) := s.upd c fun x => { x with pare := none, nextSibl := none }
    if (s.heap p).firsChil = some c then
      .ret (0, clear (s.upd p fun x => { x with firsChil := (s.heap c).nextSibl }))
    else
      (detaScan s c s.next (s.heap p).firsChil).bind fun found =>
        match found with
        | none => .ret (-1, s)
        | some curr =>
          .ret (0, clear (s.upd curr fun x => { x with nextSibl := (s.heap c).nextSibl }))
  | _, _ => .ret (-1, s)

/-! ### Records from `/proc` -/

/-- `prfs_look` on a record of the heap. -/
def lookRec (r : Ref) (f : Files) (s : State) : ℤ × State :=
  let x := prfsLook (s.heap r) s.strs f
  (x.1, { s with
    heap := Function.update s.heap r x.2.1
    strs := x.2.2
    refreshed := (r, f) :: s.refreshed })

/-- `proc_load`; `calloc` says whether the record is allocated. -/
def procLoad (pid : Pid) (f : Files) (calloc : Bool) (s : State) : Option Ref × State :=
  if calloc = false then (none, s)
  else
    let x := prfsLook { Proc.zero with pid := pid } s.strs f
    if x.1 < 0 then (none, { s with next := s.next + 1, strs := x.2.2 })
    else
      (some s.next, { s with
        heap := Function.update s.heap s.next { x.2.1 with birthPpid := -1 }
        next := s.next + 1
        strs := x.2.2
        loaded := (s.next, f) :: s.loaded })

end Serie.Model.Table
