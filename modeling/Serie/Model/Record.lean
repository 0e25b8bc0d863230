import Serie.Lib.CText

/-! # The process record

`Proc` is `struct proc`. Records are named by numbers (`Ref`), handed out in the order in which the
records are allocated and never used again; a pointer to a record is an `Option Ref`, `none` being
`NULL`. The paths of a record's file descriptors are C strings of their own, kept in an array that
`malloc` returned, so a slot of the array that was not written yet holds no value at all
(`Slot.unset`). -/

namespace Serie.Model.Record

open Serie.Lib.CText

/-- `pid_t`. -/
abbrev Pid := ℤ

/-- The name of a record. -/
abbrev Ref := ℕ

/-- `struct timespec`. -/
@[ext] structure Timespec where
  tvSec : ℤ
  tvNsec : ℤ
deriving DecidableEq, Repr

/-- A slot of the array `fd_paths`: not written since `malloc`, `NULL`, or the string with the
number `id` and the text `target`. -/
inductive Slot where
  | unset
  | null
  | str (id : ℕ) (target : List Byte)
deriving DecidableEq, Repr

/-- `struct proc`. -/
structure Proc where
  pid : Pid
  ruid : ℕ
  euid : ℕ
  rgid : ℕ
  egid : ℕ
  name : List Byte
  ppid : Pid
  birthPpid : Pid
  state : Byte
  tgid : Pid
  fdCoun : ℤ
  birthTime : Timespec
  deathTime : Timespec
  fdPaths : Option (List Slot)
  alive : Bool
  exitCode : ℤ
  pare : Option Ref
  firsChil : Option Ref
  nextSibl : Option Ref
deriving DecidableEq, Repr

/-- What `calloc` returns: every field zero. -/
def Proc.zero : Proc where
  pid := 0
  ruid := 0
  euid := 0
  rgid := 0
  egid := 0
  name := []
  ppid := 0
  birthPpid := 0
  state := 0
  tgid := 0
  fdCoun := 0
  birthTime := ⟨0, 0⟩
  deathTime := ⟨0, 0⟩
  fdPaths := none
  alive := false
  exitCode := 0
  pare := none
  firsChil := none
  nextSibl := none

/-! ### The strings of the slots -/

/-- A wrong access of `prfs_clean_fd`: indexing a `NULL` array, a slot outside the array, or a slot
that was never written. -/
inductive FdFault where
  | nullArray
  | outside
  | unset
deriving DecidableEq, Repr

/-- The strings allocated for slots: the number of the next one, the numbers given to `free` and the
wrong accesses, both newest first. A wrong access, at which the program may crash, is recorded and
has no other effect: where it matters, a result says that `faults` is as before. -/
structure Strs where
  fresh : ℕ
  freed : List ℕ
  faults : List FdFault
deriving DecidableEq, Repr

/-- `free` of the contents of slot `j` of an array. -/
def Strs.freeSlot (m : Strs) (paths : Option (List Slot)) (j : ℕ) : Strs :=
  match paths with
  | none => { m with faults := .nullArray :: m.faults }
  | some a =>
    match a[j]? with
    | none => { m with faults := .outside :: m.faults }
    | some .unset => { m with faults := .unset :: m.faults }
    | some .null => m
    | some (.str id _) => { m with freed := id :: m.freed }

/-! ### What `/proc` answers -/

/-- An entry of the directory `/proc/<pid>/fd/`: its name, whether the `malloc` of the slot's string
succeeds when the entry is handled, and what `readlink` returns for it. -/
structure DirEntry where
  dName : List Byte
  alloc : Bool
  link : Option (List Byte)
deriving DecidableEq, Repr

/-- What one call of `prfs_look` finds: the contents of `/proc/<pid>/stat` and `/proc/<pid>/status`
and the entries of `/proc/<pid>/fd/`, each unless it cannot be opened. `stale` is what the rest of
the uninitialised array `buff` of `prfs_stat` holds, `arrAlloc` whether the `malloc` of the array of
slots succeeds. -/
structure Files where
  stat : Option (List Byte)
  stale : List Byte
  status : Option (List Byte)
  fd : Option (List DirEntry)
  arrAlloc : Bool
deriving DecidableEq, Repr

end Serie.Model.Record
