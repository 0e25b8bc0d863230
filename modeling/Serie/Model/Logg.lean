import Serie.Model.CJson
import Serie.Model.Table

/-! # The logger

`ser_logg.c`: `logg_proc_parse` writes every record of the table as a line of JSON into one buffer
and appends the buffer to a file. What the allocator and the clocks answer while a record is logged
is its `Visit`. A wrong access to the slots of a record ends the flush. -/

namespace Serie.Model.Logg

open Serie.Lib.CText Serie.Model.Record Serie.Model.Table Serie.Model.CJson

/-! ### Times -/

/-- `timespec_add`. -/
def timespecAdd (a b : Timespec) : Timespec :=
  let resu : Timespec := ⟨b.tvSec + a.tvSec, b.tvNsec + a.tvNsec⟩
  if resu.tvNsec ≥ 1000000000 then ⟨resu.tvSec + 1, resu.tvNsec - 1000000000⟩ else resu

/-- `timespec_sub`. -/
def timespecSub (a b : Timespec) : Timespec :=
  let resu : Timespec := ⟨a.tvSec - b.tvSec, a.tvNsec - b.tvNsec⟩
  if resu.tvNsec < 0 then ⟨resu.tvSec - 1, resu.tvNsec + 1000000000⟩ else resu

/-- The answers during a call of `logg_time_reso`: the two clocks, unless they cannot be read, and
what `strftime` makes of a number of seconds in local time, unless it returns 0. `stale` is what the
buffer held before. -/
structure Clocks where
  bootNow : Option Timespec
  realNow : Option Timespec
  strftime : ℤ → Option (List Byte)
  stale : List Byte

/-- `%09ld`. -/
def print09 (n : ℤ) : List Byte :=
  let digits := printNat n.natAbs
  if n < 0 then ch '-' :: (List.replicate (8 - digits.length) (ch '0') ++ digits)
  else List.replicate (9 - digits.length) (ch '0') ++ digits

/-- `logg_time_reso`, with the contents of `buff` afterwards. -/
def loggTimeReso (someTime : Timespec) (c : Clocks) (buffSize : ℕ) : ℤ × List Byte :=
  match c.bootNow, c.realNow with
  | some bootNow, some realNow =>
    let bootBase := timespecSub realNow bootNow
    let resoTime := timespecAdd bootBase someTime
    match c.strftime resoTime.tvSec with
    | none => (-1, c.stale)
    | some timeBuff => (0, (timeBuff ++ ch '.' :: print09 resoTime.tvNsec).take (buffSize - 1))
  | _, _ => (-1, c.stale)

/-! ### One record -/

/-- The answers while one record is logged: whether the object is created, whether an item can be
added to it under a name, whether the array of paths, the copy of a path and the text of the array
can be made, whether the object can be printed, and whether `realloc` succeeds. `fill` is what new
memory holds. -/
structure Visit where
  object : Bool
  item : String → Bool
  array : Bool
  entry : ℕ → Bool
  arrayText : Bool
  text : Bool
  realloc : Bool
  fill : ℕ → Byte
  birth : Clocks
  death : Clocks

/-- `logg_fd_paths_2_json`. -/
def loggFdPaths2Json (v : Visit) (json : Object) (p : Proc) : Except FdFault Object :=
  match createStringArray v.array v.entry p.fdPaths p.fdCoun with
  | .error e => .error e
  | .ok arr =>
    let fdpa := if v.arrayText then arr.map printArray else none
    .ok (addStringToObject (v.item "fd_paths") json "fd_paths" fdpa)

/-- The items before the paths of `logg_proc_2_json`. -/
def loggHead (v : Visit) (p : Proc) : Object :=
  let btBuff := (loggTimeReso p.birthTime v.birth 64).2
  let dtBuff := if p.deathTime.tvSec ≠ 0 then (loggTimeReso p.deathTime v.death 64).2 else []
  let json : Object := []
  let json := addNumberToObject (v.item "pid") json "pid" p.pid
  let json := addNumberToObject (v.item "real-uid") json "real-uid" p.ruid
  let json := addNumberToObject (v.item "effective-uid") json "effective-uid" p.euid
  let json := addNumberToObject (v.item "read-gid") json "read-gid" p.rgid
  let json := addNumberToObject (v.item "effective-gid") json "effective-gid" p.egid
  let json := addStringToObject (v.item "name") json "name" (some p.name)
  let json := addNumberToObject (v.item "parent-pid") json "parent-pid" p.ppid
  let json := addNumberToObject (v.item "birth-parent-pid") json "birth-parent-pid" p.birthPpid
  let json := addStringToObject (v.item "state") json "state" (some [p.state])
  let json := addNumberToObject (v.item "thread-gid") json "thread-gid" p.tgid
  let json := addNumberToObject (v.item "FD-count") json "FD-count" p.fdCoun
  let json := addStringToObject (v.item "birth-time") json "birth-time" (some btBuff)
  if deref dtBuff ≠ 0 then addStringToObject (v.item "death-time") json "death-time" (some dtBuff)
  else addStringToObject (v.item "death-time") json "death-time" (some (ascii "not dead".toList))

/-- The items after the paths; the links are read through. -/
def loggTail (s : State) (v : Visit) (p : Proc) (json : Object) : Object :=
  let json := addBoolToObject (v.item "alive") json "alive" p.alive
  let json := addNumberToObject (v.item "exit-code") json "exit-code" p.exitCode
  let json := match p.firsChil with
    | none => json
    | some c => addNumberToObject (v.item "first-child-pid") json "first-child-pid" (s.heap c).pid
  match p.nextSibl with
  | none => json
  | some c => addNumberToObject (v.item "next-sibling-pid") json "next-sibling-pid" (s.heap c).pid

/-- `logg_proc_2_json`, on a new object. -/
def loggProc2Json (s : State) (v : Visit) (p : Proc) : Except FdFault Object :=
  match loggFdPaths2Json v (loggHead v p) p with
  | .error e => .error e
  | .ok json => .ok (loggTail s v p json)

/-! ### The buffer -/

/-- The memory of `json_buff` and `curr_len`. -/
structure Buff where
  mem : List Byte
  currLen : ℕ

/-- Writes from `pos` on; what is outside the memory is lost. -/
def store (mem : List Byte) (pos : ℕ) (bytes : List Byte) : List Byte :=
  (mem.take pos ++ bytes ++ mem.drop (pos + bytes.length)).take mem.length

/-- The memory after a `realloc` that succeeds. -/
def grow (mem : List Byte) (size : ℕ) (fill : ℕ → Byte) : List Byte :=
  (List.range size).map fun i => mem.getD i (fill i)

/-- `logg_mem_writ`. -/
def loggMemWrit (v : Visit) (j : Object) (buff : Buff) : ℤ × Buff :=
  if v.text = false then (-1, buff)
  else
    let b := printObject j
    let blen := (cstr b).length
    if v.realloc = false then (-1, buff)
    else
      let mem := grow buff.mem (buff.currLen + blen + 2) v.fill
      -- `strcpy` copies the terminating null byte, too
      let mem := store mem buff.currLen (cstr b ++ [0])
      let mem := store mem (buff.currLen + blen) [ch '\n']
      let mem := store mem (buff.currLen + blen + 1) [0]
      (0, ⟨mem, buff.currLen + (blen + 1)⟩)

/-- One record of a chain. -/
def loggProc (s : State) (v : Visit) (r : Ref) (buff : Buff) : Except FdFault Buff :=
  if v.object = false then .ok buff
  else
    match loggProc2Json s v (s.heap r) with
    | .error e => .error e
    | .ok j => .ok (loggMemWrit v j buff).2

/-- The loop over one chain. -/
def loggChain (s : State) (v : Ref → Visit) : List Ref → Buff → Except FdFault Buff
  | [], buff => .ok buff
  | curr :: next, buff =>
    match loggProc s (v curr) curr buff with
    | .error e => .error e
    | .ok buff => loggChain s v next buff

/-- The loop over the buckets. -/
def loggBuckets (s : State) (v : Ref → Visit) : List ℕ → Buff → Except FdFault Buff
  | [], buff => .ok buff
  | i :: is, buff =>
    match loggChain s v (s.buckets i) buff with
    | .error e => .error e
    | .ok buff => loggBuckets s v is buff

/-- The records in the order of the buckets and their chains. -/
def records (s : State) : List Ref := (List.range 4096).flatMap s.buckets

/-- The buffer `malloc(1)` returns, made an empty string. -/
def buffInit : Buff := ⟨[0], 0⟩

/-- `logg_proc_parse`: the text that `fputs` appends to the file, if the file can be opened. -/
def loggProcParse (s : State) (v : Ref → Visit) (fopen : Bool) :
    Except FdFault (Option (List Byte)) :=
  match loggBuckets s v (List.range 4096) buffInit with
  | .error e => .error e
  | .ok buff => .ok (if fopen then some (cstr buff.mem) else none)

end Serie.Model.Logg
