import Serie.Model.Table

/-! # The event handlers

`ser_proc_conn.c`, from `read_even` on. What `/proc` and the allocator answer during a call is its
`World`, one for every visit the call makes to the outside: `even_fork` first looks for the parent,
then for the child; `even_exit` makes one visit for every turn of its loop. Within one visit no two
reads are of the same process, so a world is a function of the pid. -/

namespace Serie.Model.Conn

open Serie.Lib.CText Serie.Model.Record Serie.Model.Prfs Serie.Model.Table

/-- The answers during one visit: the files of every process, and whether the allocation of a record
and of a bucket node succeed. -/
structure World where
  files : Pid → Files
  procCalloc : Bool
  nodeCalloc : Bool

/-- The name a comm event carries, a C string in an array of 16 bytes. -/
structure Comm where
  bytes : List Byte
  length_le : bytes.length ≤ 15
  no_null : 0 ∉ bytes

/-- The data of an event, by its kind. -/
inductive EventData where
  | fork (parentPid childPid : Pid)
  | exec (processPid processTgid : Pid)
  | exit (processPid : Pid) (exitCode : ℕ)
  | comm (processPid : Pid) (comm : Comm)
  | uid (processPid : Pid) (ruid euid : ℕ)
  | gid (processPid : Pid) (rgid egid : ℕ)
  | other (what : ℕ)

/-- `struct proc_event`. -/
structure ProcEvent where
  timestampNs : ℕ
  data : EventData

/-- The split of a number of nanoseconds. -/
def splitNs (timestampNs : ℕ) : Timespec :=
  ⟨(timestampNs / 1000000000 : ℕ), (timestampNs % 1000000000 : ℕ)⟩

/-- The block with which `even_fork` and `re_pare` find the record of a parent: the one in the
table, or else a new one. -/
def findPare (pid : Pid) (w : World) (s : State) : Option Ref × State :=
  match procLook s pid with
  | some pare => (some pare, s)
  | none =>
    match procLoad pid (w.files pid) w.procCalloc s with
    | (none, s₁) => (none, s₁)
    | (some pare, s₁) =>
      let x := procInse pare w.nodeCalloc s₁
      if x.1 = -1 then (none, procDest (some pare) x.2) else (some pare, x.2)

/-- The part of `even_fork` after the parent was found. -/
def forkChil (pare : Ref) (childPid : Pid) (timestampNs : ℕ) (w : World) (s : State) :
    Outcome (ℤ × State) :=
  match procLoad childPid (w.files childPid) w.procCalloc s with
  | (none, s₁) => .ret (-1, s₁)
  | (some chil, s₁) =>
    let x := attaChil (some pare) (some chil) (s₁.upd chil fun p =>
      { p with birthTime := splitNs timestampNs })
    if x.1 = -1 then .ret (-1, procDest (some chil) x.2)
    else
      let y := procInse chil w.nodeCalloc x.2
      if y.1 = -1 then
        (detaChil (some pare) (some chil) y.2).bind fun z => .ret (-1, procDest (some chil) z.2)
      else .ret (0, y.2)

/-- `even_fork`. -/
def evenFork (parentPid childPid : Pid) (timestampNs : ℕ) (w : ℕ → World) (s : State) :
    Outcome (ℤ × State) :=
  match findPare parentPid (w 0) s with
  | (none, s₁) => .ret (-1, s₁)
  | (some pare, s₁) => forkChil pare childPid timestampNs (w 1) s₁

/-- `even_exec`. -/
def evenExec (processPid : Pid) (w : ℕ → World) (s : State) : ℤ × State :=
  match procLook s processPid with
  | none => (-1, s)
  | some exec => (0, (lookRec exec ((w 0).files (s.heap exec).pid) s).2)

/-- `re_pare`. -/
def rePare (chil : Ref) (w : World) (s : State) : ℤ × State :=
  match findPare (s.heap chil).ppid w s with
  | (none, s₁) => (-1, s₁)
  | (some pare, s₁) =>
    let x := attaChil (some pare) (some chil) s₁
    if x.1 = -1 then (-1, x.2) else (0, x.2)

/-- The body of the loop of `even_exit`, for the first child `chil` of `dead`. -/
def exitTurn (dead chil : Ref) (w : World) (s : State) : Outcome (ℤ × State) :=
  (detaChil (some dead) (some chil) s).bind fun x =>
    if x.1 = -1 then .ret (-1, x.2)
    else
      let y := lookRec chil (w.files (x.2.heap chil).pid) x.2
      if y.1 = -1 then .ret (-1, y.2)
      else
        let z := rePare chil w y.2
        if z.1 = -1 then .ret (-1, z.2) else .ret (0, z.2)

/-- The loop of `even_exit`; the first argument bounds the number of turns that are followed, the
second counts the turns made. -/
def exitLoop (dead : Ref) (w : ℕ → World) : ℕ → ℕ → State → Outcome (ℤ × State)
  | fuel, k, s =>
    match (s.heap dead).firsChil with
    | none => .ret (0, s)
    | some chil =>
      match fuel with
      | 0 => .spin
      | fuel + 1 =>
        (exitTurn dead chil (w k) s).bind fun x =>
          if x.1 = -1 then .ret (-1, x.2) else exitLoop dead w fuel (k + 1) x.2

/-- The record of a death. -/
def markDead (exitCode timestampNs : ℕ) (p : Proc) : Proc :=
  { p with alive := false, exitCode := toInt32 exitCode, deathTime := splitNs timestampNs }

/-- `even_exit`. -/
def evenExit (fuel : ℕ) (processPid : Pid) (exitCode timestampNs : ℕ) (w : ℕ → World) (s : State) :
    Outcome (ℤ × State) :=
  match procLook s processPid with
  | none => .ret (-1, s)
  | some dead =>
    let s₁ := s.upd dead (markDead exitCode timestampNs)
    (detaChil (s₁.heap dead).pare (some dead) s₁).bind fun x =>
      if x.1 = -1 then .ret (-1, x.2) else exitLoop dead w fuel 0 x.2

/-- What `even_comm`, `even_uid` and `even_gid` share: a write to the record of the pid. -/
def evenWrite (processPid : Pid) (f : Proc → Proc) (s : State) : ℤ × State :=
  match procLook s processPid with
  | none => (-1, s)
  | some r => (0, s.upd r f)

/-- `even_comm`. -/
def evenComm (processPid : Pid) (comm : Comm) (s : State) : ℤ × State :=
  evenWrite processPid (fun p => { p with name := comm.bytes }) s

/-- `even_uid`. -/
def evenUid (processPid : Pid) (ruid euid : ℕ) (s : State) : ℤ × State :=
  evenWrite processPid (fun p => { p with ruid := ruid, euid := euid }) s

/-- `even_gid`. -/
def evenGid (processPid : Pid) (rgid egid : ℕ) (s : State) : ℤ × State :=
  evenWrite processPid (fun p => { p with rgid := rgid, egid := egid }) s

/-- The handler that `read_even` calls, with its result code; an event of another kind has none and
changes nothing. -/
def handle (fuel : ℕ) (even : ProcEvent) (w : ℕ → World) (s : State) : Outcome (ℤ × State) :=
  match even.data with
  | .fork parentPid childPid => evenFork parentPid childPid even.timestampNs w s
  | .exec processPid _ => .ret (evenExec processPid w s)
  | .exit processPid exitCode => evenExit fuel processPid exitCode even.timestampNs w s
  | .comm processPid comm => .ret (evenComm processPid comm s)
  | .uid processPid ruid euid => .ret (evenUid processPid ruid euid s)
  | .gid processPid rgid egid => .ret (evenGid processPid rgid egid s)
  | .other _ => .ret (0, s)

/-- `read_even`. -/
def readEven (fuel : ℕ) (even : ProcEvent) (w : ℕ → World) (s : State) : Outcome State :=
  (handle fuel even w s).bind fun x => .ret x.2

/-! ### Runs -/

/-- An event and the answers while it is handled. -/
structure Input where
  even : ProcEvent
  world : ℕ → World

/-- The state after an event was handled. -/
def Step (s : State) (i : Input) (t : State) : Prop :=
  ∃ fuel, readEven fuel i.even i.world s = .ret t

/-- The table `proc_tabl_init` makes. -/
def init : State := (procTablInit true).get rfl

end Serie.Model.Conn
