import Serie.Model.Conn
import Serie.Model.Logg

/-! # The main loop

The loop of `test_proc_conn` in `tests/main.c` and the signal handler, as steps: every event that
`sock_reci` handles is a step, and so is every record that `logg_proc_parse` visits. A signal can
arrive between any two steps. The table does not change during a flush, so the records that are
still to be visited are the rest of the list of its records.

The fields from `ticks` on are history, which no step reads. -/

namespace Serie.Model.Main

open Serie.Lib.CText Serie.Model.Record Serie.Model.Table Serie.Model.Conn Serie.Model.Logg

/-- Where the program is: before the test of `running`, in `sock_reci`, before the test of
`logg_run`, in `logg_proc_parse`, before `logg_run = 0`, or behind the loop, where
`proc_tabl_dest` runs. -/
inductive Pc where
  | loop
  | reci
  | test
  | parse (rest : List Ref) (buff : Buff)
  | clear
  | dest

/-- A flush has begun and `logg_run` was not cleared yet. -/
def Pc.flushing : Pc → Bool
  | .parse _ _ | .clear => true
  | _ => false

/-- The program. The history: the number of ticks, how many of them came before the last flush
began, and whether one came while it ran; the number of events handled, how many there were after
the last one that changed a record, and how many before the last flush that wrote it; the records
whose lines are in the buffer. -/
structure Prog where
  pc : Pc
  mem : State
  running : Bool
  loggRun : Bool
  file : List Byte
  ticks : ℕ
  started : ℕ
  late : Bool
  events : ℕ
  changed : Ref → ℕ
  written : Ref → Option ℕ
  lines : List Ref

/-- The program before its loop. -/
def start : Prog where
  pc := .loop
  mem := init
  running := true
  loggRun := false
  file := []
  ticks := 0
  started := 0
  late := false
  events := 0
  changed _ := 0
  written _ := none
  lines := []

/-- The signals the program catches. -/
inductive Signal where
  | sigint
  | sigusr1
deriving DecidableEq

/-- `sigint_hand`. -/
def sigintHand (sig : Signal) (p : Prog) : Prog :=
  if sig = .sigint then { p with running := false }
  else
    { p with
      loggRun := true
      ticks := p.ticks + 1
      late := p.late || p.pc.flushing }

/-- `while(running)`. -/
def whileRunning (p : Prog) : Prog := { p with pc := if p.running then .reci else .dest }

/-- An event was handled and left the memory `t`. -/
def handled (t : State) (p : Prog) : Prog :=
  { p with
    mem := t
    events := p.events + 1
    changed := fun r => if r < p.mem.next ∧ t.heap r = p.mem.heap r then p.changed r
      else p.events + 1 }

/-- `if(logg_run == 1)`: a flush begins, or the loop goes on. -/
def testLoggRun (p : Prog) : Prog :=
  if p.loggRun then
    { p with
      pc := .parse (records p.mem) buffInit
      started := p.ticks
      late := false
      lines := [] }
  else { p with pc := .loop }

/-- A record was visited; its line is in the buffer if nothing failed. -/
def visited (v : Visit) (r : Ref) (rest : List Ref) (buff : Buff) (p : Prog) : Prog :=
  { p with
    pc := .parse rest buff
    lines := if v.object && v.text && v.realloc then r :: p.lines else p.lines }

/-- The end of `logg_proc_parse`. A file that can be opened takes the whole text. -/
def writeFile (fopen : Bool) (buff : Buff) (p : Prog) : Prog :=
  if fopen then
    { p with
      pc := .clear
      file := p.file ++ cstr buff.mem
      written := fun r => if r ∈ p.lines then some p.events else p.written r }
  else { p with pc := .clear }

/-- `logg_run = 0`. -/
def clearLoggRun (p : Prog) : Prog := { p with pc := .loop, loggRun := false }

/-- What happens in a step. -/
inductive Label where
  | signal (sig : Signal)
  | loop
  | even (i : Input)
  | reci
  | test
  | visit (v : Visit)
  | write (fopen : Bool)
  | clear

/-- **A step of the program.** -/
inductive Move : Prog → Label → Prog → Prop where
  | signal (p : Prog) (sig : Signal) : Move p (.signal sig) (sigintHand sig p)
  | loop {p : Prog} (h : p.pc = .loop) : Move p .loop (whileRunning p)
  | even {p : Prog} {i : Input} {t : State} (h : p.pc = .reci) (hs : Step p.mem i t) :
      Move p (.even i) (handled t p)
  | reci {p : Prog} (h : p.pc = .reci) : Move p .reci { p with pc := .test }
  | test {p : Prog} (h : p.pc = .test) : Move p .test (testLoggRun p)
  | visit {p : Prog} {r : Ref} {rest : List Ref} {buff buff' : Buff} {v : Visit}
      (h : p.pc = .parse (r :: rest) buff) (hl : loggProc p.mem v r buff = .ok buff') :
      Move p (.visit v) (visited v r rest buff' p)
  | write {p : Prog} {buff : Buff} (h : p.pc = .parse [] buff) (fopen : Bool) :
      Move p (.write fopen) (writeFile fopen buff p)
  | clear {p : Prog} (h : p.pc = .clear) : Move p .clear (clearLoggRun p)

end Serie.Model.Main
