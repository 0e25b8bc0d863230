import Serie.Model.Main
import Serie.Model.Reci

/-! # The whole program

`main` of `tests/main.c`: `test_proc_conn` with its setup and its end, from the bytes that `recvmsg`
answers on. Every turn of the loop of `sock_reci` is a step, and so is every record that
`logg_proc_parse` visits. A signal can arrive between any two steps once its handler is installed,
until the program ends. Between the steps of its loop the program is one of `Serie.Model.Main`. -/

namespace Serie.Model.Program

open Serie.Lib.CText Serie.Lib.Memory Serie.Model.Record Serie.Model.Table Serie.Model.Conn
open Serie.Model.Logg Serie.Model.Main Serie.Model.Reci

/-- What the program does next; in `head` the loop of `sock_reci` is at the offset `off` of the
buffer with `len` bytes left. -/
inductive At where
  | crea
  | timer
  | calloc
  | tablInit
  | regi
  | loop
  | recv
  | head (m : Mem) (off : ℕ) (len : ℤ)
  | test
  | parse (rest : List Ref) (buff : Buff)
  | clear
  | dele
  | unre
  | close
  | dest
  | exit

/-- What the program holds: the socket, the timer, the block of the table and its buckets. -/
structure Held where
  sock : Bool
  timer : Bool
  table : Bool
  buckets : Bool
deriving DecidableEq, Repr

/-- The program; `mem` counts from `proc_tabl_init` on. -/
structure Machine where
  place : At
  held : Held
  mem : State
  running : Bool
  loggRun : Bool
  file : List Byte

/-- The program at the beginning. -/
def boot : Machine where
  place := .crea
  held := ⟨false, false, false, false⟩
  mem := init
  running := true
  loggRun := false
  file := []

/-- The handler of the signals is installed, and the program runs. -/
def At.catches : At → Bool
  | .crea | .timer | .exit => false
  | _ => true

/-- `sigint_hand`. -/
def catchSignal (sig : Signal) (b : Machine) : Machine :=
  if sig = .sigint then { b with running := false } else { b with loggRun := true }

/-! ### Setup -/

/-- `sock_crea` and the test of its result. Without a socket `bind` fails, too. -/
def crea (socket bind : Bool) (b : Machine) : Machine :=
  if socket && bind then { b with place := .timer, held := { b.held with sock := true } }
  else { b with place := .exit }

/-- `timer_setup`; a timer that cannot be set is deleted, and the socket is closed. -/
def timerSetup (timerCreate timerSettime : Bool) (b : Machine) : Machine :=
  if timerCreate && timerSettime then
    { b with place := .calloc, held := { b.held with timer := true } }
  else { b with place := .exit, held := { b.held with sock := false } }

/-- The block of the table. -/
def callocTable (calloc : Bool) (b : Machine) : Machine :=
  if calloc then { b with place := .tablInit, held := { b.held with table := true } }
  else { b with place := .exit, held := { b.held with sock := false } }

/-- `proc_tabl_init`. -/
def tablInit (calloc : Bool) (b : Machine) : Machine :=
  match procTablInit calloc with
  | some s => { b with place := .regi, held := { b.held with buckets := true }, mem := s }
  | none => { b with place := .exit, held := { b.held with table := false, sock := false } }

/-! ### `sock_reci` -/

/-- What `recvmsg` answers decides whether there is a message to look at. -/
def received (beyond : Mem) (recv : Recv) (b : Machine) : Machine :=
  match recv with
  | .error _ => { b with place := .test }
  | .dgram bytes nlPid =>
    let buff := bytes.take buffSize
    if buff.length = 0 then { b with place := .test }
    else if nlPid ≠ 0 then { b with place := .test }
    else { b with place := .head (buffMem buff beyond) 0 buff.length }

/-- A message that is not handed on. -/
def skips (m : Mem) (off : ℕ) : Bool :=
  (nlmsgType m off = nlmsgError ∨ nlmsgType m off = nlmsgNoop) ∨
    (cnIdx m off ≠ cnIdxProc ∨ cnVal m off ≠ cnValProc)

/-- `NLMSG_NEXT`. -/
def nlmsgNext (m : Mem) (off : ℕ) (len : ℤ) : At :=
  .head m (off + nlmsgAlign (nlmsgLen m off)) (len - nlmsgAlign (nlmsgLen m off))

/-- After `read_even` has left the memory `t`. -/
def evenRead (m : Mem) (off : ℕ) (len : ℤ) (t : State) (b : Machine) : Machine :=
  { b with
    place := if nlmsgType m off = nlmsgDone then .test else nlmsgNext m off len
    mem := t }

/-! ### The flush and the end -/

/-- `if(logg_run == 1)`. -/
def testFlag (b : Machine) : Machine :=
  { b with place := if b.loggRun then .parse (records b.mem) buffInit else .loop }

/-- The end of `logg_proc_parse`. A file that can be opened takes the whole text. -/
def flushed (fopen : Bool) (buff : Buff) (b : Machine) : Machine :=
  { b with place := .clear, file := if fopen then b.file ++ cstr buff.mem else b.file }

/-- `proc_tabl_dest`. -/
def destroyed (b : Machine) : Machine :=
  { b with
    place := .exit
    held := { b.held with buckets := false, table := false }
    mem := procTablDest b.mem }

/-- What happens in a step. -/
inductive Act where
  | signal (sig : Signal)
  | setup
  | loop
  | recv
  | skip
  | even
  | reci
  | test
  | visit (v : Visit)
  | write (fopen : Bool)
  | clear
  | finish

/-- **A step of the program.** -/
inductive Exec : Machine → Act → Machine → Prop where
  | signal {b : Machine} (h : b.place.catches = true) (sig : Signal) :
      Exec b (.signal sig) (catchSignal sig b)
  | crea {b : Machine} (h : b.place = .crea) (socket bind : Bool) :
      Exec b .setup (crea socket bind b)
  | timer {b : Machine} (h : b.place = .timer) (timerCreate timerSettime : Bool) :
      Exec b .setup (timerSetup timerCreate timerSettime b)
  | calloc {b : Machine} (h : b.place = .calloc) (calloc : Bool) :
      Exec b .setup (callocTable calloc b)
  | tablInit {b : Machine} (h : b.place = .tablInit) (calloc : Bool) :
      Exec b .setup (tablInit calloc b)
  | regi {b : Machine} (h : b.place = .regi) : Exec b .setup { b with place := .loop }
  | loop {b : Machine} (h : b.place = .loop) :
      Exec b .loop { b with place := if b.running then .recv else .dele }
  | recv {b : Machine} (h : b.place = .recv) (beyond : Mem) (recv : Recv) :
      Exec b .recv (received beyond recv b)
  | skip {b : Machine} {m : Mem} {off : ℕ} {len : ℤ} (h : b.place = .head m off len)
      (hok : nlmsgOk m off len = true) (hs : skips m off = true) :
      Exec b .skip { b with place := nlmsgNext m off len }
  | even {b : Machine} {m : Mem} {off : ℕ} {len : ℤ} {fuel : ℕ} {w : ℕ → ℕ → World} {t : State}
      (h : b.place = .head m off len) (hok : nlmsgOk m off len = true) (hs : skips m off = false)
      (hr : readEvenAt m (evenAddr off) fuel w b.mem = .ret t) :
      Exec b .even (evenRead m off len t b)
  | reci {b : Machine} {m : Mem} {off : ℕ} {len : ℤ} (h : b.place = .head m off len)
      (hok : nlmsgOk m off len = false) : Exec b .reci { b with place := .test }
  | test {b : Machine} (h : b.place = .test) : Exec b .test (testFlag b)
  | visit {b : Machine} {r : Ref} {rest : List Ref} {buff buff' : Buff} {v : Visit}
      (h : b.place = .parse (r :: rest) buff) (hl : loggProc b.mem v r buff = .ok buff') :
      Exec b (.visit v) { b with place := .parse rest buff' }
  | write {b : Machine} {buff : Buff} (h : b.place = .parse [] buff) (fopen : Bool) :
      Exec b (.write fopen) (flushed fopen buff b)
  | clear {b : Machine} (h : b.place = .clear) :
      Exec b .clear { b with place := .loop, loggRun := false }
  | dele {b : Machine} (h : b.place = .dele) :
      Exec b .finish { b with place := .unre, held := { b.held with timer := false } }
  | unre {b : Machine} (h : b.place = .unre) : Exec b .finish { b with place := .close }
  | close {b : Machine} (h : b.place = .close) :
      Exec b .finish { b with place := .dest, held := { b.held with sock := false } }
  | dest {b : Machine} (h : b.place = .dest) : Exec b .finish (destroyed b)

end Serie.Model.Program
