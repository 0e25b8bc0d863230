import Serie.Lib.Memory
import Serie.Model.Conn

/-! # Receiving

`sock_reci` and the macros of netlink, and what `read_even` finds in the bytes of an event. The
buffer lies at address 0; the bytes behind its 4096 are those of any memory. The loop is the same
for every handler of the events. -/

namespace Serie.Model.Reci

open Serie.Lib.CText Serie.Lib.Memory Serie.Model.Record Serie.Model.Table Serie.Model.Conn

/-- `NLMSG_NOOP`. -/
def nlmsgNoop : ℕ := 1

/-- `NLMSG_ERROR`. -/
def nlmsgError : ℕ := 2

/-- `NLMSG_DONE`. -/
def nlmsgDone : ℕ := 3

/-- `CN_IDX_PROC`. -/
def cnIdxProc : ℕ := 1

/-- `CN_VAL_PROC`. -/
def cnValProc : ℕ := 1

/-- `EINTR`. -/
def eintr : ℕ := 4

/-- The size of `buff`. -/
def buffSize : ℕ := 4096

/-- `NLMSG_HDRLEN`, the size of `struct nlmsghdr`. -/
def nlmsgHdrlen : ℕ := 16

/-- The size of `struct cn_msg` before its data. -/
def cnMsgSize : ℕ := 20

/-- `NLMSG_ALIGN`. -/
def nlmsgAlign (len : ℕ) : ℕ := (len + 3) / 4 * 4

section Header
variable (m : Mem) (off : ℕ)

def nlmsgLen : ℕ := readLe m off 4

def nlmsgType : ℕ := readLe m (off + 4) 2

/-- `id.idx` of the connector message in a message. -/
def cnIdx : ℕ := readLe m (off + nlmsgHdrlen) 4

/-- `id.val` of the connector message in a message. -/
def cnVal : ℕ := readLe m (off + nlmsgHdrlen + 4) 4

/-- The address of the event in a message. -/
def evenAddr : ℕ := off + nlmsgHdrlen + cnMsgSize

/-- `NLMSG_OK`. -/
def nlmsgOk (len : ℤ) : Bool :=
  (nlmsgHdrlen : ℤ) ≤ len ∧ nlmsgHdrlen ≤ nlmsgLen m off ∧ (nlmsgLen m off : ℤ) ≤ len

end Header

section Loop
variable {σ : Type}

/-- The loop of `sock_reci`; `fuel` bounds the number of iterations that are followed. -/
def reciLoop (m : Mem) (readEven : ℕ → σ → Outcome σ) : ℕ → ℕ → ℤ → σ → Outcome σ
  | fuel, off, len, s =>
    if nlmsgOk m off len then
      match fuel with
      | 0 => .spin
      | fuel + 1 =>
        let next := reciLoop m readEven fuel (off + nlmsgAlign (nlmsgLen m off))
          (len - nlmsgAlign (nlmsgLen m off))
        if nlmsgType m off = nlmsgError ∨ nlmsgType m off = nlmsgNoop then next s
        else if cnIdx m off ≠ cnIdxProc ∨ cnVal m off ≠ cnValProc then next s
        else (readEven (evenAddr off) s).bind fun t =>
          if nlmsgType m off = nlmsgDone then .ret t else next t
    else .ret s

/-- The memory after the bytes `buff` were received. -/
def buffMem (buff : List Byte) (beyond : Mem) : Mem := fun i =>
  if i < buffSize then buff.getD i 0 else beyond i

/-- What `recvmsg` answers: an error, or a datagram and the port of its sender. -/
inductive Recv where
  | error (errno : ℕ)
  | dgram (bytes : List Byte) (nlPid : ℕ)

/-- `sock_reci`. Of a datagram that is longer than the buffer only the beginning is received. -/
def sockReci (readEven : Mem → ℕ → σ → Outcome σ) (beyond : Mem) (fuel : ℕ) (recv : Recv) (s : σ) :
    Outcome (ℤ × σ) :=
  match recv with
  | .error errno => .ret (if errno = eintr then 0 else -errno, s)
  | .dgram bytes nlPid =>
    let buff := bytes.take buffSize
    if buff.length = 0 then .ret (0, s)
    else if nlPid ≠ 0 then .ret (-1, s)
    else
      let m := buffMem buff beyond
      (reciLoop m (readEven m) fuel 0 buff.length s).bind fun t => .ret (0, t)

end Loop

/-! ### Events -/

/-- `PROC_EVENT_FORK`. -/
def procEventFork : ℕ := 0x00000001

/-- `PROC_EVENT_EXEC`. -/
def procEventExec : ℕ := 0x00000002

/-- `PROC_EVENT_UID`. -/
def procEventUid : ℕ := 0x00000004

/-- `PROC_EVENT_GID`. -/
def procEventGid : ℕ := 0x00000040

/-- `PROC_EVENT_COMM`. -/
def procEventComm : ℕ := 0x00000200

/-- `PROC_EVENT_EXIT`. -/
def procEventExit : ℕ := 0x80000000

section Event
variable (m : Mem) (a : ℕ)

def what : ℕ := readLe m a 4

def timestampNs : ℕ := readLe m (a + 8) 8

/-- An unsigned number of the event data. -/
def dataU32 (off : ℕ) : ℕ := readLe m (a + off) 4

/-- A pid of the event data. -/
def dataPid (off : ℕ) : Pid := toInt32 (dataU32 m a off)

/-- The name of a comm event, if it ends within its 16 bytes. -/
def commName : Option Comm :=
  let bytes := cstr ((List.range 16).map fun i => m (a + 24 + i))
  if h : bytes.length ≤ 15 ∧ 0 ∉ bytes then some ⟨bytes, h.1, h.2⟩ else none

/-- The data of the event at `a`; none if it is a name that does not end. -/
def eventData : Option EventData :=
  if what m a = procEventFork then some (.fork (dataPid m a 16) (dataPid m a 24))
  else if what m a = procEventExec then some (.exec (dataPid m a 16) (dataPid m a 20))
  else if what m a = procEventExit then some (.exit (dataPid m a 16) (dataU32 m a 24))
  else if what m a = procEventComm then (commName m a).map (.comm (dataPid m a 16))
  else if what m a = procEventUid then
    some (.uid (dataPid m a 16) (dataU32 m a 24) (dataU32 m a 28))
  else if what m a = procEventGid then
    some (.gid (dataPid m a 16) (dataU32 m a 24) (dataU32 m a 28))
  else some (.other (what m a))

/-- The event at `a`. -/
def procEvent : Option ProcEvent := (eventData m a).map fun data => ⟨timestampNs m a, data⟩

/-- `read_even` on the event at `a`. A name that does not end in its 16 bytes would be copied past
the array of the record; if there is a record, this counts as a crash. -/
def readEvenAt (fuel : ℕ) (w : ℕ → ℕ → World) (s : State) : Outcome State :=
  match procEvent m a with
  | some even => readEven fuel even (w a) s
  | none =>
    match procLook s (dataPid m a 16) with
    | none => .ret s
    | some _ => .crash

end Event

end Serie.Model.Reci
