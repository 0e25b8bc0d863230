import Serie.Wire.Heads

/-! # Which messages are dispatched

A datagram is a list of messages, each padded to a multiple of four bytes, the last one perhaps less
far. Of its messages `read_even` is to be called for those that are neither errors nor noops and
carry the id of the process events, in their order, up to the first of them of type `NLMSG_DONE`
(`dispatched`). `sock_reci` compares the id without a look at the length of the message, so the
bytes behind a message that breaks off inside the id may complete it. It calls `read_even` for
exactly the right messages if and only if that happens to none that it comes to
(`sockReci_dispatches_iff`). -/

namespace Serie.Wire.Dispatch

open Serie.Lib.CText Serie.Lib.Memory Serie.Model.Table Serie.Model.Reci Serie.Wire.Heads

/-- A netlink message. -/
structure Message where
  type : UInt16
  flags : UInt16
  seq : UInt32
  pid : UInt32
  payload : List Byte

/-- The id of the process events. -/
def idBytes : List Byte := leBytes 4 cnIdxProc ++ leBytes 4 cnValProc

namespace Message
variable (msg : Message)

/-- `nlmsg_len`. -/
def len : ℕ := nlmsgHdrlen + msg.payload.length

/-- The bytes of the message. -/
def bytes : List Byte :=
  leBytes 4 msg.len ++ (leBytes 2 msg.type.toNat ++ (leBytes 2 msg.flags.toNat ++
    (leBytes 4 msg.seq.toNat ++ (leBytes 4 msg.pid.toNat ++ msg.payload))))

/-- An error or a noop. -/
def Skipped : Prop := msg.type.toNat = nlmsgError ∨ msg.type.toNat = nlmsgNoop

instance : Decidable msg.Skipped := inferInstanceAs (Decidable (_ ∨ _))

/-- The message is to be dispatched. -/
def wanted : Bool := ¬msg.Skipped ∧ idBytes <+: msg.payload

/-- The message at `off` does not carry the id of the process events, but with the bytes behind it
it does. -/
def Completed (m : Mem) (off : ℕ) : Prop :=
  ¬msg.Skipped ∧ ¬idBytes <+: msg.payload ∧ Holds m (off + nlmsgHdrlen) idBytes

instance (m : Mem) (off : ℕ) : Decidable (msg.Completed m off) :=
  inferInstanceAs (Decidable (_ ∧ _ ∧ _))

/-- The number of bytes behind the message up to the next one. -/
def padLen : ℕ := nlmsgAlign msg.len - msg.len

end Message

/-- The bytes of messages and of their padding. -/
def encode (l : List (Message × List Byte)) : List Byte := l.flatMap fun x => x.1.bytes ++ x.2

/-- Every message is padded, the last one perhaps less far. -/
def Padded : List (Message × List Byte) → Prop
  | [] => True
  | x :: l => x.2.length ≤ x.1.padLen ∧ (l ≠ [] → x.2.length = x.1.padLen) ∧ Padded l

/-- A datagram that fits into the buffer. -/
structure Datagram where
  parts : List (Message × List Byte)
  padded : Padded parts
  fits : (encode parts).length ≤ buffSize

/-- The messages with their offsets, the first one at `off`. -/
def located : ℕ → List Message → List (ℕ × Message)
  | _, [] => []
  | off, msg :: l => (off, msg) :: located (off + nlmsgAlign msg.len) l

/-- The messages up to the first one of type `NLMSG_DONE`. -/
def upToDone : List (ℕ × Message) → List (ℕ × Message)
  | [] => []
  | x :: l => x :: if x.2.type.toNat = nlmsgDone then [] else upToDone l

/-- The messages of a datagram for which `read_even` is to be called. -/
def dispatched (l : List (ℕ × Message)) : List (ℕ × Message) :=
  upToDone (l.filter fun x => x.2.wanted)

/-- The messages up to the last one for which `read_even` is to be called. -/
def reached : List (ℕ × Message) → List (ℕ × Message)
  | [] => []
  | x :: l => x :: if x.2.wanted ∧ x.2.type.toNat = nlmsgDone then [] else reached l

namespace Datagram
variable (d : Datagram)

def bytes : List Byte := encode d.parts

def msgs : List Message := d.parts.map Prod.fst

/-- No message that the loop comes to is completed by the bytes behind it. -/
def Whole (beyond : Mem) : Prop :=
  ∀ x ∈ reached (located 0 d.msgs), ¬x.2.Completed (buffMem d.bytes beyond) x.1

instance (beyond : Mem) : Decidable (d.Whole beyond) :=
  inferInstanceAs (Decidable (∀ x ∈ reached (located 0 d.msgs), _))

end Datagram

/-! ### One message -/

section Message
variable {m : Mem} {off : ℕ} {msg : Message}

theorem length_bytes : msg.bytes.length = msg.len := by
  simp [Message.bytes, Message.len, nlmsgHdrlen]
  omega

theorem holds_message (h : Holds m off msg.bytes) (hl : msg.len < 256 ^ 4) :
    nlmsgLen m off = msg.len ∧ nlmsgType m off = msg.type.toNat := by
  simp only [Message.bytes, holds_append, length_leBytes] at h
  obtain ⟨h1, h2, -⟩ := h
  exact ⟨h1.readLe hl, h2.readLe msg.type.toNat_lt⟩

theorem holds_payload (h : Holds m off msg.bytes) : Holds m (off + nlmsgHdrlen) msg.payload := by
  simp only [Message.bytes, holds_append, length_leBytes] at h
  exact h.2.2.2.2.2

theorem id_iff : ¬(cnIdx m off ≠ cnIdxProc ∨ cnVal m off ≠ cnValProc) ↔
    Holds m (off + nlmsgHdrlen) idBytes := by
  rw [not_or, not_not, not_not, idBytes, holds_append, length_leBytes]
  exact Iff.and (readLe_eq_iff (by decide)) (readLe_eq_iff (by decide))

/-- **A message is dispatched exactly if it is to be**, or if the bytes behind it complete it. -/
theorem dispatches_iff (h : Holds m off msg.bytes) (hl : msg.len < 256 ^ 4) :
    dispatches m off = true ↔ msg.wanted = true ∨ msg.Completed m off := by
  obtain ⟨-, hty⟩ := holds_message h hl
  have hskip : ¬(nlmsgType m off = nlmsgError ∨ nlmsgType m off = nlmsgNoop) ↔ ¬msg.Skipped := by
    rw [hty]
    rfl
  rw [dispatches, Message.wanted, Message.Completed, decide_eq_true_iff, decide_eq_true_iff, hskip,
    id_iff, ← and_or_left]
  refine and_congr_right fun _ => ⟨fun hid => ?_, ?_⟩
  · by_cases hp : idBytes <+: msg.payload
    · exact Or.inl hp
    · exact Or.inr ⟨hp, hid⟩
  · rintro (hp | ⟨-, hid⟩)
    · exact (holds_payload h).front hp
    · exact hid

theorem mem_of_upToDone {x : ℕ × Message} : ∀ {l : List (ℕ × Message)}, x ∈ upToDone l → x ∈ l
  | y :: l, hx => by
    rcases List.mem_cons.mp hx with rfl | hx
    · exact List.mem_cons_self
    · split_ifs at hx
      · exact absurd hx List.not_mem_nil
      · exact List.mem_cons_of_mem y (mem_of_upToDone hx)

theorem mem_of_dispatched {x : ℕ × Message} {l : List (ℕ × Message)} (hx : x ∈ dispatched l) :
    x ∈ l := List.mem_of_mem_filter (mem_of_upToDone hx)

theorem dispatched_cons_of_neg {l : List (ℕ × Message)} (hw : msg.wanted = false) :
    dispatched ((off, msg) :: l) = dispatched l := by
  rw [dispatched, List.filter_cons_of_neg (by simp [hw])]
  rfl

theorem dispatched_cons_of_pos {l : List (ℕ × Message)} (hw : msg.wanted = true) :
    dispatched ((off, msg) :: l) =
      (off, msg) :: if msg.type.toNat = nlmsgDone then [] else dispatched l := by
  rw [dispatched, List.filter_cons_of_pos (by simp [hw])]
  rfl

/-- **The iteration for a message.** If it is completed by the bytes behind it, the loop calls
`read_even` for it, and no later message lies there. -/
theorem called_head_iff {fuel : ℕ} {len : ℤ} {l : List (ℕ × Message)} (h : Holds m off msg.bytes)
    (hlen : msg.len < 256 ^ 4) (hok : nlmsgOk m off len = true) (hoff : ∀ x ∈ l, off < x.1)
    (hl : called m (heads m fuel (nextOff m off) (len - nlmsgAlign (nlmsgLen m off))) =
      ((dispatched l).map fun x => evenAddr x.1) ↔ ∀ x ∈ reached l, ¬x.2.Completed m x.1) :
    called m (heads m (fuel + 1) off len) =
      ((dispatched ((off, msg) :: l)).map fun x => evenAddr x.1) ↔
        ∀ x ∈ reached ((off, msg) :: l), ¬x.2.Completed m x.1 := by
  obtain ⟨-, hty⟩ := holds_message h hlen
  have hiff := dispatches_iff h hlen
  rw [heads_of_ok hok, called_cons, reached, List.forall_mem_cons]
  by_cases hc : msg.Completed m off
  · have hw : msg.wanted = false := by
      rw [Message.wanted, decide_eq_false_iff_not]
      exact fun hw => hc.2.1 hw.2
    refine iff_of_false (fun he => ?_) fun hall => hall.1 hc
    rw [if_pos (hiff.mpr (Or.inr hc)), dispatched_cons_of_neg hw] at he
    have hmem : evenAddr off ∈ (dispatched l).map fun x => evenAddr x.1 := by
      rw [← he]
      exact List.mem_cons_self
    obtain ⟨x, hx, hxo⟩ := List.mem_map.mp hmem
    have := hoff x (mem_of_dispatched hx)
    unfold evenAddr at hxo
    omega
  have hd : dispatches m off = msg.wanted := by
    rw [Bool.eq_iff_iff, hiff]
    exact or_iff_left hc
  rw [hd]
  rcases hw : msg.wanted with _ | _
  · have hs : stops m off = false := by simp [stops, hd, hw]
    simpa [hs, hc, dispatched_cons_of_neg hw] using hl
  · rw [dispatched_cons_of_pos hw]
    by_cases hdone : msg.type.toNat = nlmsgDone
    · have hs : stops m off = true := by simp [stops, hd, hw, hty, hdone]
      simp [hs, hdone, hc, called]
    · have hs : stops m off = false := by simp [stops, hty, hdone]
      simpa [hs, hdone, hc] using hl

end Message

/-! ### The list of messages -/

section List
variable {m : Mem} {off : ℕ} {l : List (Message × List Byte)}

@[simp] theorem encode_cons (x : Message × List Byte) :
    encode (x :: l) = x.1.bytes ++ (x.2 ++ encode l) := by
  simp [encode]

theorem mem_located (h : Holds m off (encode l)) (hp : Padded l) :
    ∀ x ∈ located off (l.map Prod.fst), Holds m x.1 x.2.bytes := by
  induction l generalizing off with
  | nil => exact fun x hx => absurd hx List.not_mem_nil
  | cons y l ih =>
    obtain ⟨hle, heq, hp⟩ := hp
    rw [encode_cons, holds_append, holds_append, length_bytes] at h
    obtain ⟨h1, -, h2⟩ := h
    intro x hx
    rcases List.mem_cons.mp hx with rfl | hx
    · exact h1
    · have hne : l ≠ [] := by
        rintro rfl
        exact absurd hx List.not_mem_nil
      have hoff : off + y.1.len + y.2.length = off + nlmsgAlign y.1.len := by
        have := le_nlmsgAlign y.1.len
        rw [heq hne, Message.padLen]
        omega
      rw [hoff] at h2
      exact ih h2 hp x hx

theorem le_of_mem_located {x : ℕ × Message} : ∀ {l : List Message} {off : ℕ}, x ∈ located off l →
    off ≤ x.1
  | msg :: l, off, hx => by
    rcases List.mem_cons.mp hx with rfl | hx
    · exact le_rfl
    · exact (Nat.le_add_right _ _).trans (le_of_mem_located hx)

/-- **The visited messages that the loop dispatches** are those that are to be, up to `NLMSG_DONE`,
exactly if none is completed by the bytes behind it. -/
theorem called_heads_iff {fuel : ℕ} (h : Holds m off (encode l)) (hp : Padded l)
    (hl : (encode l).length < 256 ^ 4) (hfuel : (encode l).length < 16 * (fuel + 1)) {len : ℤ}
    (hlen : len ≤ (encode l).length) (hlast : l ≠ [] → len = (encode l).length) :
    called m (heads m fuel off len) =
      ((dispatched (located off (l.map Prod.fst))).map fun x => evenAddr x.1) ↔
        ∀ x ∈ reached (located off (l.map Prod.fst)), ¬x.2.Completed m x.1 := by
  induction l generalizing off fuel len with
  | nil =>
    have hno : nlmsgOk m off len = false := not_ok_of_lt (by simp [encode] at hlen; omega)
    rw [heads_of_not_ok hno]
    exact iff_of_true rfl fun x hx => absurd hx List.not_mem_nil
  | cons y l ih =>
    obtain ⟨hpad, hpadeq, hp⟩ := hp
    have htot : (encode (y :: l)).length = y.1.len + y.2.length + (encode l).length := by
      rw [encode_cons, List.length_append, List.length_append, length_bytes, Nat.add_assoc]
    have hlen' : len = y.1.len + y.2.length + (encode l).length := by
      rw [hlast (List.cons_ne_nil y l), htot]
      push_cast
      rfl
    rw [encode_cons, holds_append, holds_append, length_bytes] at h
    obtain ⟨h1, -, h2⟩ := h
    have hylen : y.1.len < 256 ^ 4 := by omega
    obtain ⟨hn, -⟩ := holds_message h1 hylen
    have h16 : 16 ≤ y.1.len := Nat.le_add_right _ _
    have hal := le_nlmsgAlign y.1.len
    unfold Message.padLen at hpad hpadeq
    have hok : nlmsgOk m off len = true := nlmsgOk_iff.mpr (by rw [hn]; omega)
    obtain ⟨fuel, rfl⟩ : ∃ k, fuel = k + 1 := ⟨fuel - 1, by omega⟩
    refine called_head_iff h1 hylen hok (fun x hx => ?_) ?_
    · have := le_of_mem_located hx
      omega
    rw [nextOff, hn]
    refine ih ?_ hp (by omega) (by omega) (by omega) fun hne => ?_
    · rcases l with _ | ⟨z, l⟩
      · exact holds_nil
      · have := hpadeq (List.cons_ne_nil z l)
        rwa [show off + nlmsgAlign y.1.len = off + y.1.len + y.2.length by omega]
    · have := hpadeq hne
      omega

end List

/-! ### The datagram -/

theorem holds_buffMem {l : List Byte} (h : l.length ≤ buffSize) (beyond : Mem) :
    Holds (buffMem l beyond) 0 l := by
  refine holds_of_getElem fun i hi => ?_
  rw [Nat.zero_add, buffMem, if_pos (lt_of_lt_of_le hi h), List.getD_eq_getElem _ _ hi]

/-- What `sock_reci` does with a datagram: the messages lie at their offsets, and `read_even` is
called for those to be dispatched, one after the other, for every handler. -/
structure Dispatches (d : Datagram) (beyond : Mem) : Prop where
  lie : ∀ x ∈ located 0 d.msgs, Holds (buffMem d.bytes beyond) x.1 x.2.bytes
  calls : ∀ {σ : Type} (readEven : Mem → ℕ → σ → Outcome σ) (s : σ), ∀ fuel ≥ d.bytes.length / 16,
    sockReci readEven beyond fuel (.dgram d.bytes 0) s =
      (callAll (readEven (buffMem d.bytes beyond))
        ((dispatched (located 0 d.msgs)).map fun x => evenAddr x.1) s).bind fun t => .ret (0, t)

/-- The loop over `n` bytes makes at most `n / 16` iterations: it returns if the handlers do, and
never follows more of them. -/
structure Brief (m : Mem) (n : ℕ) : Prop where
  returns : ∀ {σ : Type} (readEven : ℕ → σ → Outcome σ) (s : σ),
    (∀ a t, ∃ u, readEven a t = .ret u) → ∃ t, reciLoop m readEven (n / 16) 0 n s = .ret t
  enough : ∀ {σ : Type} (readEven : ℕ → σ → Outcome σ) (s : σ), ∀ fuel ≥ n / 16,
    reciLoop m readEven fuel 0 n s = reciLoop m readEven (n / 16) 0 n s

theorem brief (m : Mem) (n : ℕ) : Brief m n where
  returns readEven s hret := by
    rw [reciLoop_eq (by omega) (show (n : ℤ) < 16 * ((n / 16 : ℕ) + 1) by omega)]
    exact callAll_ret hret _ s
  enough readEven s fuel hfuel := by
    have h : (n : ℤ) < 16 * ((n / 16 : ℕ) + 1) := by omega
    rw [reciLoop_eq (by omega) h, reciLoop_eq h h]

section Datagram
variable {d : Datagram} {beyond : Mem} {fuel : ℕ}

theorem callAll_record : ∀ (l : List ℕ) (s : List ℕ),
    callAll (fun a t => .ret (t ++ [a])) l s = .ret (s ++ l)
  | [], s => by rw [callAll, List.append_nil]
  | a :: l, s => by
    rw [callAll, Outcome.bind, callAll_record, List.append_assoc]
    rfl

theorem sockReci_called {σ : Type} (readEven : Mem → ℕ → σ → Outcome σ) (s : σ)
    (hfuel : d.bytes.length / 16 ≤ fuel) : sockReci readEven beyond fuel (.dgram d.bytes 0) s =
      (callAll (readEven (buffMem d.bytes beyond)) (called (buffMem d.bytes beyond)
        (heads (buffMem d.bytes beyond) fuel 0 d.bytes.length)) s).bind fun t => .ret (0, t) := by
  have htake : d.bytes.take buffSize = d.bytes := List.take_of_length_le d.fits
  rw [sockReci, htake]
  dsimp only
  by_cases h0 : d.bytes.length = 0
  · rw [if_pos h0, heads_of_not_ok (not_ok_of_lt (by omega))]
    rfl
  · have hlen : (d.bytes.length : ℤ) < 16 * ((fuel : ℤ) + 1) := by omega
    rw [if_neg h0, if_neg (by decide), reciLoop_eq hlen hlen]

theorem called_iff_whole (hfuel : d.bytes.length / 16 ≤ fuel) :
    called (buffMem d.bytes beyond) (heads (buffMem d.bytes beyond) fuel 0 d.bytes.length) =
      ((dispatched (located 0 d.msgs)).map fun x => evenAddr x.1) ↔ d.Whole beyond := by
  have hfits : d.bytes.length ≤ 4096 := d.fits
  have hlen : d.bytes.length < 16 * (fuel + 1) := by omega
  exact called_heads_iff (holds_buffMem d.fits beyond) d.padded (lt_of_le_of_lt hfits (by decide))
    hlen le_rfl fun _ => rfl

theorem mem_of_reached {x : ℕ × Message} : ∀ {l : List (ℕ × Message)}, x ∈ reached l → x ∈ l
  | y :: l, hx => by
    rcases List.mem_cons.mp hx with rfl | hx
    · exact List.mem_cons_self
    · split_ifs at hx
      · exact absurd hx List.not_mem_nil
      · exact List.mem_cons_of_mem y (mem_of_reached hx)

/-- Messages that are as long as an id cannot be completed. -/
theorem whole_of_long (h : ∀ x ∈ located 0 d.msgs, idBytes.length ≤ x.2.payload.length) :
    d.Whole beyond := by
  rintro x hx ⟨-, hno, hid⟩
  have hxl := mem_of_reached hx
  have hlie : Holds (buffMem d.bytes beyond) x.1 x.2.bytes :=
    mem_located (holds_buffMem d.fits beyond) d.padded x hxl
  exact hno (hid.prefix_of_le (holds_payload hlie) (h x hxl))

theorem Dispatches.called_eq (h : Dispatches d beyond) :
    called (buffMem d.bytes beyond)
        (heads (buffMem d.bytes beyond) (d.bytes.length / 16) 0 d.bytes.length) =
      (dispatched (located 0 d.msgs)).map fun x => evenAddr x.1 := by
  have := h.calls (fun _ a t => .ret (t ++ [a])) [] _ le_rfl
  rw [sockReci_called _ _ le_rfl, callAll_record, callAll_record] at this
  simpa [Outcome.bind] using this

end Datagram

/-- **The datagram loop dispatches exactly the right messages** if and only if none of those it
comes to is completed by the bytes behind it. Over any `n` bytes it ends after at most `n / 16`
iterations. -/
theorem sockReci_dispatches_iff (d : Datagram) (beyond : Mem) (m : Mem) (n : ℕ) :
    (Dispatches d beyond ↔ d.Whole beyond) ∧ Brief m n := by
  refine ⟨⟨fun h => (called_iff_whole le_rfl).mp h.called_eq, fun hw => ?_⟩, brief m n⟩
  refine ⟨mem_located (holds_buffMem d.fits beyond) d.padded, fun readEven s fuel hfuel => ?_⟩
  rw [sockReci_called readEven s hfuel, (called_iff_whole hfuel).mpr hw]

/-- An error, a message with another id, two events with a noop between them, the second one of type
`NLMSG_DONE`, and an event behind them, which is not padded. -/
def mixed : Datagram where
  parts := [
    (⟨2, 0, 0, 0, idBytes⟩, []),
    (⟨0, 0, 0, 0, [1, 0, 0, 0, 9]⟩, [0, 0, 0]),
    (⟨0, 0, 0, 0, idBytes ++ [7]⟩, [0, 0, 0]),
    (⟨1, 0, 0, 0, idBytes⟩, []),
    (⟨3, 0, 0, 0, idBytes⟩, []),
    (⟨0, 0, 0, 0, idBytes ++ [8]⟩, [])]
  padded := by simp [Padded, Message.padLen, Message.len, nlmsgAlign, nlmsgHdrlen, idBytes]
  fits := by simp [encode, length_bytes, Message.len, nlmsgHdrlen, idBytes, buffSize]

theorem sockReci_dispatches_iff_mixed :
    (dispatched (located 0 mixed.msgs)).map (fun x => evenAddr x.1) = [84, 136] ∧
      Dispatches mixed (fun _ => 0) ∧ Brief (fun _ => 0) 4096 := by
  obtain ⟨hiff, hbrief⟩ := sockReci_dispatches_iff mixed (fun _ => 0) (fun _ => 0) 4096
  exact ⟨by decide, hiff.mpr (by decide), hbrief⟩

/-- A message with five bytes of payload, the beginning of the id. -/
def brokenOff : Datagram where
  parts := [(⟨3, 0, 0, 0, [1, 0, 0, 0, 1]⟩, [0, 0, 0])]
  padded := by simp [Padded, Message.padLen, Message.len, nlmsgAlign, nlmsgHdrlen]
  fits := by decide

/-- Its padding makes it a process event. -/
theorem not_dispatches_brokenOff : ¬Dispatches brokenOff fun _ => 0 := fun h =>
  absurd h.called_eq (by decide)

end Serie.Wire.Dispatch
