import Serie.Log.Ticks
import Serie.System.Refine

/-! # The end of the program

After an interrupt the program comes to its end by itself: a bounded number of steps are left, apart
from signals and from the records that its last flush visits, whatever is received and in whatever
order signals arrive (`bounded_of_interrupt`). What it holds depends on the place in the program
only, and at the end it holds nothing but the timer, if the table could not be made
(`held_of_run`). -/

namespace Serie.System.Stop

open Serie.Lib.CText Serie.Lib.Decimal Serie.Lib.Memory Serie.Lib.Trace Serie.Lib.Simulation
open Serie.Model.Record Serie.Model.Table Serie.Model.Conn Serie.Model.Logg Serie.Model.Main
open Serie.Model.Reci Serie.Model.Program Serie.Model.Runs Serie.Log Serie.Log.Line
open Serie.Log.Ticks (buffAfter loggProc_of_none records_forked)
open Serie.System.Refine (forkBytes noMem)

/-! ### The steps after an interrupt -/

/-- A call of `recvmsg`. -/
def receives : Act → Bool
  | .recv => true
  | _ => false

/-- A message of a datagram. -/
def handles : Act → Bool
  | .skip | .even => true
  | _ => false

/-- The end of a flush. -/
def writes : Act → Bool
  | .write _ => true
  | _ => false

/-- Neither a signal nor the visit of a record. -/
def paced : Act → Bool
  | .signal _ | .visit _ => false
  | _ => true

/-- The calls of `recvmsg` that are left. -/
def recvLeft : At → ℕ
  | .recv => 1
  | _ => 0

/-- The messages that are left: each takes at least its header. -/
def handleLeft : At → ℕ
  | .recv => buffSize / nlmsgHdrlen
  | .head _ _ len => len.toNat / nlmsgHdrlen
  | _ => 0

/-- The writes that are left. -/
def writeLeft : At → ℕ
  | .recv | .head _ _ _ | .test | .parse _ _ => 1
  | _ => 0

/-- The steps that are left. -/
def left : At → ℕ
  | .exit => 0
  | .dest => 1
  | .close => 2
  | .unre => 3
  | .dele => 4
  | .loop => 5
  | .clear | .regi => 6
  | .parse _ _ | .tablInit => 7
  | .test | .calloc => 8
  | .head _ _ len => 9 + len.toNat / nlmsgHdrlen
  | .timer => 9
  | .crea => 10
  | .recv => 10 + buffSize / nlmsgHdrlen

/-- No more than the buffer is left of a datagram. -/
def InBuffer (b : Machine) : Prop :=
  match b.place with
  | .head _ _ len => len ≤ buffSize
  | _ => True

/-- The steps of the four kinds are paid for. -/
def Pays (p : At) (l : Act) (q : At) : Prop :=
  (receives l).toNat + recvLeft q ≤ recvLeft p ∧ (handles l).toNat + handleLeft q ≤ handleLeft p ∧
    (writes l).toNat + writeLeft q ≤ writeLeft p ∧ (paced l).toNat + left q ≤ left p

instance (p : At) (l : Act) (q : At) : Decidable (Pays p l q) :=
  inferInstanceAs (Decidable (_ ∧ _ ∧ _ ∧ _))

section Step
variable {b b' : Machine} {l : Act}

/-- A message takes at least its header of what is left. -/
theorem next_le {m : Mem} {off : ℕ} {len : ℤ} (h : nlmsgOk m off len = true) :
    len - nlmsgAlign (nlmsgLen m off) ≤ len - nlmsgHdrlen ∧ (nlmsgHdrlen : ℤ) ≤ len := by
  unfold nlmsgOk at h
  obtain ⟨hlen, hhdr, -⟩ := of_decide_eq_true h
  unfold nlmsgAlign
  unfold nlmsgHdrlen at *
  omega

theorem received_place (beyond : Mem) (recv : Recv) (b : Machine) :
    (received beyond recv b).running = b.running ∧ ((received beyond recv b).place = .test ∨
      ∃ m len, (received beyond recv b).place = .head m 0 len ∧ len ≤ buffSize) := by
  cases recv with
  | error errno => exact ⟨rfl, Or.inl rfl⟩
  | dgram bytes nlPid =>
    unfold received
    dsimp only
    split_ifs
    · exact ⟨rfl, Or.inl rfl⟩
    · exact ⟨rfl, Or.inl rfl⟩
    · refine ⟨rfl, Or.inr ⟨_, _, rfl, ?_⟩⟩
      rw [List.length_take]
      omega

theorem InBuffer.step (h : InBuffer b) (hl : Exec b l b') : InBuffer b' := by
  have hnext : ∀ {m : Mem} {off : ℕ} {len : ℤ} {c : Machine}, b.place = .head m off len →
      nlmsgOk m off len = true → c.place = nlmsgNext m off len → InBuffer c := by
    intro m off len c hb hok hc
    unfold InBuffer at h ⊢
    rw [hb] at h
    rw [hc]
    have := next_le hok
    show len - nlmsgAlign (nlmsgLen m off) ≤ (buffSize : ℤ)
    dsimp only at h
    omega
  cases hl with
  | signal hc sig => cases sig <;> exact h
  | crea hb _ _ => unfold crea; split_ifs <;> trivial
  | timer hb _ _ => unfold timerSetup; split_ifs <;> trivial
  | calloc hb _ => unfold callocTable; split_ifs <;> trivial
  | tablInit hb calloc => cases calloc <;> trivial
  | loop hb => unfold InBuffer; split_ifs <;> trivial
  | recv hb beyond recv =>
    unfold InBuffer
    obtain ⟨-, hp | ⟨m, len, hp, hle⟩⟩ := received_place beyond recv b
    · rw [hp]; trivial
    · rw [hp]; exact hle
  | skip hb hok hs => exact hnext hb hok rfl
  | @even m off len _ _ _ hb hok hs hr =>
    by_cases hd : nlmsgType m off = nlmsgDone
    · unfold InBuffer evenRead
      rw [if_pos hd]
      trivial
    · exact hnext hb hok (if_neg hd)
  | test hb => unfold InBuffer testFlag; split_ifs <;> trivial
  | regi | reci | visit | write | clear | dele | unre | close | dest => trivial

theorem running_step (hr : b.running = false) (hl : Exec b l b') : b'.running = false := by
  cases hl with
  | signal hc sig => cases sig <;> first | rfl | exact hr
  | crea hb _ _ => unfold crea; split_ifs <;> exact hr
  | timer hb _ _ => unfold timerSetup; split_ifs <;> exact hr
  | calloc hb _ => unfold callocTable; split_ifs <;> exact hr
  | tablInit hb calloc => cases calloc <;> exact hr
  | recv hb beyond recv => exact (received_place beyond recv b).1.trans hr
  | _ => exact hr

theorem pays_head {m : Mem} {off : ℕ} {len : ℤ} (hok : nlmsgOk m off len = true) {l : Act}
    (hl : l = .skip ∨ l = .even) : Pays (.head m off len) l (nlmsgNext m off len) := by
  have := next_le hok
  unfold Pays nlmsgNext nlmsgHdrlen at *
  rcases hl with rfl | rfl <;>
    simp only [receives, handles, writes, paced, recvLeft, handleLeft, writeLeft, left,
      nlmsgHdrlen, Bool.toNat_true, Bool.toNat_false] <;> omega

/-- **Every step after an interrupt is paid for.** -/
theorem pays (hr : b.running = false) (hl : Exec b l b') :
    Pays b.place l b'.place := by
  cases hl with
  | signal hc sig => cases sig <;> simp [Pays, receives, handles, writes, paced, catchSignal]
  | crea hb _ _ =>
    rw [hb]
    unfold crea
    split_ifs
    · exact (by decide : Pays .crea .setup .timer)
    · exact (by decide : Pays .crea .setup .exit)
  | timer hb _ _ =>
    rw [hb]
    unfold timerSetup
    split_ifs
    · exact (by decide : Pays .timer .setup .calloc)
    · exact (by decide : Pays .timer .setup .exit)
  | calloc hb _ =>
    rw [hb]
    unfold callocTable
    split_ifs
    · exact (by decide : Pays .calloc .setup .tablInit)
    · exact (by decide : Pays .calloc .setup .exit)
  | tablInit hb calloc =>
    rw [hb]
    cases calloc with
    | true => exact (by decide : Pays .tablInit .setup .regi)
    | false => exact (by decide : Pays .tablInit .setup .exit)
  | regi hb => rw [hb]; exact (by decide : Pays .regi .setup .loop)
  | loop hb => rw [hb, hr]; exact (by decide : Pays .loop .loop .dele)
  | recv hb beyond recv =>
    rw [hb]
    obtain ⟨-, hp | ⟨m, len, hp, hle⟩⟩ := received_place beyond recv b
    · rw [hp]
      exact (by decide : Pays .recv .recv .test)
    · rw [hp]
      unfold buffSize at hle
      simp [Pays, receives, handles, writes, paced, recvLeft, handleLeft, writeLeft, left, buffSize,
        nlmsgHdrlen]
      omega
  | skip hb hok hs => rw [hb]; exact pays_head hok (Or.inl rfl)
  | @even m off len _ _ _ hb hok hs hr =>
    rw [hb]
    unfold evenRead
    by_cases hd : nlmsgType m off = nlmsgDone
    · have hlen := (next_le hok).2
      rw [if_pos hd]
      simp [Pays, receives, handles, writes, paced, recvLeft, handleLeft, writeLeft, left]
      unfold nlmsgHdrlen at *
      omega
    · rw [if_neg hd]
      exact pays_head hok (Or.inr rfl)
  | reci hb hok =>
    rw [hb]
    simp [Pays, receives, handles, writes, paced, recvLeft, handleLeft, writeLeft, left]
  | test hb =>
    rw [hb]
    unfold testFlag
    split_ifs <;>
      simp [Pays, receives, handles, writes, paced, recvLeft, handleLeft, writeLeft, left]
  | visit hb hv =>
    rw [hb]
    simp [Pays, receives, handles, writes, paced, recvLeft, handleLeft, writeLeft, left]
  | write hb fopen =>
    rw [hb]
    simp [Pays, receives, handles, writes, paced, recvLeft, handleLeft, writeLeft, left, flushed]
  | clear hb => rw [hb]; exact (by decide : Pays .clear .clear .loop)
  | dele hb => rw [hb]; exact (by decide : Pays .dele .finish .unre)
  | unre hb => rw [hb]; exact (by decide : Pays .unre .finish .close)
  | close hb => rw [hb]; exact (by decide : Pays .close .finish .dest)
  | dest hb => rw [hb]; exact (by decide : Pays .dest .finish .exit)

end Step

theorem left_le {b : Machine} (h : InBuffer b) :
    recvLeft b.place ≤ 1 ∧ handleLeft b.place ≤ 256 ∧ writeLeft b.place ≤ 1 ∧
      left b.place ≤ 266 := by
  unfold InBuffer at h
  rcases hb : b.place with _ | _ | _ | _ | _ | _ | _ | ⟨m, off, len⟩ | _ | _ | _ | _ | _ | _ | _ | _
  all_goals rw [hb] at h
  all_goals
    simp [recvLeft, handleLeft, writeLeft, left, buffSize, nlmsgHdrlen] at h ⊢
  omega

/-- **After an interrupt the program ends by itself**: at most one datagram is received, at most 256
messages are handled and at most one flush is written, and apart from signals and from the visits of
that flush, at most 266 steps are left. -/
theorem bounded_of_interrupt {pre post : List (Act × Machine)} (h : Steps Exec boot (pre ++ post))
    (hr : (final boot pre).running = false) :
    (post.countP fun x => receives x.1) ≤ 1 ∧ (post.countP fun x => handles x.1) ≤ 256 ∧
      (post.countP fun x => writes x.1) ≤ 1 ∧ (post.countP fun x => paced x.1) ≤ 266 := by
  obtain ⟨hpre, hpost⟩ := steps_append.mp h
  have hbuff : InBuffer (final boot pre) :=
    hpre.final (J := InBuffer) (fun _ _ _ h hl => h.step hl) trivial
  have hkeep : ∀ b l b', b.running = false ∧ InBuffer b → Exec b l b' →
      b'.running = false ∧ InBuffer b' :=
    fun b l b' hJ hl => ⟨running_step hJ.1 hl, hJ.2.step hl⟩
  have hJ : (final boot pre).running = false ∧ InBuffer (final boot pre) := ⟨hr, hbuff⟩
  have h1 := Steps.countP_le (φ := fun b : Machine => recvLeft b.place) hkeep
    (fun b l b' hJ hl => (pays hJ.1 hl).1) hJ hpost
  have h2 := Steps.countP_le (φ := fun b : Machine => handleLeft b.place) hkeep
    (fun b l b' hJ hl => (pays hJ.1 hl).2.1) hJ hpost
  have h3 := Steps.countP_le (φ := fun b : Machine => writeLeft b.place) hkeep
    (fun b l b' hJ hl => (pays hJ.1 hl).2.2.1) hJ hpost
  have h4 := Steps.countP_le (φ := fun b : Machine => left b.place) hkeep
    (fun b l b' hJ hl => (pays hJ.1 hl).2.2.2) hJ hpost
  have hle := left_le hbuff
  omega

/-! ### A run -/

theorem dataPid_eq {m : Mem} {a off n : ℕ} (hn : n < 2 ^ 31)
    (h : Holds m (a + off) (leBytes 4 n)) : dataPid m a off = n := by
  have hu : dataU32 m a off = n := (readLe_eq_iff (by omega)).mpr h
  rw [dataPid, hu, toInt32_of_lt hn]

theorem procEvent_forkBytes : procEvent (buffMem forkBytes noMem) (evenAddr 0) =
    some ⟨1000000000, .fork 1 2⟩ := by
  have hwhat : what (buffMem forkBytes noMem) (evenAddr 0) = procEventFork :=
    (readLe_eq_iff (by decide)).mpr (by decide)
  have htime : timestampNs (buffMem forkBytes noMem) (evenAddr 0) = 1000000000 :=
    (readLe_eq_iff (by decide)).mpr (by decide)
  have hpare : dataPid (buffMem forkBytes noMem) (evenAddr 0) 16 = 1 :=
    dataPid_eq (by decide) (by decide)
  have hchil : dataPid (buffMem forkBytes noMem) (evenAddr 0) 24 = 2 :=
    dataPid_eq (by decide) (by decide)
  rw [procEvent, eventData, if_pos hwhat, htime, hpare, hchil]
  rfl

theorem readEvenAt_forkBytes : readEvenAt (buffMem forkBytes noMem) (evenAddr 0) 0
    (fun _ => answers [(1, ['0']), (2, ['1'])]) init = .ret Ticks.forked := by
  rw [readEvenAt, procEvent_forkBytes]
  rfl

/-- The setup, and an interrupt in front of `recvmsg`. -/
def interruptedSetup : List (Act × Machine) :=
  let b₁ := crea true true boot
  let b₂ := timerSetup true true b₁
  let b₃ := callocTable true b₂
  let b₄ := tablInit true b₃
  let b₅ := { b₄ with place := .loop }
  let b₆ := { b₅ with place := .recv }
  [(.setup, b₁), (.setup, b₂), (.setup, b₃), (.setup, b₄), (.setup, b₅), (.loop, b₆),
    (.signal .sigint, catchSignal .sigint b₆)]

/-- A fork is still received and handled, and a tick comes: its two records are logged. -/
def wayOut : List (Act × Machine) :=
  let b₁ := received noMem (.dgram forkBytes 0) (final boot interruptedSetup)
  let b₂ := evenRead (buffMem forkBytes noMem) 0 76 Ticks.forked b₁
  let b₃ := catchSignal .sigusr1 b₂
  let b₄ := testFlag b₃
  let x₁ := buffAfter Ticks.forked timeless 0 buffInit
  let b₅ := { b₄ with place := .parse [1] x₁ }
  let x₂ := buffAfter Ticks.forked timeless 1 x₁
  let b₆ := { b₅ with place := .parse [] x₂ }
  let b₇ := flushed true x₂ b₆
  let b₈ := { b₇ with place := .loop, loggRun := false }
  let b₉ := { b₈ with place := .dele }
  [(.recv, b₁), (.even, b₂), (.signal .sigusr1, b₃), (.test, b₄), (.visit timeless, b₅),
    (.visit timeless, b₆), (.write true, b₇), (.clear, b₈), (.loop, b₉)]

theorem wayOut_steps : Steps Exec boot (interruptedSetup ++ wayOut) := by
  have hplace : (testFlag (catchSignal .sigusr1 (evenRead (buffMem forkBytes noMem) 0 76
      Ticks.forked (received noMem (.dgram forkBytes 0) (final boot interruptedSetup))))).place =
        .parse [0, 1] buffInit := by
    show At.parse (records Ticks.forked) buffInit = _
    rw [records_forked]
  have h₀ : loggProc Ticks.forked timeless 0 buffInit = .ok _ := loggProc_of_none (by decide)
  have h₁ : loggProc Ticks.forked timeless 1 (buffAfter Ticks.forked timeless 0 buffInit) =
      .ok _ := loggProc_of_none (by decide)
  exact ⟨.crea rfl true true, .timer rfl true true, .calloc rfl true, .tablInit rfl true,
    .regi rfl, .loop rfl, .signal rfl .sigint, .recv rfl noMem (.dgram forkBytes 0),
    .even rfl (by decide) (by decide) readEvenAt_forkBytes, .signal rfl .sigusr1, .test rfl,
    .visit hplace h₀, .visit rfl h₁, .write rfl true, .clear rfl, .loop rfl, trivial⟩

theorem bounded_of_interrupt_wayOut :
    (wayOut.countP fun x => receives x.1) ≤ 1 ∧ (wayOut.countP fun x => handles x.1) ≤ 256 ∧
      (wayOut.countP fun x => writes x.1) ≤ 1 ∧ (wayOut.countP fun x => paced x.1) ≤ 266 :=
  bounded_of_interrupt wayOut_steps rfl

/-! ### What the program holds -/

/-- What the program holds, until its end. -/
def heldAt : At → Held
  | .crea => ⟨false, false, false, false⟩
  | .timer => ⟨true, false, false, false⟩
  | .calloc => ⟨true, true, false, false⟩
  | .tablInit => ⟨true, true, true, false⟩
  | .unre | .close => ⟨true, false, true, true⟩
  | .dest => ⟨false, false, true, true⟩
  | .exit => ⟨false, false, false, false⟩
  | _ => ⟨true, true, true, true⟩

/-- How far the setup is: the timer is not set yet, or the table is being made, or it was made. -/
def phase : At → ℕ
  | .crea | .timer => 0
  | .calloc | .tablInit => 1
  | .exit => 3
  | _ => 2

/-- The run came to a phase. -/
def Reached (tr : List (Act × Machine)) (n : ℕ) : Prop := ∃ x ∈ tr, phase x.2.place = n

/-- The run ended while the table was being made. -/
def Aborted (tr : List (Act × Machine)) : Prop := Reached tr 1 ∧ ¬Reached tr 2

theorem reached_concat {tr : List (Act × Machine)} {l : Act} {b : Machine} {n : ℕ} :
    Reached (tr ++ [(l, b)]) n ↔ Reached tr n ∨ phase b.place = n := by
  simp [Reached, or_and_right, exists_or]

/-- What is held is told by the place, and at the end by whether the run was aborted. -/
structure Holding (tr : List (Act × Machine)) (b : Machine) : Prop where
  held : b.place ≠ .exit → b.held = heldAt b.place
  reached : b.place ≠ .exit → ∀ n, n = 1 ∨ n = 2 → (Reached tr n ↔ n ≤ phase b.place)
  exit : b.place = .exit → b.held.sock = false ∧ b.held.table = false ∧ b.held.buckets = false ∧
    (b.held.timer = true ↔ Aborted tr)

theorem holding_boot : Holding [] boot where
  held _ := rfl
  reached _ n hn := by
    have hphase : phase boot.place = 0 := rfl
    simp [Reached, hphase]
    omega
  exit h := by cases h

section Holding
variable {tr : List (Act × Machine)} {b b' : Machine} {l : Act}

theorem Holding.goes (h : Holding tr b) (hb : b.place ≠ .exit) (hq : b'.place ≠ .exit)
    (hle : phase b.place ≤ phase b'.place) (hlt : phase b'.place ≤ phase b.place + 1)
    (hheld : b'.held = heldAt b'.place) : Holding (tr ++ [(l, b')]) b' where
  held _ := hheld
  reached _ n hn := by
    rw [reached_concat, h.reached hb n hn]
    omega
  exit he := absurd he hq

theorem Holding.ends (h : Holding tr b) (hb : b.place ≠ .exit) (hq : b'.place = .exit)
    (hle : phase b.place ≤ 2)
    (hheld : b'.held = ⟨false, decide (phase b.place = 1), false, false⟩) :
    Holding (tr ++ [(l, b')]) b' where
  held he := absurd hq he
  reached he := absurd hq he
  exit _ := by
    have h3 : phase b'.place = 3 := by rw [hq]; rfl
    rw [hheld, Aborted, reached_concat, reached_concat, h.reached hb 1 (Or.inl rfl),
      h.reached hb 2 (Or.inr rfl), h3]
    refine ⟨rfl, rfl, rfl, ?_⟩
    rw [decide_eq_true_iff]
    omega

theorem Holding.stays (h : Holding tr b) (hb : b.place ≠ .exit) (hq : b'.place ≠ .exit)
    (hphase : phase b'.place = phase b.place) (hat : heldAt b'.place = heldAt b.place)
    (hheld : b'.held = b.held) : Holding (tr ++ [(l, b')]) b' :=
  h.goes hb hq hphase.ge (by omega) (by rw [hheld, h.held hb, hat])

theorem place_ne_exit (hl : Exec b l b') : b.place ≠ .exit := by
  intro he
  cases hl
  case signal hc sig =>
    rw [he] at hc
    cases hc
  all_goals simp_all

/-- **A step** sets, frees and closes what the place says. -/
theorem Holding.step (h : Holding tr b) (hl : Exec b l b') : Holding (tr ++ [(l, b')]) b' := by
  have hne := place_ne_exit hl
  have hheld := h.held hne
  cases hl with
  | signal hc sig => cases sig <;> exact h.stays hne hne rfl rfl rfl
  | crea hb _ _ =>
    rw [hb] at hheld
    unfold crea
    split_ifs
    · exact h.goes hne At.noConfusion (by simp [hb, phase]) (by simp [hb, phase])
        (by simp [hheld, heldAt])
    · exact h.ends hne rfl (by simp [hb, phase]) (by simp [hb, hheld, heldAt, phase])
  | timer hb _ _ =>
    rw [hb] at hheld
    unfold timerSetup
    split_ifs
    · exact h.goes hne At.noConfusion (by simp [hb, phase]) (by simp [hb, phase])
        (by simp [hheld, heldAt])
    · exact h.ends hne rfl (by simp [hb, phase]) (by simp [hb, hheld, heldAt, phase])
  | calloc hb _ =>
    rw [hb] at hheld
    unfold callocTable
    split_ifs
    · exact h.goes hne At.noConfusion (by simp [hb, phase]) (by simp [hb, phase])
        (by simp [hheld, heldAt])
    · exact h.ends hne rfl (by simp [hb, phase]) (by simp [hb, hheld, heldAt, phase])
  | tablInit hb calloc =>
    rw [hb] at hheld
    cases calloc with
    | true =>
      exact h.goes hne At.noConfusion (by simp [hb, phase, tablInit, procTablInit])
        (by simp [hb, phase, tablInit, procTablInit])
        (by simp [hheld, heldAt, tablInit, procTablInit])
    | false =>
      exact h.ends hne rfl (by simp [hb, phase])
        (by simp [hb, hheld, heldAt, phase, tablInit, procTablInit])
  | regi hb => exact h.stays hne At.noConfusion (by rw [hb]; rfl) (by rw [hb]; rfl) rfl
  | loop hb =>
    split_ifs <;> exact h.stays hne At.noConfusion (by rw [hb]; rfl) (by rw [hb]; rfl) rfl
  | recv hb beyond recv =>
    have hrest : (received beyond recv b).held = b.held := by
      cases recv with
      | error errno => rfl
      | dgram bytes nlPid =>
        unfold received
        dsimp only
        split_ifs <;> rfl
    obtain ⟨-, hp | ⟨m, len, hp, -⟩⟩ := received_place beyond recv b
    · exact h.stays hne (by rw [hp]; exact At.noConfusion) (by rw [hb, hp]; rfl)
        (by rw [hb, hp]; rfl) hrest
    · exact h.stays hne (by rw [hp]; exact At.noConfusion) (by rw [hb, hp]; rfl)
        (by rw [hb, hp]; rfl) hrest
  | skip hb hok hs => exact h.stays hne At.noConfusion (by rw [hb]; rfl) (by rw [hb]; rfl) rfl
  | even hb hok hs hr =>
    unfold evenRead
    split_ifs <;> exact h.stays hne At.noConfusion (by rw [hb]; rfl) (by rw [hb]; rfl) rfl
  | reci hb hok => exact h.stays hne At.noConfusion (by rw [hb]; rfl) (by rw [hb]; rfl) rfl
  | test hb =>
    unfold testFlag
    split_ifs <;> exact h.stays hne At.noConfusion (by rw [hb]; rfl) (by rw [hb]; rfl) rfl
  | visit hb hv => exact h.stays hne At.noConfusion (by rw [hb]; rfl) (by rw [hb]; rfl) rfl
  | write hb fopen => exact h.stays hne At.noConfusion (by rw [hb]; rfl) (by rw [hb]; rfl) rfl
  | clear hb => exact h.stays hne At.noConfusion (by rw [hb]; rfl) (by rw [hb]; rfl) rfl
  | dele hb =>
    rw [hb] at hheld
    exact h.goes hne At.noConfusion (by simp [hb, phase]) (by simp [hb, phase])
      (by simp [hheld, heldAt])
  | unre hb => exact h.stays hne At.noConfusion (by rw [hb]; rfl) (by rw [hb]; rfl) rfl
  | close hb =>
    rw [hb] at hheld
    exact h.goes hne At.noConfusion (by simp [hb, phase]) (by simp [hb, phase])
      (by simp [hheld, heldAt])
  | dest hb =>
    rw [hb] at hheld
    exact h.ends hne rfl (by simp [hb, phase]) (by simp [hb, hheld, heldAt, phase, destroyed])

end Holding

/-- **What the program holds**: until its end, what its place says; at its end nothing, except that
the timer is left exactly if the run was aborted. -/
theorem held_of_run {tr : List (Act × Machine)} (h : Steps Exec boot tr) :
    ((final boot tr).place ≠ .exit → (final boot tr).held = heldAt (final boot tr).place) ∧
      ((final boot tr).place = .exit →
        (final boot tr).held.sock = false ∧ (final boot tr).held.table = false ∧
          (final boot tr).held.buckets = false ∧
            ((final boot tr).held.timer = true ↔ Aborted tr)) := by
  have hh : Holding tr (final boot tr) := by
    refine h.history (K := fun tr => Holding tr (final boot tr)) holding_boot ?_
    intro tr l b _ hk hl
    rw [final_concat]
    exact hk.step hl
  exact ⟨hh.held, hh.exit⟩

/-- There is no memory for the table. -/
def abortedRun : List (Act × Machine) :=
  let b₁ := crea true true boot
  let b₂ := timerSetup true true b₁
  [(.setup, b₁), (.setup, b₂), (.setup, callocTable false b₂)]

theorem held_of_run_abortedRun : Aborted abortedRun := by
  have hsteps : Steps Exec boot abortedRun :=
    ⟨.crea rfl true true, .timer rfl true true, .calloc rfl false, trivial⟩
  exact ((held_of_run hsteps).2 rfl).2.2.2.mp rfl

end Serie.System.Stop
