import Serie.Lib.Simulation
import Serie.Model.Program
import Serie.Model.Runs
import Serie.Tree.Shape
import Serie.Wire.Heads

/-! # The program on bytes refines the program on events

Whatever the datagrams are, a run of the whole program is matched by a run of the steps of
`Serie.Model.Main` (`refines`): a message that is handed on is one event or none, and the turns of
the loop in between are no steps at all. So what holds in every run of events holds in every run
of the program, whatever bytes it receives.

The steps of `sock_reci` are those of the function (`exec_of_sockReci`). -/

namespace Serie.System.Refine

open Serie.Lib.CText Serie.Lib.Memory Serie.Lib.Trace Serie.Lib.Simulation Serie.Model.Record
open Serie.Model.Table Serie.Model.Conn Serie.Model.Logg Serie.Model.Main Serie.Model.Reci
open Serie.Model.Program Serie.Model.Runs Serie.Tree.Invariant Serie.Tree.Shape Serie.Wire.Heads

/-- Where the loop of events is. -/
def pcOf : At → Option Pc
  | .crea | .timer | .calloc | .tablInit | .regi | .loop => some .loop
  | .recv | .head _ _ _ => some .reci
  | .test => some .test
  | .parse rest buff => some (.parse rest buff)
  | .clear => some .clear
  | .dele | .unre | .close | .dest => some .dest
  | .exit => none

/-- The two programs agree; the memory is compared until it is destroyed. -/
structure Agrees (b : Machine) (p : Prog) : Prop where
  running : p.running = b.running
  loggRun : p.loggRun = b.loggRun
  file : p.file = b.file
  pc : ∀ pc, pcOf b.place = some pc → p.pc = pc ∧ p.mem = b.mem

section Step
variable {b b' : Machine} {p : Prog} {l : Act}

theorem agrees_boot : Agrees boot start := by
  refine ⟨rfl, rfl, rfl, fun pc h => ?_⟩
  cases h
  exact ⟨rfl, rfl⟩

theorem Agrees.goto (h : Agrees b p) {q : At} {x : Held}
    (hq : pcOf q = pcOf b.place ∨ pcOf q = none) :
    Agrees { b with place := q, held := x } p := by
  refine ⟨h.running, h.loggRun, h.file, fun pc hpc => ?_⟩
  rcases hq with hq | hq
  · exact h.pc pc (hq ▸ hpc)
  · exact absurd (hq.symm.trans hpc) (by simp)

/-- The events of a message are steps in `sock_reci`. -/
theorem moves_of_events : ∀ {tr : List (Input × State)} {p : Prog}, p.pc = .reci →
    Steps Step p.mem tr → ∃ tr', Steps Move p tr' ∧ (final p tr').pc = .reci ∧
      (final p tr').mem = final p.mem tr ∧ (final p tr').running = p.running ∧
      (final p tr').loggRun = p.loggRun ∧ (final p tr').file = p.file
  | [], p, hp, _ => ⟨[], trivial, hp, rfl, rfl, rfl, rfl⟩
  | (i, t) :: tr, p, hp, ⟨h1, h2⟩ => by
    obtain ⟨tr', hst, hpc, hmem, hrest⟩ := moves_of_events (p := handled t p) hp h2
    refine ⟨(.even i, handled t p) :: tr', ⟨.even hp h1, hst⟩, ?_⟩
    rw [final_cons, final_cons]
    exact ⟨hpc, hmem, hrest⟩

theorem moves_one {q : Prog} {l : Label} (h : Move p l q) (hq : Agrees b' q) :
    ∃ tr, Steps Move p tr ∧ Agrees b' (final p tr) :=
  ⟨[(l, q)], ⟨h, trivial⟩, hq⟩

theorem moves_none (h : Agrees b' p) : ∃ tr, Steps Move p tr ∧ Agrees b' (final p tr) :=
  ⟨[], trivial, h⟩

/-- **A message that is handed on** is an event, or changes nothing. -/
theorem Agrees.even (h : Agrees b p) {m : Mem} {off fuel : ℕ} {len : ℤ} {w : ℕ → ℕ → World}
    {t : State} (hb : b.place = .head m off len)
    (hr : readEvenAt m (evenAddr off) fuel w b.mem = .ret t) :
    ∃ tr, Steps Move p tr ∧ Agrees (evenRead m off len t b) (final p tr) := by
  obtain ⟨hpc, hmem⟩ := h.pc .reci (by rw [hb]; rfl)
  obtain ⟨tr, hst, hf⟩ := readEvenAt_run hr
  rw [← hmem] at hst hf
  obtain ⟨tr', hst', hpc', hmem', hrun, hlogg, hfile⟩ := moves_of_events hpc hst
  rw [hf] at hmem'
  by_cases hd : nlmsgType m off = nlmsgDone
  · refine ⟨tr' ++ [(.reci, { final p tr' with pc := .test })],
      steps_append.mpr ⟨hst', .reci hpc', trivial⟩, ?_⟩
    rw [final_concat]
    refine ⟨hrun.trans h.running, hlogg.trans h.loggRun, hfile.trans h.file, fun pc hpc => ?_⟩
    rw [evenRead, if_pos hd] at hpc
    cases hpc
    exact ⟨rfl, hmem'⟩
  · refine ⟨tr', hst', hrun.trans h.running, hlogg.trans h.loggRun, hfile.trans h.file,
      fun pc hpc => ?_⟩
    rw [evenRead, if_neg hd] at hpc
    cases hpc
    exact ⟨hpc', hmem'⟩

/-- **What `recvmsg` answers** leads to the loop over its messages, or out of `sock_reci`. -/
theorem Agrees.received (h : Agrees b p) (hb : b.place = .recv) (beyond : Mem) (recv : Recv) :
    ∃ tr, Steps Move p tr ∧ Agrees (received beyond recv b) (final p tr) := by
  obtain ⟨hpc, hmem⟩ := h.pc .reci (by rw [hb]; rfl)
  have hout : ∃ tr, Steps Move p tr ∧ Agrees { b with place := .test } (final p tr) := by
    refine moves_one (.reci hpc) ⟨h.running, h.loggRun, h.file, fun pc he => ?_⟩
    cases he
    exact ⟨rfl, hmem⟩
  cases recv with
  | error errno => exact hout
  | dgram bytes nlPid =>
    unfold Model.Program.received
    dsimp only
    split_ifs
    · exact hout
    · exact hout
    · exact moves_none (h.goto (Or.inl (by rw [hb]; rfl)))

/-- Until the table is made, nothing is in it. -/
def Early (b : Machine) : Prop :=
  match b.place with
  | .crea | .timer | .calloc | .tablInit => b.mem = init
  | _ => True

theorem Early.step (h : Early b) (hl : Exec b l b') : Early b' := by
  unfold Early at h
  cases hl with
  | signal hc sig => cases sig <;> exact h
  | crea hb _ _ =>
    rw [hb] at h
    unfold crea
    split_ifs
    · exact h
    · trivial
  | timer hb _ _ =>
    rw [hb] at h
    unfold timerSetup
    split_ifs
    · exact h
    · trivial
  | calloc hb _ =>
    rw [hb] at h
    unfold callocTable
    split_ifs
    · exact h
    · trivial
  | tablInit hb calloc => cases calloc <;> trivial
  | regi hb => trivial
  | loop hb =>
    unfold Early
    split_ifs <;> trivial
  | recv hb beyond recv =>
    cases recv with
    | error errno => trivial
    | dgram bytes nlPid =>
      unfold received
      dsimp only
      split_ifs <;> trivial
  | skip => trivial
  | even =>
    unfold evenRead Early
    split_ifs <;> trivial
  | reci => trivial
  | test hb =>
    unfold testFlag Early
    split_ifs <;> trivial
  | visit | write | clear | dele | unre | close | dest => trivial

/-- **A step of the program** is matched by steps of the loop of events. -/
theorem Agrees.step (h : Agrees b p) (he : Early b) (hl : Exec b l b') :
    ∃ tr, Steps Move p tr ∧ Agrees b' (final p tr) := by
  cases hl with
  | signal hc sig =>
    refine moves_one (.signal p sig) ?_
    cases sig with
    | sigint => exact ⟨rfl, h.loggRun, h.file, h.pc⟩
    | sigusr1 => exact ⟨h.running, rfl, h.file, h.pc⟩
  | crea hb socket bind =>
    unfold crea
    split_ifs
    · exact moves_none (h.goto (Or.inl (by rw [hb]; rfl)))
    · exact moves_none (h.goto (Or.inr rfl))
  | timer hb _ _ =>
    unfold timerSetup
    split_ifs
    · exact moves_none (h.goto (Or.inl (by rw [hb]; rfl)))
    · exact moves_none (h.goto (Or.inr rfl))
  | calloc hb calloc =>
    unfold callocTable
    split_ifs
    · exact moves_none (h.goto (Or.inl (by rw [hb]; rfl)))
    · exact moves_none (h.goto (Or.inr rfl))
  | tablInit hb calloc =>
    unfold Early at he
    rw [hb] at he
    cases calloc with
    | true =>
      obtain ⟨hpc, hmem⟩ := h.pc .loop (by rw [hb]; rfl)
      refine moves_none ⟨h.running, h.loggRun, h.file, fun pc hq => ?_⟩
      cases hq
      exact ⟨hpc, hmem.trans he⟩
    | false => exact moves_none (h.goto (Or.inr rfl))
  | regi hb => exact moves_none (h.goto (Or.inl (by rw [hb]; rfl)))
  | loop hb =>
    obtain ⟨hpc, hmem⟩ := h.pc .loop (by rw [hb]; rfl)
    refine moves_one (.loop hpc) ⟨h.running, h.loggRun, h.file, fun pc he => ?_⟩
    refine ⟨?_, hmem⟩
    unfold whileRunning
    rw [h.running]
    dsimp only at he ⊢
    split_ifs at he ⊢ <;> cases he <;> rfl
  | recv hb beyond recv => exact h.received hb beyond recv
  | skip hb _ _ => exact moves_none (h.goto (Or.inl (by rw [hb]; rfl)))
  | even hb _ _ hr => exact h.even hb hr
  | reci hb _ =>
    obtain ⟨hpc, hmem⟩ := h.pc .reci (by rw [hb]; rfl)
    refine moves_one (.reci hpc) ⟨h.running, h.loggRun, h.file, fun pc he => ?_⟩
    cases he
    exact ⟨rfl, hmem⟩
  | test hb =>
    obtain ⟨hpc, hmem⟩ := h.pc .test (by rw [hb]; rfl)
    refine moves_one (.test hpc) ?_
    unfold testLoggRun testFlag
    by_cases hlogg : b.loggRun = true
    · rw [if_pos hlogg, if_pos (h.loggRun.trans hlogg)]
      refine ⟨h.running, h.loggRun, h.file, fun pc he => ?_⟩
      cases he
      exact ⟨by rw [hmem], hmem⟩
    · have hp : ¬p.loggRun = true := h.loggRun ▸ hlogg
      rw [if_neg hlogg, if_neg hp]
      refine ⟨h.running, h.loggRun, h.file, fun pc he => ?_⟩
      cases he
      exact ⟨rfl, hmem⟩
  | visit hb hv =>
    obtain ⟨hpc, hmem⟩ := h.pc _ (by rw [hb]; rfl)
    rw [← hmem] at hv
    refine moves_one (.visit hpc hv) ⟨h.running, h.loggRun, h.file, fun pc he => ?_⟩
    cases he
    exact ⟨rfl, hmem⟩
  | write hb fopen =>
    obtain ⟨hpc, hmem⟩ := h.pc _ (by rw [hb]; rfl)
    refine moves_one (.write hpc fopen) ?_
    unfold writeFile flushed
    split_ifs
    · refine ⟨h.running, h.loggRun, by rw [h.file], fun pc he => ?_⟩
      cases he
      exact ⟨rfl, hmem⟩
    · refine ⟨h.running, h.loggRun, h.file, fun pc he => ?_⟩
      cases he
      exact ⟨rfl, hmem⟩
  | clear hb =>
    obtain ⟨hpc, hmem⟩ := h.pc .clear (by rw [hb]; rfl)
    refine moves_one (.clear hpc) ⟨h.running, rfl, h.file, fun pc he => ?_⟩
    cases he
    exact ⟨rfl, hmem⟩
  | dele hb => exact moves_none (h.goto (Or.inl (by rw [hb]; rfl)))
  | unre hb => exact moves_none (h.goto (Or.inl (by rw [hb]; rfl)))
  | close hb => exact moves_none (h.goto (Or.inl (by rw [hb]; rfl)))
  | dest hb =>
    refine moves_none ⟨h.running, h.loggRun, h.file, fun pc he => ?_⟩
    cases he

end Step

theorem moves_of_exec {tr : List (Act × Machine)} (h : Steps Exec boot tr) :
    ∃ tr', Steps Move start tr' ∧ Agrees (final boot tr) (final start tr') := by
  have hstep : ∀ b l b' p, Agrees b p ∧ Early b → Exec b l b' →
      ∃ tr, Steps Move p tr ∧ Agrees b' (final p tr) ∧ Early b' := by
    rintro b l b' p ⟨hS, he⟩ hl
    obtain ⟨tr, hst, hS'⟩ := hS.step he hl
    exact ⟨tr, hst, hS', he.step hl⟩
  obtain ⟨tr', hst, hS, -⟩ := simulates hstep ⟨agrees_boot, rfl⟩ h
  exact ⟨tr', hst, hS⟩

theorem events_of_moves {tr : List (Label × Prog)} (h : Steps Move start tr) :
    ∃ evs, Steps Step init evs ∧ final init evs = (final start tr).mem := by
  refine h.final (J := fun p => ∃ evs, Steps Step init evs ∧ final init evs = p.mem)
    (fun p l q hp hm => ?_) ⟨[], trivial, rfl⟩
  obtain ⟨evs, hst, hf⟩ := hp
  cases hm with
  | signal sig => cases sig <;> exact ⟨evs, hst, hf⟩
  | even _ hs => exact ⟨evs ++ [(_, _)], steps_concat.mpr ⟨hst, hf ▸ hs⟩, final_concat⟩
  | test =>
    refine ⟨evs, hst, hf.trans ?_⟩
    unfold testLoggRun
    split_ifs <;> rfl
  | write hp fopen => cases fopen <;> exact ⟨evs, hst, hf⟩
  | loop | reci | visit | clear => exact ⟨evs, hst, hf⟩

/-- Until the table is destroyed, the memory is the end of a run of events. -/
theorem events_of_exec {tr : List (Act × Machine)} (h : Steps Exec boot tr)
    (hp : (final boot tr).place ≠ .exit) :
    ∃ evs, Steps Step init evs ∧ final init evs = (final boot tr).mem := by
  obtain ⟨tr', hst, hS⟩ := moves_of_exec h
  obtain ⟨evs, hevs, hend⟩ := events_of_moves hst
  refine ⟨evs, hevs, hend.trans ?_⟩
  rcases hpc : pcOf (final boot tr).place with _ | pc
  · exact absurd (by unfold pcOf at hpc; split at hpc <;> first | assumption | cases hpc) hp
  · exact (hS.pc pc hpc).2

/-- **The refinement.** Whatever bytes the program receives, and however signals and failures come
in between, its run is matched by a run of the loop of events; and its table is at any time one that
a run of events leaves, with the shape of such a table. -/
theorem refines {tr : List (Act × Machine)} (h : Steps Exec boot tr) :
    (∃ tr', Steps Move start tr' ∧ Agrees (final boot tr) (final start tr')) ∧
      ∀ x ∈ tr, x.2.place ≠ .exit →
        (∃ evs, Steps Step init evs ∧ final init evs = x.2.mem) ∧ TreeOk x.2.mem := by
  refine ⟨moves_of_exec h, fun x hx hexit => ?_⟩
  obtain ⟨pre, hpre, hf⟩ := exists_prefix h hx
  obtain ⟨evs, hevs, hend⟩ := events_of_exec hpre (hf ▸ hexit)
  rw [hf] at hend
  exact ⟨⟨evs, hevs, hend⟩, treeOk_of_sound (hend ▸ sound_final hevs)⟩

/-! ### A run -/

/-- The message of a fork of the process 2 by the process 1. -/
def forkBytes : List Byte :=
  leBytes 4 76 ++ leBytes 2 nlmsgDone ++ leBytes 10 0 ++
    leBytes 4 cnIdxProc ++ leBytes 4 cnValProc ++ leBytes 8 0 ++ leBytes 4 40 ++
    leBytes 4 procEventFork ++ leBytes 4 0 ++ leBytes 8 1000000000 ++
    leBytes 4 1 ++ leBytes 4 1 ++ leBytes 4 2 ++ leBytes 4 2 ++ leBytes 8 0

/-- Nothing lies behind the buffer. -/
def noMem : Mem := fun _ => 0

/-- The table after the message. -/
def forked : State :=
  match readEvenAt (buffMem forkBytes noMem) (evenAddr 0) 2
    (fun _ => answers [(1, ['0']), (2, ['1'])]) init with
  | .ret t => t
  | _ => init

/-- The setup, and a call of `sock_reci` that receives the message. -/
def forkRun : List (Act × Machine) :=
  let b₁ := crea true true boot
  let b₂ := timerSetup true true b₁
  let b₃ := callocTable true b₂
  let b₄ := tablInit true b₃
  let b₅ := { b₄ with place := .loop }
  let b₆ := { b₅ with place := .recv }
  let b₇ := received noMem (.dgram forkBytes 0) b₆
  let b₈ := evenRead (buffMem forkBytes noMem) 0 76 forked b₇
  [(.setup, b₁), (.setup, b₂), (.setup, b₃), (.setup, b₄), (.setup, b₅), (.loop, b₆), (.recv, b₇),
    (.even, b₈)]

theorem forkRun_steps : Steps Exec boot forkRun := by
  have hr : readEvenAt (buffMem forkBytes noMem) (evenAddr 0) 2
      (fun _ => answers [(1, ['0']), (2, ['1'])]) init = .ret forked := by rfl
  exact ⟨.crea rfl true true, .timer rfl true true, .calloc rfl true, .tablInit rfl true,
    .regi rfl, .loop rfl, .recv rfl noMem (.dgram forkBytes 0),
    .even rfl (by decide) (by decide) hr, trivial⟩

theorem refines_forkRun :
    (∃ evs, Steps Step init evs ∧ final init evs = forked) ∧ TreeOk forked := by
  have hmem : (Act.even, final boot forkRun) ∈ forkRun := List.mem_of_getElem? (i := 7) rfl
  have hplace : (final boot forkRun).place = .test := rfl
  exact (refines forkRun_steps).2 _ hmem (by rw [hplace]; exact At.noConfusion)

/-! ### The steps of `sock_reci` -/

section Reci
variable {b : Machine} {m : Mem} {off fuel evenFuel : ℕ} {len : ℤ} {w : ℕ → ℕ → World} {t : State}

/-- **The loop of `sock_reci`**, turn by turn. -/
theorem exec_of_reciLoop (hb : b.place = .head m off len)
    (h : reciLoop m (fun a => readEvenAt m a evenFuel w) fuel off len b.mem = .ret t) :
    ∃ tr, Steps Exec b tr ∧ final b tr = { b with place := .test, mem := t } := by
  induction fuel generalizing b off len with
  | zero =>
    rcases hok : nlmsgOk m off len with _ | _
    · rw [reciLoop_of_not_ok hok] at h
      cases h
      exact ⟨[(.reci, _)], ⟨.reci hb hok, trivial⟩, rfl⟩
    · rw [reciLoop, if_pos hok] at h
      cases h
  | succ fuel ih =>
    rcases hok : nlmsgOk m off len with _ | _
    · rw [reciLoop_of_not_ok hok] at h
      cases h
      exact ⟨[(.reci, _)], ⟨.reci hb hok, trivial⟩, rfl⟩
    rw [reciLoop_of_ok hok] at h
    have hskips : skips m off = !dispatches m off := by
      unfold skips dispatches
      simp
    have hnext : ∀ {c : Machine}, c.place = nlmsgNext m off len →
        reciLoop m (fun a => readEvenAt m a evenFuel w) fuel (nextOff m off)
          (len - nlmsgAlign (nlmsgLen m off)) c.mem = .ret t →
        ∃ tr, Steps Exec c tr ∧ final c tr = { c with place := .test, mem := t } :=
      fun hc hl => ih hc hl
    by_cases hd : dispatches m off = true
    · rw [if_pos hd] at h
      rcases hr : readEvenAt m (evenAddr off) evenFuel w b.mem with u | _ | _ <;> rw [hr] at h
      · have he : Exec b .even (evenRead m off len u b) :=
          .even hb hok (by rw [hskips, hd]; rfl) hr
        by_cases hs : stops m off = true
        · have hdone : nlmsgType m off = nlmsgDone := by
            unfold stops at hs
            exact (of_decide_eq_true hs).2
          rw [Outcome.bind, if_pos hs] at h
          cases h
          refine ⟨[(.even, _)], ⟨he, trivial⟩, ?_⟩
          show evenRead m off len t b = _
          rw [evenRead, if_pos hdone]
        · have hdone : nlmsgType m off ≠ nlmsgDone := fun hdone => hs (by simp [stops, hd, hdone])
          rw [Outcome.bind, if_neg hs] at h
          rw [evenRead, if_neg hdone] at he
          obtain ⟨tr, hst, hf⟩ :=
            hnext (c := { b with place := nlmsgNext m off len, mem := u }) rfl h
          refine ⟨(.even, _) :: tr, ⟨he, hst⟩, ?_⟩
          rw [final_cons, hf]
      · cases h
      · cases h
    · have hs : ¬stops m off = true := fun hs => hd (by simp [stops] at hs; exact hs.1)
      rw [if_neg hd, Outcome.bind, if_neg hs] at h
      have hd : dispatches m off = false := by simpa using hd
      obtain ⟨tr, hst, hf⟩ := hnext (c := { b with place := nlmsgNext m off len }) rfl h
      refine ⟨(.skip, _) :: tr, ⟨.skip hb hok (by rw [hskips, hd]; rfl), hst⟩, ?_⟩
      rw [final_cons, hf]

/-- **A call of `sock_reci`** that returns is a run from `recvmsg` to the test of `logg_run`. -/
theorem exec_of_sockReci {beyond : Mem} {recv : Recv} {x : ℤ} (hb : b.place = .recv)
    (h : sockReci (fun m a => readEvenAt m a evenFuel w) beyond fuel recv b.mem = .ret (x, t)) :
    ∃ tr, Steps Exec b tr ∧ final b tr = { b with place := .test, mem := t } := by
  have hrecv : Exec b .recv (received beyond recv b) := .recv hb beyond recv
  have hout : ∀ {c : Machine}, Exec b .recv c → c = { b with place := .test } → b.mem = t →
      ∃ tr, Steps Exec b tr ∧ final b tr = { b with place := .test, mem := t } := by
    rintro c hc rfl rfl
    exact ⟨[(.recv, _)], ⟨hc, trivial⟩, rfl⟩
  cases recv with
  | error errno =>
    cases h
    exact hout hrecv rfl rfl
  | dgram bytes nlPid =>
    rw [sockReci] at h
    unfold received at hrecv
    dsimp only at h hrecv
    split_ifs at h hrecv with h0 hn
    · cases h
      exact hout hrecv rfl rfl
    · cases h
      exact hout hrecv rfl rfl
    · set m := buffMem (bytes.take buffSize) beyond with hm
      rcases hl : reciLoop m (fun a => readEvenAt m a evenFuel w) fuel 0
        ((bytes.take buffSize).length : ℤ) b.mem with u | _ | _ <;> rw [hl] at h <;> cases h
      obtain ⟨tr, hst, hf⟩ := exec_of_reciLoop (b := { b with
        place := .head m 0 ((bytes.take buffSize).length : ℤ) }) rfl hl
      refine ⟨(.recv, _) :: tr, ⟨hrecv, hst⟩, ?_⟩
      rw [final_cons, hf]

end Reci

end Serie.System.Refine
