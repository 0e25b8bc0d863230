import Serie.Lib.Trace
import Serie.Log.Line
import Serie.Model.Main
import Serie.Model.Runs

/-! # The timer ticks

A tick sets `logg_run`, and the loop clears it after the flush. A tick that comes between the start
of the flush and the clearing is forgotten, unless another one follows before the loop is back at
`sock_reci`. These are all ticks that are lost (`kept_iff_timely`). -/

namespace Serie.Log.Ticks

open Serie.Lib.Trace Serie.Model.Record Serie.Model.Main Serie.Model.Conn Serie.Model.Logg
open Serie.Model.Table Serie.Model.Runs Serie.Log.Line

/-- Back at `sock_reci` with `logg_run == 0`, every tick so far was followed by the start of a
flush. -/
def Kept (p : Prog) : Prop := p.pc = .reci → p.loggRun = false → p.started = p.ticks

/-- **The condition on the ticks**: when the loop starts over, a tick came since `logg_run` was
cleared, or none came while the last flush ran. -/
def Timely (p : Prog) (l : Label) : Prop :=
  match l with
  | .loop => p.running = true → p.loggRun = false → p.late = false
  | _ => True

/-- What the steps keep: all ticks came before the last flush began, unless one is noticed in
`logg_run` or in `late`. -/
structure Counted (p : Prog) : Prop where
  started_le : p.started ≤ p.ticks
  loggRun : p.pc.flushing = true → p.loggRun = true
  late : p.late = true → p.started < p.ticks
  eq : p.late = false → p.loggRun = false ∨ p.pc.flushing = true → p.started = p.ticks

theorem counted_start : Counted start := ⟨le_rfl, by simp [start, Pc.flushing], by simp [start],
  fun _ _ => rfl⟩

variable {p q : Prog} {l : Label}

theorem Counted.goto (h : Counted p) {pc : Pc} (hpc : pc.flushing = false) :
    Counted { p with pc := pc } where
  started_le := h.started_le
  loggRun hf := by rw [hpc] at hf; cases hf
  late := h.late
  eq hl hr := h.eq hl (hr.imp_right fun hf => by rw [hpc] at hf; cases hf)

theorem Counted.tick (h : Counted p) : Counted (sigintHand .sigusr1 p) := by
  have hle := h.started_le
  refine ⟨Nat.le_succ_of_le hle, fun _ => rfl, fun _ => Nat.lt_succ_of_le hle, fun hl hr => ?_⟩
  -- a tick while the flush runs is late
  have hlate : (p.late || p.pc.flushing) = false := hl
  rcases hr with hr | hr
  · cases hr
  · have hf : p.pc.flushing = true := hr
    rw [hf, Bool.or_true] at hlate
    cases hlate

theorem Counted.move (h : Counted p) (hm : Move p l q) : Counted q := by
  cases hm with
  | signal sig =>
    cases sig with
    | sigint => exact ⟨h.started_le, h.loggRun, h.late, h.eq⟩
    | sigusr1 => exact h.tick
  | loop hpc =>
    refine h.goto ?_
    split_ifs <;> rfl
  | even hpc => exact ⟨h.started_le, h.loggRun, h.late, h.eq⟩
  | reci hpc => exact h.goto rfl
  | test hpc =>
    unfold testLoggRun
    split_ifs with hr
    · exact ⟨le_rfl, fun _ => hr, fun hl => (by cases hl), fun _ _ => rfl⟩
    · exact h.goto rfl
  | visit hpc =>
    have hf : p.pc.flushing = true := by rw [hpc]; rfl
    exact ⟨h.started_le, fun _ => h.loggRun hf, h.late, fun hl _ => h.eq hl (Or.inr hf)⟩
  | write hpc fopen =>
    have hf : p.pc.flushing = true := by rw [hpc]; rfl
    unfold writeFile
    split_ifs
    · exact ⟨h.started_le, fun _ => h.loggRun hf, h.late, fun hl _ => h.eq hl (Or.inr hf)⟩
    · exact ⟨h.started_le, fun _ => h.loggRun hf, h.late, fun hl _ => h.eq hl (Or.inr hf)⟩
  | clear hpc =>
    have hf : p.pc.flushing = true := by rw [hpc]; rfl
    exact ⟨h.started_le, fun hc => (by cases hc), h.late, fun hl _ => h.eq hl (Or.inr hf)⟩

theorem Kept.move (h : Kept p) (hc : Counted p) (hm : Move p l q) (ht : Timely p l) : Kept q := by
  intro hq hr
  cases hm with
  | signal sig =>
    cases sig with
    | sigint => exact h hq hr
    | sigusr1 => cases hr
  | loop hpc =>
    have hrun : p.running = true := by
      by_contra hn
      simp [whileRunning, hn] at hq
    exact hc.eq (ht hrun hr) (Or.inl hr)
  | even hpc => exact h hpc hr
  | reci hpc => cases hq
  | test hpc =>
    unfold testLoggRun at hq
    split_ifs at hq
  | visit hpc => cases hq
  | write hpc fopen =>
    unfold writeFile at hq
    split_ifs at hq
  | clear hpc => cases hq

theorem not_kept_of_not_timely (hc : Counted p) (hm : Move p l q) (ht : ¬ Timely p l) :
    ¬ Kept q := by
  cases hm with
  | loop hpc =>
    simp only [Timely, not_forall] at ht
    obtain ⟨hrun, hr, hl⟩ := ht
    intro hk
    have hlate := hc.late (by simpa using hl)
    have heq : p.started = p.ticks := hk (by simp [whileRunning, hrun]) hr
    omega
  | signal | even | reci | test | visit | write | clear => exact absurd trivial ht

/-- **In a run no tick is lost exactly when every turn of the loop is timely.** -/
theorem kept_iff_timely {tr : List (Label × Prog)} (hr : Steps Move start tr) :
    (∀ x ∈ tr, Kept x.2) ↔ Steps (fun p l _ => Timely p l) start tr :=
  Steps.forall_mem_iff (J := fun p => Counted p ∧ Kept p) (G := Timely) (fun _ h => h.2)
    (fun _ _ _ h hm ht => ⟨h.1.move hm, h.2.move h.1 hm ht⟩)
    (fun _ _ _ h hm ht => not_kept_of_not_timely h.1 hm ht)
    ⟨counted_start, fun h => (by cases h)⟩ hr

/-! ### A run -/

/-- The table after a fork. -/
def forked : State := after 0 init (input 1 (.fork 1 2) [(1, ['0']), (2, ['1'])])

theorem step_forked : Step init (input 1 (.fork 1 2) [(1, ['0']), (2, ['1'])]) forked :=
  adopted_steps.1

theorem records_forked : records forked = [0, 1] := by
  have hbuckets : forked.buckets =
      Function.update (Function.update (fun _ => []) 1 [0]) 2 [1] := rfl
  have hrest : ((List.range 4093).map (3 + ·)).flatMap forked.buckets = [] := by
    rw [List.flatMap_eq_nil_iff, List.forall_mem_map, hbuckets]
    intro i _
    rw [Function.update_of_ne (by omega), Function.update_of_ne (by omega)]
  rw [records, show 4096 = 3 + 4093 from rfl, List.range_add, List.flatMap_append, hrest]
  decide

/-- The buffer after the record `r` was visited. -/
def buffAfter (s : State) (v : Visit) (r : Ref) (buff : Buff) : Buff :=
  (loggProc s v r buff).toOption.getD buff

theorem loggProc_of_none {s : State} {v : Visit} {r : Ref} {buff : Buff}
    (h : (s.heap r).fdPaths = none) : loggProc s v r buff = .ok (buffAfter s v r buff) := by
  have hok : ∃ buff', loggProc s v r buff = .ok buff' := by
    unfold loggProc
    by_cases ho : v.object = false
    · rw [if_pos ho]
      exact ⟨_, rfl⟩
    · rw [if_neg ho, loggProc2Json, loggFdPaths2Json, h]
      exact ⟨_, rfl⟩
  obtain ⟨buff', hb⟩ := hok
  rw [buffAfter, hb]
  rfl

/-- A fork and a tick, and a second tick while the two records are logged. -/
def twoTicks : List (Label × Prog) :=
  let i := input 1 (.fork 1 2) [(1, ['0']), (2, ['1'])]
  let p₁ := whileRunning start
  let p₂ := handled forked p₁
  let p₃ := { p₂ with pc := .test }
  let p₄ := sigintHand .sigusr1 p₃
  let p₅ := testLoggRun p₄
  let b₁ := buffAfter forked timeless 0 buffInit
  let p₆ := visited timeless 0 [1] b₁ p₅
  let p₇ := sigintHand .sigusr1 p₆
  let b₂ := buffAfter forked timeless 1 b₁
  let p₈ := visited timeless 1 [] b₂ p₇
  let p₉ := writeFile true b₂ p₈
  let q := clearLoggRun p₉
  [(.loop, p₁), (.even i, p₂), (.reci, p₃), (.signal .sigusr1, p₄), (.test, p₅),
    (.visit timeless, p₆), (.signal .sigusr1, p₇), (.visit timeless, p₈), (.write true, p₉),
    (.clear, q), (.loop, whileRunning q)]

theorem twoTicks_steps : Steps Move start twoTicks := by
  have hpc : (testLoggRun (sigintHand .sigusr1 { handled forked (whileRunning start) with
      pc := .test })).pc = .parse [0, 1] buffInit := by
    show Pc.parse (records forked) buffInit = _
    rw [records_forked]
  have h₀ : loggProc forked timeless 0 buffInit = .ok _ := loggProc_of_none (by decide)
  have h₁ : loggProc forked timeless 1 (buffAfter forked timeless 0 buffInit) = .ok _ :=
    loggProc_of_none (by decide)
  exact ⟨.loop rfl, .even rfl step_forked, .reci rfl, .signal _ _, .test rfl, .visit hpc h₀,
    .signal _ _, .visit rfl h₁, .write rfl true, .clear rfl, .loop rfl, trivial⟩

/-- The second tick is forgotten. -/
theorem not_kept_twoTicks : Steps Move start twoTicks ∧ ¬ ∀ x ∈ twoTicks, Kept x.2 := by
  refine ⟨twoTicks_steps, fun hk => ?_⟩
  have hfin : Kept (final start twoTicks) := forall_final hk (by simp [twoTicks])
  exact absurd (hfin rfl rfl) (by decide)

theorem kept_iff_timely_twoTicks : (∀ x ∈ twoTicks, Kept x.2) ↔
    Steps (fun p l _ => Timely p l) start twoTicks :=
  kept_iff_timely twoTicks_steps

end Serie.Log.Ticks
