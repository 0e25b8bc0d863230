import Serie.Model.Runs
import Serie.Tree.Rule

/-! # Live records of a pid

A record that is made for a parent is made because its pid has none, but `even_fork` puts the child
in front of its bucket without a look. So the table gets two live records of a pid exactly when a
fork is handled while the record of the child's pid is alive (`oneLive_iff_ok`): the exit event was
lost, or the child was loaded before as somebody's parent. As long as that does not happen a live
record is the one found for its pid (`Found`).

Every list of events is delivered by some well-formed stream (`exists_stream`), so the runs
considered here are all runs. -/

namespace Serie.Table.Incarnation

open Serie.Lib.Trace Serie.Model.Record Serie.Model.Table Serie.Model.Conn Serie.Model.Steps
open Serie.Model.Loop Serie.Model.Runs Serie.Tree.Invariant Serie.Tree.Rule

/-- The table holds at most one live record of a pid. -/
def OneLive (s : State) : Prop :=
  ∀ r ∈ s.tracked, ∀ r' ∈ s.tracked, (s.heap r).alive = true → (s.heap r').alive = true →
    (s.heap r).pid = (s.heap r').pid → r = r'

/-- A live record is the one found for its pid. -/
def LiveFound (s : State) : Prop :=
  ∀ r ∈ s.tracked, (s.heap r).alive = true → procLook s (s.heap r).pid = some r

/-- The condition on a fork whose parent is found and whose child can be loaded: the child's pid has
no live record, nor is it the pid of a parent that is loaded first. -/
def ForkOk (q c : Pid) (w : ℕ → World) (s : State) : Prop :=
  canLoad (w 1) c = true → (procLook s q ≠ none ∨ canLoad (w 0) q = true) →
    (∀ r, procLook s c = some r → (s.heap r).alive = false) ∧ (procLook s q = none → q ≠ c)

/-- The condition on an event. -/
def Ok (s : State) (i : Input) : Prop :=
  match i.even.data with
  | .fork q c => ForkOk q c i.world s
  | _ => True

section Live
variable {s t : State}

theorem LiveFound.oneLive (h : LiveFound s) : OneLive s := by
  intro r hr r' hr' ha ha' hp
  have h1 := h r hr ha
  rw [hp, h r' hr' ha'] at h1
  exact (Option.some.inj h1).symm

theorem LiveFound.of_procLook (h : LiveFound s) (ht : t.tracked = s.tracked)
    (hp : ∀ r ∈ s.tracked, (t.heap r).pid = (s.heap r).pid)
    (hl : ∀ q, procLook t q = procLook s q)
    (ha : ∀ r ∈ s.tracked, (t.heap r).alive = true →
      (s.heap r).alive = true ∨ procLook s (s.heap r).pid = some r) : LiveFound t := by
  intro r hr hra
  rw [ht] at hr
  rw [hl, hp r hr]
  exact (ha r hr hra).elim (h r hr) id

theorem LiveFound.adds (h : LiveFound s) (hs : Sound s) {x : Proc} (ha : Adds s x t)
    (hx : ∀ r, procLook s x.pid = some r → (s.heap r).alive = false) : LiveFound t := by
  intro r hr hra
  rw [ha.tracked] at hr
  rw [ha.procLook hs.lt_next]
  rcases hr with rfl | hr
  · rw [ha.heap, Function.update_self, if_pos rfl]
  · rw [ha.heap, Function.update_of_ne (hs.lt_next r hr).ne] at hra ⊢
    have hl := h r hr hra
    rw [if_neg, hl]
    intro hp
    rw [hp] at hx
    rw [hx r hl] at hra
    cases hra

theorem LiveFound.lookRec (h : LiveFound s) {r : Ref} {f : Files}
    (hr : (s.heap r).alive = true ∨ procLook s (s.heap r).pid = some r) :
    LiveFound (lookRec r f s).2 := by
  refine h.of_procLook rfl (fun _ _ => lookRec_pid _) (fun q => procLook_lookRec q)
    fun q _ hq => ?_
  by_cases hqr : q = r
  · subst hqr; exact hr
  · rw [lookRec_of_ne hqr] at hq; exact Or.inl hq

theorem liveFound_flat : Flat LiveFound where
  quiet h hq hs := hs.of_procLook hq.tracked
    (fun r hr => by rw [hq.heap r (h.lt_next r hr)])
    (fun q => procLook_congr hq.buckets fun r hr => by rw [hq.heap r (h.lt_next r hr)])
    (fun r hr ha => by rw [hq.heap r (h.lt_next r hr)] at ha; exact Or.inl ha)
  relinked hr hs := hs.of_procLook hr.tracked (fun r _ => hr.pid r) hr.procLook
    (fun r _ ha => by rw [hr.alive] at ha; exact Or.inl ha)
  load h hn hx ha hs := hs.adds h ha fun r hr => by
    rw [hx.pid, hn] at hr; cases hr
  refresh _ _ ha hs := hs.lookRec (Or.inl ha)

theorem LiveFound.mark (h : LiveFound s) (d : Ref) (code ts : ℕ) :
    LiveFound (s.upd d (markDead code ts)) := by
  refine h.of_procLook rfl (fun r _ => Sound.markDead_pid d code ts r)
    (Sound.procLook_markDead d code ts) fun r _ ha => ?_
  rw [Sound.markDead_alive] at ha
  split_ifs at ha
  exact Or.inl ha

end Live

/-! ### Forks -/

section Fork
variable {s t : State} {q c : Pid} {ts : ℕ} {w : ℕ → World} {x : ℤ}

theorem procLook_found (h : Sound s) {p : Ref} (hf : Found q (w 0) s p t) (c : Pid) :
    (procLook s q ≠ none ∧ t = s) ∨
      procLook s q = none ∧ canLoad (w 0) q = true ∧ (t.heap p).alive = true ∧
        procLook t c = if q = c then some p else procLook s c := by
  cases hf with
  | old hl => exact Or.inl ⟨by rw [hl]; simp, rfl⟩
  | new hn hc hx ha =>
    refine Or.inr ⟨hn, hc, ?_, ?_⟩
    · rw [ha.heap, Function.update_self]; exact hx.alive
    · rw [ha.procLook h.lt_next, hx.pid]

/-- The condition says that no live record is found for the child's pid once the parent is found. -/
theorem forkOk_iff (h : Sound s) {p : Ref} (hf : Found q (w 0) s p t)
    (hc : canLoad (w 1) c = true) :
    ForkOk q c w s ↔ ∀ r, procLook t c = some r → (t.heap r).alive = false := by
  have hheap := (h.found hf).2.2.2
  rcases procLook_found h hf c with ⟨hn, rfl⟩ | ⟨hn, hcl, hpa, hl⟩
  · exact ⟨fun hok => (hok hc (Or.inl hn)).1, fun hd _ _ => ⟨hd, fun he => absurd he hn⟩⟩
  · constructor
    · intro hok r hr
      obtain ⟨hd, hne⟩ := hok hc (Or.inr hcl)
      rw [hl, if_neg (hne hn)] at hr
      rw [hheap r (procLook_some hr).1]
      exact hd r hr
    · intro hd _ _
      have hne : q ≠ c := by
        rintro rfl
        rw [hd p (by rw [hl, if_pos rfl])] at hpa
        cases hpa
      rw [if_neg hne] at hl
      refine ⟨fun r hr => ?_, fun _ => hne⟩
      rw [← hheap r (procLook_some hr).1]
      exact hd r (hl.trans hr)

theorem LiveFound.fork (hs : LiveFound s) (h : Sound s) (hok : ForkOk q c w s)
    (he : evenFork q c ts w s = .ret (x, t)) : LiveFound t :=
  liveFound_flat.fork h hs (fun p s₁ y s₂ hfd hc h₁ hs₁ hy ha =>
    hs₁.adds h₁ ha (by
      rw [show Proc.pid { y with birthTime := splitNs ts } = c from hy.pid]
      exact (forkOk_iff h hfd hc).mp hok)) he

/-- **A fork over a live record** makes a second one. -/
theorem not_oneLive_fork (h : Sound s) (hok : ¬ ForkOk q c w s)
    (he : evenFork q c ts w s = .ret (x, t)) : ¬ OneLive t := by
  have hok' := hok
  simp only [ForkOk, Classical.not_imp] at hok'
  obtain ⟨hc, hq, -⟩ := hok'
  rcases evenFork_inv h.lt_next he with
    ⟨hn, hcl, -⟩ | ⟨p, s₁, hfd, ⟨hn, -⟩ | ⟨-, y, s₂, hy, ha, rfl⟩⟩
  · rcases hq with hq | hq
    · exact absurd hn hq
    · rw [hcl] at hq; cases hq
  · rw [hc] at hn; cases hn
  rw [forkOk_iff h hfd hc] at hok
  simp only [not_forall] at hok
  obtain ⟨r, hr, hra⟩ := hok
  have h₁ := (h.found hfd).1
  obtain ⟨hrt, hrp⟩ := procLook_some hr
  have hlt := h₁.lt_next r hrt
  have hrl : Relinked s₂ (attaChil (some p) (some s₁.next) s₂).2 := attaChil_relinked _ _
  have hra : (s₁.heap r).alive = true := by simpa using hra
  intro hone
  refine hlt.ne (hone r ?_ s₁.next ?_ ?_ ?_ ?_)
  · rw [hrl.tracked, ha.tracked]; exact Or.inr hrt
  · rw [hrl.tracked, ha.tracked]; exact Or.inl rfl
  · rw [hrl.alive, ha.heap, Function.update_of_ne hlt.ne]; exact hra
  · rw [hrl.alive, ha.heap, Function.update_self]; exact hy.alive
  · rw [hrl.pid, hrl.pid, ha.heap, Function.update_of_ne hlt.ne, Function.update_self, hrp]
    exact hy.pid.symm

end Fork

/-! ### Runs -/

theorem LiveFound.step {s t : State} {i : Input} (hs : LiveFound s) (h : Sound s) (hok : Ok s i)
    (hst : Step s i t) : LiveFound t := by
  obtain ⟨fuel, x, he⟩ := handle_of_step hst
  obtain ⟨⟨ts, data⟩, w⟩ := i
  cases data with
  | fork q c => exact hs.fork h hok he
  | exec q g =>
    rcases handle_exec he with ⟨-, rfl⟩ | ⟨r, hl, rfl⟩
    · exact hs
    · exact hs.lookRec (Or.inr (by rw [(procLook_some hl).2]; exact hl))
  | exit q code =>
    exact liveFound_flat.exit h (fun _ => hs) (fun d _ => hs.mark d code ts) he
  | comm | uid | gid | other =>
    have hr := handle_renamed he rfl
    exact hs.of_procLook hr.tracked (fun r _ => hr.pid r)
      (fun q => procLook_congr hr.buckets fun r _ => hr.pid r)
      (fun r _ ha => by rw [hr.alive] at ha; exact Or.inl ha)

theorem not_oneLive_step {s t : State} {i : Input} (h : Sound s) (hok : ¬ Ok s i)
    (hst : Step s i t) : ¬ OneLive t := by
  obtain ⟨fuel, x, he⟩ := handle_of_step hst
  obtain ⟨⟨ts, data⟩, w⟩ := i
  cases data with
  | fork q c => exact not_oneLive_fork h hok he
  | exec | exit | comm | uid | gid | other => exact absurd trivial hok

/-- **There is at most one live record of a pid after every event of a run exactly when every fork
meets the condition.** -/
theorem oneLive_iff_ok {tr : List (Input × State)} (hr : Steps Step init tr) :
    (∀ x ∈ tr, OneLive x.2) ↔ Steps (fun s i _ => Ok s i) init tr := by
  refine Steps.forall_mem_iff (J := fun s => Sound s ∧ LiveFound s) (G := Ok)
    (fun s hs => hs.2.oneLive) (fun s i t hs hst hok => ⟨hs.1.step hst, hs.2.step hs.1 hok hst⟩)
    (fun s i t hs hst hok => not_oneLive_step hs.1 hok hst) ⟨sound_init, ?_⟩ hr
  exact fun r ht => absurd ht (notMem_init r)

theorem oneLive_iff_ok_adopted : (∀ x ∈ trace 2 init adopted, OneLive x.2) ↔
    Steps (fun s i _ => Ok s i) init (trace 2 init adopted) :=
  oneLive_iff_ok adopted_steps

/-! ### Streams -/

/-- Between two forks of a child there is an exit of the child. -/
def WellFormed (stream : List ProcEvent) : Prop :=
  ∀ pre mid post ts ts' q q' c,
    stream = pre ++ ⟨ts, .fork q c⟩ :: mid ++ ⟨ts', .fork q' c⟩ :: post →
      ∃ ts code, (⟨ts, .exit c code⟩ : ProcEvent) ∈ mid

/-- Every fork with an exit of its child before it. -/
def padded : List ProcEvent → List ProcEvent
  | [] => []
  | e :: l =>
    match e.data with
    | .fork _ c => ⟨e.timestampNs, .exit c 0⟩ :: e :: padded l
    | _ => e :: padded l

theorem sublist_padded : ∀ l : List ProcEvent, l.Sublist (padded l)
  | [] => List.Sublist.slnil
  | ⟨ts, data⟩ :: l => by
    cases data with
    | fork q c => exact ((sublist_padded l).cons_cons _).cons _
    | exec | exit | comm | uid | gid | other => exact (sublist_padded l).cons_cons _

/-- Before a fork of the padded list stands an exit of its child. -/
theorem getLast?_of_padded : ∀ {l pre post : List ProcEvent} {ts : ℕ} {q c : Pid},
    padded l = pre ++ ⟨ts, .fork q c⟩ :: post →
      ∃ ts code, pre.getLast? = some ⟨ts, .exit c code⟩
  | [], pre, _, _, _, _, h => by cases pre <;> cases h
  | ⟨ts', data⟩ :: l, pre, post, ts, q, c, h => by
    have key : ∀ {a : ProcEvent} {pre : List ProcEvent}, padded l = pre ++ ⟨ts, .fork q c⟩ :: post →
        ∃ ts code, (a :: pre).getLast? = some ⟨ts, .exit c code⟩ := by
      intro a pre h
      obtain ⟨ts, code, hl⟩ := getLast?_of_padded h
      exact ⟨ts, code, by rw [List.getLast?_cons, hl]; rfl⟩
    cases data with
    | fork q' c' =>
      rcases pre with _ | ⟨a, _ | ⟨b, pre⟩⟩
      · cases h
      · cases h; exact ⟨_, 0, rfl⟩
      · simp only [padded, List.cons_append, List.cons.injEq] at h
        obtain ⟨ts₁, code, hl⟩ := key (a := b) h.2.2
        exact ⟨ts₁, code, by rw [List.getLast?_cons_cons]; exact hl⟩
    | exec | exit | comm | uid | gid | other =>
      rcases pre with _ | ⟨a, pre⟩
      · cases h
      · simp only [padded, List.cons_append, List.cons.injEq] at h
        exact key h.2

/-- **Every list of events is delivered by a well-formed stream.** -/
theorem exists_stream (l : List ProcEvent) : ∃ stream, WellFormed stream ∧ l.Sublist stream := by
  refine ⟨padded l, ?_, sublist_padded l⟩
  intro pre mid post ts ts' q q' c he
  obtain ⟨ts₁, code, hl⟩ := getLast?_of_padded he
  refine ⟨ts₁, code, ?_⟩
  rw [List.getLast?_append, List.getLast?_cons] at hl
  rcases hm : mid.getLast? with _ | a <;> rw [hm] at hl <;> cases hl
  exact List.mem_of_getLast? hm

/-- The fork of a process whose exit event is lost, and the next fork with its pid. -/
def lostExit : List Input := [
  input 1 (.fork 1 2) [(1, ['0']), (2, ['1'])],
  input 3 (.fork 1 2) [(2, ['1'])]]

/-- The stream `lostExit` is delivered from. -/
def lostExitStream : List ProcEvent :=
  [⟨1000000000, .fork 1 2⟩, ⟨2000000000, .exit 2 0⟩, ⟨3000000000, .fork 1 2⟩]

theorem lostExitStream_wellFormed : WellFormed lostExitStream := by
  intro pre mid post ts ts' q q' c he
  rcases pre with _ | ⟨a, _ | ⟨b, _ | ⟨d, pre⟩⟩⟩ <;> rcases mid with _ | ⟨m, _ | ⟨n, mid⟩⟩ <;>
    simp only [lostExitStream, List.nil_append, List.cons_append, List.cons.injEq,
      List.append_assoc, reduceCtorEq, and_false, false_and, List.append_eq_nil_iff,
      ProcEvent.mk.injEq, EventData.fork.injEq, List.nil_eq] at he
  obtain ⟨⟨-, -, rfl⟩, rfl, -⟩ := he
  exact ⟨2000000000, 0, List.mem_singleton_self _⟩

/-- Both records are alive. -/
theorem not_oneLive_lostExit : WellFormed lostExitStream ∧
    ((lostExit.map Input.even).Sublist lostExitStream) ∧
    Steps Step init (trace 0 init lostExit) ∧
    ¬ ∀ x ∈ trace 0 init lostExit, OneLive x.2 := by
  refine ⟨lostExitStream_wellFormed, ?_, steps_trace (by decide), fun hi => ?_⟩
  · exact ((List.Sublist.refl _).cons _).cons_cons _
  · have hone := forall_final (P := OneLive) (s := init) hi (by simp [lostExit, trace]) 1
    exact absurd (hone ⟨2, by decide⟩ 2 ⟨2, by decide⟩ (by decide) (by decide) (by decide))
      (by decide)

end Serie.Table.Incarnation
