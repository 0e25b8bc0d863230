import Serie.Model.Runs
import Serie.Tree.Rule

/-! # The parent pid and the parent

If every child reports the parent of its fork event, the `ppid` of a record is the pid of its
`pare`, except that an exec refreshes `ppid` and leaves the tree as it is: the two agree after every
event exactly as long as no exec of a record with a parent reports another one (`agree_iff_ok`). The
loop of `even_exit` refreshes as well, but attaches the child to the parent it reports. -/

namespace Serie.Tree.Ppid

open Serie.Lib.Trace Serie.Lib.Intrusive Serie.Model.Record Serie.Model.Prfs Serie.Model.Refresh
open Serie.Model.Table Serie.Model.Conn Serie.Model.Steps Serie.Model.Loop Serie.Model.Runs
open Serie.Tree.Invariant Serie.Tree.Rule

/-- Every parent has the pid that its children name. -/
def Agree (s : State) : Prop :=
  ∀ r ∈ s.tracked, ∀ p, (s.heap r).pare = some p → (s.heap r).ppid = (s.heap p).pid

/-- The child of a fork reports the parent that the event names. -/
def Honest (i : Input) : Prop :=
  match i.even.data with
  | .fork q c => ∀ g, statRead ((i.world 1).files c) = some g → g.ppid = q
  | _ => True

/-- The condition on an event: the record that an exec finds, if it has a parent, reports that
parent. -/
def Ok (s : State) (i : Input) : Prop :=
  match i.even.data with
  | .exec q _ => ∀ r p g, procLook s q = some r → (s.heap r).pare = some p →
      statRead ((i.world 0).files q) = some g → g.ppid = (s.heap p).pid
  | _ => True

section Keep
variable {s t : State} {d c p : Ref}

theorem Agree.of_keep (ha : Agree s) (h : Sound s)
    (hpid : ∀ r ∈ s.tracked, (t.heap r).pid = (s.heap r).pid)
    (hr : ∀ r ∈ t.tracked, (t.heap r).pare = none ∨ r ∈ s.tracked ∧
      (t.heap r).pare = (s.heap r).pare ∧ (t.heap r).ppid = (s.heap r).ppid) : Agree t := by
  intro r hrt p hp
  rcases hr r hrt with hn | ⟨hrs, hpare, hppid⟩
  · rw [hn] at hp; cases hp
  · rw [hpare] at hp
    rw [hppid, hpid p (h.pare_mem hrs hp)]
    exact ha r hrs p hp

theorem Agree.quiet (ha : Agree s) (h : Sound s) (hq : Quiet s t) : Agree t := by
  have hh : ∀ r ∈ s.tracked, t.heap r = s.heap r := fun r hr => hq.heap r (h.lt_next r hr)
  refine ha.of_keep h (fun r hr => by rw [hh r hr]) fun r hr => ?_
  rw [hq.tracked] at hr
  exact Or.inr ⟨hr, by rw [hh r hr], by rw [hh r hr]⟩

theorem Agree.adds (ha : Agree s) (h : Sound s) {x : Proc} (hx : Adds s x t)
    (hp : x.pare = none) : Agree t := by
  have hh : ∀ r ∈ s.tracked, t.heap r = s.heap r := fun r hr => by
    rw [hx.heap, Function.update_of_ne (h.lt_next r hr).ne]
  refine ha.of_keep h (fun r hr => by rw [hh r hr]) fun r hr => ?_
  rw [hx.tracked] at hr
  rcases hr with rfl | hr
  · exact Or.inl (by rw [hx.heap, Function.update_self, hp])
  · exact Or.inr ⟨hr, by rw [hh r hr], by rw [hh r hr]⟩

theorem agree_grows : Grows Agree where
  quiet h hq ha := ha.quiet h hq
  adds h hx hp ha := ha.adds h hx hp

theorem Agree.attach (ha : Agree s) (hne : p ≠ c) (hc : (s.heap c).ppid = (s.heap p).pid) :
    Agree (attaChil (some p) (some c) s).2 := by
  have hrl : Relinked s (attaChil (some p) (some c) s).2 := attaChil_relinked _ _
  intro r hr p' hp'
  rw [hrl.tracked] at hr
  rw [attaChil_pare hne] at hp'
  rw [hrl.ppid, hrl.pid]
  split_ifs at hp' with hrc
  · cases hp'; rw [hrc]; exact hc
  · exact ha r hr p' hp'

/-- The child is off the list and names the parent it reports; the others are as before. -/
theorem Agree.orphan (ha : Agree s) (h : Sound s) {w : World} :
    Agree (orphaned d c w s).2 := by
  refine ha.of_keep h (fun r _ => orphaned_pid r) fun r hr => ?_
  rw [orphaned_tracked] at hr
  by_cases hrc : r = c
  · exact Or.inl (by rw [orphaned_pare, if_pos hrc])
  · have hh := Handed.orphaned (d := d) (c := c) (w := w) (s := s)
    exact Or.inr ⟨hr, by rw [orphaned_pare, if_neg hrc],
      hh.other_field Proc.ppid (fun _ => rfl) (h.lt_next r hr) hrc⟩

/-- **A turn of the loop** attaches the child to the parent it names. -/
theorem Agree.turn (ha : Agree s) (h : InLoop d s) {w : World} {x : ℤ}
    (hf : (s.heap d).firsChil = some c) (he : exitTurn d c w s = .ret (x, t)) : Agree t := by
  have hct := (h.sound.firsChil h.mem hf).1
  obtain ⟨hus, hut, -, -⟩ := h.sound.orphan h.mem hf w
  refine agree_grows.turn h hf (ha.orphan h.sound) (fun g p v _ hg hpc hfd _ hv => ?_) he
  refine hv.attach hpc ?_
  rw [hfd.pid, (hus.found hfd).2.2.2 c (hut.ge hct), orphaned_ppid, hg]
  rfl

theorem Agree.loopEnd (ha : Agree s) (h : InLoop d s) {w : ℕ → World} {k : ℕ}
    (hl : LoopEnd d w k s t) : Agree t :=
  (hl.inv (I := fun u => InLoop d u ∧ Agree u)
    (fun _ _ _ _ _ ⟨hi, hu⟩ hf he => ⟨hi.turn hf he, hu.turn hi hf he⟩) ⟨h, ha⟩).2

end Keep

/-! ### Runs -/

section Step
variable {s t : State} {i : Input}

theorem Agree.fork (ha : Agree s) (h : Sound s) {q c : Pid} {ts : ℕ} {w : ℕ → World} {x : ℤ}
    (hh : ∀ g, statRead ((w 1).files c) = some g → g.ppid = q)
    (he : evenFork q c ts w s = .ret (x, t)) : Agree t := by
  refine agree_grows.fork h ha (fun p s₁ y s₂ hfd _ h₁ _ hy hadd hs₂ => ?_) he
  have hne : p ≠ s₁.next := (h₁.lt_next p (h.found hfd).2.1).ne
  refine hs₂.attach hne ?_
  obtain ⟨g, hg, hppid⟩ := hy.stat
  rw [hadd.heap, Function.update_self, Function.update_of_ne hne, hfd.pid]
  exact hppid.trans (hh g hg)

/-- **A step keeps the agreement if it meets the condition.** -/
theorem Agree.step (ha : Agree s) (h : Sound s) (hh : Honest i) (hok : Ok s i)
    (hst : Step s i t) : Agree t := by
  obtain ⟨fuel, x, he⟩ := handle_of_step hst
  obtain ⟨⟨ts, data⟩, w⟩ := i
  cases data with
  | fork q c => exact ha.fork h hh he
  | exec q g =>
    rcases handle_exec he with ⟨-, rfl⟩ | ⟨r, hl, rfl⟩
    · exact ha
    · intro r' hr' p hp
      rw [lookRec_field Proc.pare prfsLook_pare] at hp
      rw [lookRec_pid]
      by_cases hrr : r' = r
      · subst hrr
        rw [lookRec_self, prfsLook_ppid]
        rcases hg : statRead ((w 0).files q) with _ | g
        · exact ha r' hr' p hp
        · exact hok r' p g hl hp hg
      · rw [lookRec_of_ne hrr]; exact ha r' hr' p hp
  | exit q code =>
    rcases h.evenExit_inv he with ⟨-, rfl⟩ | ⟨d, -, hd, ⟨-, rfl⟩ | ⟨p, t₀, -, ht, hend⟩⟩
    · exact ha
    · refine ha.of_keep h (fun r _ => Sound.markDead_pid d code ts r) fun r hr => Or.inr ⟨hr,
        Sound.markDead_pare d code ts r, ?_⟩
      by_cases hrd : r = d
      · subst hrd; simp [markDead]
      · simp [hrd]
    · refine Agree.loopEnd (ha.of_keep h (fun r _ => ?_) fun r hr => ?_) (ht.inLoop hd) hend
      · rw [ht.relinked.pid, Sound.markDead_pid]
      · rw [ht.tracked] at hr
        rw [ht.pare]
        split_ifs with hrd
        · exact Or.inl rfl
        · refine Or.inr ⟨hr, rfl, ?_⟩
          rw [ht.relinked.ppid, upd_heap, Function.update_of_ne hrd]
  | comm | uid | gid | other =>
    have hr := handle_renamed he rfl
    exact ha.of_keep h (fun r _ => hr.pid r) fun r hrt => Or.inr
      ⟨hr.tracked ▸ hrt, hr.pare r, hr.field Proc.ppid (fun _ => rfl) r⟩

/-- **An exec that reports another parent** breaks the agreement. -/
theorem not_agree_step (hok : ¬ Ok s i) (hst : Step s i t) : ¬ Agree t := by
  obtain ⟨fuel, x, he⟩ := handle_of_step hst
  obtain ⟨⟨ts, data⟩, w⟩ := i
  cases data with
  | exec q g =>
    simp only [Ok, not_forall] at hok
    obtain ⟨r, p, g, hl, hp, hg, hne⟩ := hok
    rcases handle_exec he with ⟨hl', -⟩ | ⟨r', hl', rfl⟩ <;> rw [hl] at hl' <;> cases hl'
    intro ha
    have hag := ha r (procLook_some hl).1 p
      ((lookRec_field Proc.pare prfsLook_pare r).trans hp)
    rw [lookRec_self, prfsLook_ppid, hg, lookRec_pid] at hag
    exact hne hag
  | fork | exit | comm | uid | gid | other => exact absurd trivial hok

end Step

/-- **The parent pids agree with the tree after every event of a run exactly when every exec of the
run meets the condition.** -/
theorem agree_iff_ok {tr : List (Input × State)}
    (hr : Steps (fun s i t => Step s i t ∧ Honest i) init tr) :
    (∀ x ∈ tr, Agree x.2) ↔ Steps (fun s i _ => Ok s i) init tr := by
  refine Steps.forall_mem_iff (J := fun s => Sound s ∧ Agree s) (G := Ok) (fun s hs => hs.2)
    (fun s i t hs hst hok => ⟨hs.1.step hst.1, hs.2.step hs.1 hst.2 hok hst.1⟩)
    (fun s i t hs hst hok => not_agree_step hok hst.1) ⟨sound_init, ?_⟩ hr
  exact fun r ht => absurd ht (notMem_init r)

/-- What the child of a fork reports, as a computation. -/
theorem honest_fork {ts : ℕ} {q c : Pid} {w : ℕ → World}
    (h : (statRead ((w 1).files c)).all (fun g => g.ppid = q) = true) :
    Honest ⟨⟨ts, .fork q c⟩, w⟩ := by
  intro g hg
  rw [show statRead ((w 1).files c) = some g from hg] at h
  simpa using h

theorem adopted_honest :
    Steps (fun s i t => Step s i t ∧ Honest i) init (trace 2 init adopted) :=
  steps_and.mpr ⟨adopted_steps, honest_fork (by decide), honest_fork (by decide), trivial, trivial⟩

theorem agree_iff_ok_adopted : (∀ x ∈ trace 2 init adopted, Agree x.2) ↔
    Steps (fun s i _ => Ok s i) init (trace 2 init adopted) :=
  agree_iff_ok adopted_honest

/-- A process is handed to process `9` and makes an exec before the exit of its parent is handled.
-/
def earlyExec : List Input := [
  input 1 (.fork 1 2) [(1, ['0']), (2, ['1'])],
  input 2 (.exec 2 2) [(2, ['9'])]]

/-- The record names `9` and is under the record of `1`. -/
theorem not_agree_earlyExec :
    Steps (fun s i t => Step s i t ∧ Honest i) init (trace 0 init earlyExec) ∧
      ¬ ∀ x ∈ trace 0 init earlyExec, Agree x.2 := by
  refine ⟨steps_and.mpr ⟨steps_trace (by decide), honest_fork (by decide), trivial, trivial⟩,
    fun hi => ?_⟩
  have hag := forall_final (P := Agree) (s := init) hi (by simp [earlyExec, trace]) 1
  exact absurd (hag ⟨2, by decide⟩ 0 (by decide)) (by decide)

end Serie.Tree.Ppid
