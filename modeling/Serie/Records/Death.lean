import Serie.Model.Runs
import Serie.Tree.Rule

/-! # The record of a death

`even_exit` marks a record dead, with the time and the exit code. Only two events change the death
of a dead record (`sameDeath_iff_ok`): an exec for its pid that can read `/proc/<pid>/stat`, which
makes it alive again, and an exit for its pid with another time or another code. So recorded deaths
stay in a run exactly when it has no such events (`deaths_stay_iff_ok`). -/

namespace Serie.Records.Death

open Serie.Lib.CText Serie.Lib.Trace Serie.Model.Record Serie.Model.Prfs Serie.Model.Refresh
open Serie.Model.Table Serie.Model.Conn Serie.Model.Steps Serie.Model.Loop Serie.Model.Runs
open Serie.Tree.Invariant Serie.Tree.Rule

/-- The death of a record. -/
def death (p : Proc) : Bool × Timespec × ℤ := (p.alive, p.deathTime, p.exitCode)

/-- A record of the table that is dead. -/
def Dead (s : State) (r : Ref) : Prop := r ∈ s.tracked ∧ (s.heap r).alive = false

/-- The event is an exit that finds the record `r`. -/
def Dies (s : State) (i : Input) (r : Ref) : Prop :=
  ∃ q code, i.even.data = .exit q code ∧ procLook s q = some r

/-- The condition on an event: an exec that finds a dead record cannot read its stat line, and an
exit that finds one says what the record says. -/
def Ok (s : State) (i : Input) : Prop :=
  match i.even.data with
  | .exec q _ => ∀ r, procLook s q = some r → (s.heap r).alive = false →
      statRead ((i.world 0).files q) = none
  | .exit q code => ∀ r, procLook s q = some r → (s.heap r).alive = false →
      (s.heap r).deathTime = splitNs i.even.timestampNs ∧ (s.heap r).exitCode = toInt32 code
  | _ => True

/-! ### Changes that see no dead record -/

/-- The dead records of `s` and `t` are the same, with the same deaths. -/
structure SameDead (s t : State) : Prop where
  old : ∀ r, Dead s r → r ∈ t.tracked ∧ death (t.heap r) = death (s.heap r)
  new : ∀ r, Dead t r → Dead s r

namespace SameDead

variable {s t u : State}

theorem refl (s : State) : SameDead s s := ⟨fun _ h => ⟨h.1, rfl⟩, fun _ h => h⟩

theorem dead (h : SameDead s t) {r : Ref} (hr : Dead s r) : Dead t r := by
  obtain ⟨ht, hd⟩ := h.old r hr
  exact ⟨ht, (congrArg Prod.fst hd).trans hr.2⟩

theorem trans (h : SameDead s t) (h' : SameDead t u) : SameDead s u where
  old r hr := by
    obtain ⟨hu, hd⟩ := h'.old r (h.dead hr)
    exact ⟨hu, hd.trans (h.old r hr).2⟩
  new r hr := h.new r (h'.new r hr)

theorem of_death (ht : t.tracked = s.tracked)
    (hd : ∀ r ∈ s.tracked, death (t.heap r) = death (s.heap r)) : SameDead s t where
  old r hr := ⟨by rw [ht]; exact hr.1, hd r hr.1⟩
  new r hr := by
    have hrs : r ∈ s.tracked := by rw [← ht]; exact hr.1
    exact ⟨hrs, (congrArg Prod.fst (hd r hrs)).symm.trans hr.2⟩

theorem quiet (h : Sound s) (hq : Quiet s t) : SameDead s t :=
  of_death hq.tracked fun r hr => by rw [hq.heap r (h.lt_next r hr)]

theorem relinked (hr : Relinked s t) : SameDead s t :=
  of_death hr.tracked fun r _ => hr.field death (fun _ => rfl) r

theorem renamed (hr : Renamed s t) : SameDead s t :=
  of_death hr.tracked fun r _ => hr.field death (fun _ => rfl) r

theorem adds (h : Sound s) {x : Proc} (ha : Adds s x t) (hx : x.alive = true) : SameDead s t where
  old r hr := ⟨by rw [ha.tracked]; exact Or.inr hr.1,
    by rw [ha.heap, Function.update_of_ne (h.lt_next r hr.1).ne]⟩
  new r hr := by
    obtain ⟨ht, hd⟩ := hr
    rw [ha.tracked] at ht
    rcases ht with rfl | ht
    · rw [ha.heap, Function.update_self, hx] at hd; cases hd
    · rw [ha.heap, Function.update_of_ne (h.lt_next r ht).ne] at hd
      exact ⟨ht, hd⟩

theorem lookRec {r : Ref} {f : Files} (hr : (s.heap r).alive = true ∨ statRead f = none) :
    SameDead s (lookRec r f s).2 := by
  refine of_death rfl fun q _ => ?_
  by_cases hq : q = r
  · subst hq
    rw [lookRec_self]
    simp only [death, prfsLook_deathTime, prfsLook_exitCode, prfsLook_alive]
    rcases hr with hr | hr <;> simp [hr]
  · rw [lookRec_of_ne hq]

/-- Keeping the deaths of `s` is an invariant that links do not matter for. -/
theorem flat (s : State) : Flat (SameDead s) where
  quiet h hq hs := hs.trans (quiet h hq)
  relinked hr hs := hs.trans (relinked hr)
  load h _ hx ha hs := hs.trans (adds h ha hx.alive)
  refresh _ _ ha hs := hs.trans (lookRec (Or.inl ha))

theorem fork (h : Sound s) {q c : Pid} {ts : ℕ} {w : ℕ → World} {x : ℤ}
    (he : evenFork q c ts w s = .ret (x, t)) : SameDead s t :=
  (flat s).fork h (refl s) (fun _ _ _ _ _ _ h₁ hs₁ hy ha => hs₁.trans (adds h₁ ha hy.alive)) he

end SameDead

/-! ### Exits -/

section Exit
variable {s t : State} {q : Pid} {code ts fuel : ℕ} {w : ℕ → World} {x : ℤ} {d : Ref}

theorem death_markDead (p : Proc) :
    death (markDead code ts p) = (false, splitNs ts, toInt32 code) := by
  simp [death, markDead]

/-- **An exit** records the death of the record it finds and keeps the other deaths. -/
theorem evenExit_death (h : Sound s) (hl : procLook s q = some d)
    (he : evenExit fuel q code ts w s = .ret (x, t)) :
    SameDead (s.upd d (markDead code ts)) t ∧ d ∈ t.tracked ∧
      death (t.heap d) = (false, splitNs ts, toInt32 code) := by
  have hd := (procLook_some hl).1
  have hm : Dead (s.upd d (markDead code ts)) d :=
    ⟨hd, by rw [Sound.markDead_alive, if_pos rfl]⟩
  have hmd : death ((s.upd d (markDead code ts)).heap d) = (false, splitNs ts, toInt32 code) := by
    simp [death_markDead]
  have key : SameDead (s.upd d (markDead code ts)) t :=
    (SameDead.flat _).exit h (fun hn => by rw [hl] at hn; cases hn)
      (fun d' hl' => by rw [hl] at hl'; cases hl'; exact SameDead.refl _) he
  obtain ⟨hdt, hdd⟩ := key.old d hm
  exact ⟨key, hdt, hdd.trans hmd⟩

end Exit

/-! ### Steps -/

section Step
variable {s t : State} {i : Input}

theorem dies_of_dead (h : Sound s) (hs : Step s i t) {r : Ref} (hr : Dead t r) :
    Dead s r ∨ Dies s i r := by
  obtain ⟨fuel, x, he⟩ := handle_of_step hs
  obtain ⟨⟨ts, data⟩, w⟩ := i
  cases data with
  | fork q c => exact Or.inl ((SameDead.fork h he).new r hr)
  | exec q g =>
    rcases handle_exec he with ⟨-, rfl⟩ | ⟨r', -, rfl⟩
    · exact Or.inl hr
    · refine Or.inl ⟨hr.1, ?_⟩
      by_contra ha
      have := lookRec_alive (f := (w 0).files q) (r := r') (q := r) (s := s) (by simpa using ha)
      rw [hr.2] at this; cases this
  | exit q code =>
    rcases hl : procLook s q with _ | d
    · rcases h.evenExit_inv he with ⟨-, rfl⟩ | ⟨d, hl', -⟩
      · exact Or.inl hr
      · rw [hl] at hl'; cases hl'
    · obtain ⟨htr, ha⟩ := (evenExit_death h hl he).1.new r hr
      rw [Sound.markDead_alive] at ha
      split_ifs at ha with hrd
      · exact Or.inr ⟨q, code, rfl, by rw [hrd]; exact hl⟩
      · exact Or.inl ⟨htr, ha⟩
  | comm | uid | gid | other => exact Or.inl ((SameDead.renamed (handle_renamed he rfl)).new r hr)

theorem dead_of_dies (h : Sound s) (hs : Step s i t) {r : Ref} (hr : Dies s i r) : Dead t r := by
  obtain ⟨fuel, x, he⟩ := handle_of_step hs
  obtain ⟨⟨ts, data⟩, w⟩ := i
  obtain ⟨q, code, hd, hl⟩ := hr
  simp only at hd
  subst hd
  obtain ⟨-, ht, hdd⟩ := evenExit_death h hl he
  exact ⟨ht, congrArg Prod.fst hdd⟩

theorem tracked_of_step (h : Sound s) (hs : Step s i t) {r : Ref} (hr : Dead s r) :
    r ∈ t.tracked := by
  obtain ⟨fuel, x, he⟩ := handle_of_step hs
  obtain ⟨⟨ts, data⟩, w⟩ := i
  cases data with
  | fork q c => exact ((SameDead.fork h he).old r hr).1
  | exec q g =>
    rcases handle_exec he with ⟨-, rfl⟩ | ⟨r', -, rfl⟩
    · exact hr.1
    · exact hr.1
  | exit q code =>
    rcases hl : procLook s q with _ | d
    · rcases h.evenExit_inv he with ⟨-, rfl⟩ | ⟨d, hl', -⟩
      · exact hr.1
      · rw [hl] at hl'; cases hl'
    · refine ((evenExit_death h hl he).1.old r ⟨hr.1, ?_⟩).1
      rw [Sound.markDead_alive]
      split_ifs
      · rfl
      · exact hr.2
  | comm | uid | gid | other =>
    exact ((SameDead.renamed (handle_renamed he rfl)).old r hr).1

/-- **A step keeps the deaths recorded before it exactly when it meets the condition.** -/
theorem sameDeath_iff_ok (h : Sound s) (hs : Step s i t) :
    (∀ r, Dead s r → death (t.heap r) = death (s.heap r)) ↔ Ok s i := by
  obtain ⟨fuel, x, he⟩ := handle_of_step hs
  obtain ⟨⟨ts, data⟩, w⟩ := i
  cases data with
  | fork q c =>
    exact iff_of_true (fun r hr => ((SameDead.fork h he).old r hr).2) trivial
  | exec q g =>
    rcases handle_exec he with ⟨hl, rfl⟩ | ⟨r, hl, rfl⟩
    · exact iff_of_true (fun _ _ => rfl) fun r hr => by rw [hl] at hr; cases hr
    · constructor
      · intro hk r' hl' ha
        rw [hl] at hl'; cases hl'
        have := congrArg Prod.fst (hk r ⟨(procLook_some hl).1, ha⟩)
        rw [lookRec_self] at this
        simpa [death, prfsLook_alive, ha] using this
      · intro hok r' hr'
        by_cases ha : (s.heap r).alive = true
        · exact ((SameDead.lookRec (Or.inl ha)).old r' hr').2
        · exact ((SameDead.lookRec (Or.inr (hok r hl (by simpa using ha)))).old r' hr').2
  | exit q code =>
    rcases hl : procLook s q with _ | d
    · rcases h.evenExit_inv he with ⟨-, rfl⟩ | ⟨d, hl', -⟩
      · exact iff_of_true (fun _ _ => rfl) fun r hr => by rw [hl] at hr; cases hr
      · rw [hl] at hl'; cases hl'
    · obtain ⟨hsd, -, hdd⟩ := evenExit_death h hl he
      constructor
      · intro hk r' hl' ha
        rw [hl] at hl'; cases hl'
        have := hk d ⟨(procLook_some hl).1, ha⟩
        rw [hdd] at this
        simp only [death, Prod.mk.injEq] at this
        exact ⟨this.2.1.symm, this.2.2.symm⟩
      · intro hok r hr
        by_cases hrd : r = d
        · subst hrd
          obtain ⟨h1, h2⟩ := hok r hl hr.2
          rw [hdd, death, h1, h2, hr.2]
        · have hr' : Dead (s.upd d (markDead code ts)) r :=
            ⟨hr.1, by rw [Sound.markDead_alive, if_neg hrd]; exact hr.2⟩
          rw [(hsd.old r hr').2, upd_heap, Function.update_of_ne hrd]
  | comm | uid | gid | other =>
    exact iff_of_true (fun r hr => ((SameDead.renamed (handle_renamed he rfl)).old r hr).2) trivial

end Step

/-- **Recorded deaths stay exactly when every event of the run meets the condition.** -/
theorem deaths_stay_iff_ok {tr : List (Input × State)} (hr : Steps Step init tr) :
    Stays Dies (fun s r => death (s.heap r)) init tr ↔ Steps (fun s i _ => Ok s i) init tr := by
  have hk := stays_iff_keeps (D := Dead) (V := fun s r => death (s.heap r)) (Q := Dies)
    (J := Sound) (R := Step) (fun _ _ _ h hs => h.step hs)
    (fun _ _ _ h hs r hr => dies_of_dead h hs hr)
    (fun _ _ _ h hs r hr => dead_of_dies h hs hr)
    (fun _ _ _ h hs r hr he => ⟨tracked_of_step h hs hr, (congrArg Prod.fst he).trans hr.2⟩)
    sound_init hr
  have hc := Steps.congr (J := Sound) (R := Step) (B := fun s i _ => Ok s i)
    (fun _ _ _ h hs => h.step hs) (fun _ _ _ h hs => sameDeath_iff_ok h hs) sound_init hr
  have hinit : ∀ r, Dead init r → ∀ x ∈ tr, death (x.2.heap r) = death (init.heap r) :=
    fun r hd => absurd hd.1 (notMem_init r)
  rw [← hc, ← hk]
  exact ⟨fun h => ⟨hinit, h⟩, fun h => h.2⟩

theorem deaths_stay_iff_ok_adopted :
    Stays Dies (fun s r => death (s.heap r)) init (trace 2 init adopted) ↔
      Steps (fun s i _ => Ok s i) init (trace 2 init adopted) :=
  deaths_stay_iff_ok adopted_steps

/-- A process exits; the fork of the next process with its pid is not delivered, but its exec is. -/
def reusedExec : List Input := [
  input 1 (.fork 1 2) [(1, ['0']), (2, ['1'])],
  input 2 (.exit 2 0) [],
  input 3 (.exec 2 2) [(2, ['1'])]]

/-- The exec makes the dead record alive. -/
theorem not_deaths_stay_reusedExec : Steps Step init (trace 0 init reusedExec) ∧
    ¬ Stays Dies (fun s r => death (s.heap r)) init (trace 0 init reusedExec) := by
  have hr : Steps Step init (trace 0 init reusedExec) := steps_trace (by decide)
  refine ⟨hr, fun h => ?_⟩
  have hd := h [_] _ _ [_] rfl 1 ⟨2, 0, rfl, by decide⟩ _ (List.mem_singleton_self _)
  exact absurd (congrArg Prod.fst hd) (by decide)

end Serie.Records.Death
