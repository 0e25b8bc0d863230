import Serie.Records.Death

/-! # Lifetimes

A birth time is written when a fork adds the child, a death time when an exit finds the record. So
both are zero or the time of the last event of that kind (`Written`), and while the timestamps do
not decrease a death is not recorded before the birth (`lifetimes_of_run`): the fork that gave the
record its birth time came before every exit that found it. -/

namespace Serie.Records.Lifetime

open Serie.Lib.Trace Serie.Model.Record Serie.Model.Prfs Serie.Model.Refresh Serie.Model.Table
open Serie.Model.Conn Serie.Model.Steps Serie.Model.Loop Serie.Model.Runs Serie.Tree.Invariant
open Serie.Tree.Rule Serie.Records.Death

/-! ### Times -/

/-- The part below a second is in its range. -/
def Normal (a : Timespec) : Prop := 0 ≤ a.tvNsec ∧ a.tvNsec < 1000000000

/-- The time `a` is exactly `n` nanoseconds. -/
def Represents (a : Timespec) (n : ℕ) : Prop := Normal a ∧ a.tvSec * 1000000000 + a.tvNsec = n

/-- `a` is not later than `b`: by the seconds, then by the nanoseconds. -/
def NotAfter (a b : Timespec) : Prop :=
  a.tvSec < b.tvSec ∨ a.tvSec = b.tvSec ∧ a.tvNsec ≤ b.tvNsec

theorem represents_splitNs (n : ℕ) : Represents (splitNs n) n := by
  simp only [Represents, Normal, splitNs]
  omega

theorem normal_zero : Normal ⟨0, 0⟩ := by simp [Normal]

theorem notAfter_splitNs {m n : ℕ} (h : m ≤ n) : NotAfter (splitNs m) (splitNs n) := by
  simp only [NotAfter, splitNs]
  omega

theorem zero_notAfter_splitNs (n : ℕ) : NotAfter ⟨0, 0⟩ (splitNs n) := by
  simp only [NotAfter, splitNs]
  omega

/-! ### Births -/

/-- The event is a fork that succeeds, and `r` is found for its child afterwards. -/
def Begins (s : State) (i : Input) (t : State) (r : Ref) : Prop :=
  ∃ q c fuel, i.even.data = .fork q c ∧ handle fuel i.even i.world s = .ret (0, t) ∧
    procLook t c = some r

/-- From `s` to `t` no time was written: the records added have none. -/
structure Timeless (s t : State) : Prop where
  sub : s.tracked ⊆ t.tracked
  old : ∀ r ∈ s.tracked, (t.heap r).birthTime = (s.heap r).birthTime ∧
    (t.heap r).deathTime = (s.heap r).deathTime
  new : ∀ r ∈ t.tracked, r ∉ s.tracked → (t.heap r).birthTime = ⟨0, 0⟩ ∧
    (t.heap r).deathTime = ⟨0, 0⟩

namespace Timeless

variable {s t u : State}

theorem refl (s : State) : Timeless s s :=
  ⟨subset_rfl, fun _ _ => ⟨rfl, rfl⟩, fun _ h hn => absurd h hn⟩

theorem same (h : Timeless s t) (hu : u.tracked = t.tracked)
    (hb : ∀ r ∈ t.tracked, (u.heap r).birthTime = (t.heap r).birthTime)
    (hd : ∀ r ∈ t.tracked, (u.heap r).deathTime = (t.heap r).deathTime) : Timeless s u where
  sub := by rw [hu]; exact h.sub
  old r hr := by rw [hb r (h.sub hr), hd r (h.sub hr)]; exact h.old r hr
  new r hr hn := by
    rw [hu] at hr
    rw [hb r hr, hd r hr]; exact h.new r hr hn

theorem adds (h : Timeless s t) (ht : Sound t) {x : Proc} (ha : Adds t x u)
    (hb : x.birthTime = ⟨0, 0⟩) (hd : x.deathTime = ⟨0, 0⟩) : Timeless s u where
  sub := by rw [ha.tracked]; exact h.sub.trans (Set.subset_insert _ _)
  old r hr := by
    rw [ha.heap, Function.update_of_ne (ht.lt_next r (h.sub hr)).ne]
    exact h.old r hr
  new r hr hn := by
    rw [ha.tracked] at hr
    rcases hr with rfl | hr
    · rw [ha.heap, Function.update_self]; exact ⟨hb, hd⟩
    · rw [ha.heap, Function.update_of_ne (ht.lt_next r hr).ne]
      exact h.new r hr hn

theorem flat (s : State) : Flat (Timeless s) where
  quiet ht hq h := h.same hq.tracked (fun r hr => by rw [hq.heap r (ht.lt_next r hr)])
    fun r hr => by rw [hq.heap r (ht.lt_next r hr)]
  relinked hr h := h.same hr.tracked (fun r _ => hr.field Proc.birthTime (fun _ => rfl) r)
    fun r _ => hr.field Proc.deathTime (fun _ => rfl) r
  load ht _ hx ha h := h.adds ht ha hx.birthTime hx.deathTime
  refresh _ _ _ h := h.same rfl (fun r _ => lookRec_field Proc.birthTime prfsLook_birthTime r)
    fun r _ => lookRec_field Proc.deathTime prfsLook_deathTime r

theorem renamed (h : Renamed s t) : Timeless s t :=
  (refl s).same h.tracked (fun r _ => h.field Proc.birthTime (fun _ => rfl) r)
    fun r _ => h.field Proc.deathTime (fun _ => rfl) r

end Timeless

/-! ### Steps -/

/-- **What a step writes to the times**: the death time of the record that an exit finds, the birth
time of the child that a fork adds. -/
structure Stamps (s : State) (i : Input) (t : State) : Prop where
  sub : s.tracked ⊆ t.tracked
  birth : ∀ r ∈ s.tracked, (t.heap r).birthTime = (s.heap r).birthTime
  death : ∀ r ∈ s.tracked, ¬ Dies s i r → (t.heap r).deathTime = (s.heap r).deathTime
  newDeath : ∀ r ∈ t.tracked, r ∉ s.tracked → (t.heap r).deathTime = ⟨0, 0⟩
  newBirth : ∀ r ∈ t.tracked, r ∉ s.tracked → ¬ Begins s i t r → (t.heap r).birthTime = ⟨0, 0⟩
  dies : ∀ r, Dies s i r → r ∈ s.tracked ∧ (t.heap r).deathTime = splitNs i.even.timestampNs
  begins : ∀ r, Begins s i t r → r ∈ t.tracked ∧ r ∉ s.tracked ∧
    (t.heap r).birthTime = splitNs i.even.timestampNs

section Step
variable {s t : State} {i : Input}

theorem stamps_of_timeless (h : Timeless s t) (hd : ∀ r, ¬ Dies s i r)
    (hb : ∀ r, ¬ Begins s i t r) : Stamps s i t where
  sub := h.sub
  birth r hr := (h.old r hr).1
  death r hr _ := (h.old r hr).2
  newDeath r hr hn := (h.new r hr hn).2
  newBirth r hr hn _ := (h.new r hr hn).1
  dies r hr := absurd hr (hd r)
  begins r hr := absurd hr (hb r)

theorem not_dies_fork {q c : Pid} {ts : ℕ} {w : ℕ → World} (r : Ref) :
    ¬ Dies s ⟨⟨ts, .fork q c⟩, w⟩ r := by
  rintro ⟨q', code, hd, -⟩
  cases hd

/-- A fork that begins a life has returned `0`. -/
theorem begins_fork_iff {q c : Pid} {ts : ℕ} {w : ℕ → World} {x : ℤ}
    (he : evenFork q c ts w s = .ret (x, t)) {r : Ref} :
    Begins s ⟨⟨ts, .fork q c⟩, w⟩ t r ↔ x = 0 ∧ procLook t c = some r := by
  constructor
  · rintro ⟨q', c', fuel, hd, hh, hl⟩
    cases hd
    have heq : Outcome.ret (x, t) = .ret (0, t) := he.symm.trans hh
    cases heq
    exact ⟨rfl, hl⟩
  · rintro ⟨rfl, hl⟩
    exact ⟨q, c, 0, rfl, he, hl⟩

theorem not_begins_exit {q : Pid} {code ts : ℕ} {w : ℕ → World} (r : Ref) :
    ¬ Begins s ⟨⟨ts, .exit q code⟩, w⟩ t r := by
  rintro ⟨q', c, fuel, hd, -⟩
  cases hd

theorem dies_exit_iff {q : Pid} {code ts : ℕ} {w : ℕ → World} {r : Ref} :
    Dies s ⟨⟨ts, .exit q code⟩, w⟩ r ↔ procLook s q = some r := by
  refine ⟨?_, fun hl => ⟨q, code, rfl, hl⟩⟩
  rintro ⟨q', code', hd, hl⟩
  cases hd
  exact hl

theorem stamps_of_adds {s₁ s₂ : State} {y : Proc} (h : Timeless s s₁) (h₁ : Sound s₁)
    (ha : Adds s₁ y s₂) (hr : Relinked s₂ t) (hb : y.birthTime = splitNs i.even.timestampNs)
    (hd : y.deathTime = ⟨0, 0⟩) (hnd : ∀ r, ¬ Dies s i r)
    (hbegin : ∀ r, Begins s i t r ↔ procLook t y.pid = some r) : Stamps s i t := by
  have htr : t.tracked = insert s₁.next s₁.tracked := by rw [hr.tracked, ha.tracked]
  have hnew : s₁.next ∉ s.tracked := fun hm => lt_irrefl _ (h₁.lt_next _ (h.sub hm))
  have hold : ∀ r ∈ s₁.tracked, s₂.heap r = s₁.heap r := fun r hr₁ => by
    rw [ha.heap, Function.update_of_ne (h₁.lt_next r hr₁).ne]
  have hbt : ∀ r, (t.heap r).birthTime = (s₂.heap r).birthTime :=
    fun r => hr.field Proc.birthTime (fun _ => rfl) r
  have hdt : ∀ r, (t.heap r).deathTime = (s₂.heap r).deathTime :=
    fun r => hr.field Proc.deathTime (fun _ => rfl) r
  have hself : s₂.heap s₁.next = y := by rw [ha.heap, Function.update_self]
  -- a life begins with the new record, and with no other
  have hbegin' : ∀ r, Begins s i t r ↔ r = s₁.next := fun r => by
    rw [hbegin, hr.procLook, ha.procLook h₁.lt_next, if_pos rfl, Option.some_inj, eq_comm]
  constructor
  · rw [htr]; exact h.sub.trans (Set.subset_insert _ _)
  · intro r hrs
    rw [hbt, hold r (h.sub hrs)]; exact (h.old r hrs).1
  · intro r hrs _
    rw [hdt, hold r (h.sub hrs)]; exact (h.old r hrs).2
  · intro r hrt hn
    rw [htr] at hrt
    rw [hdt]
    rcases hrt with rfl | hrt
    · rw [hself, hd]
    · rw [hold r hrt]; exact (h.new r hrt hn).2
  · intro r hrt hn hnb
    rw [htr] at hrt
    rw [hbt]
    rcases hrt with rfl | hrt
    · exact absurd ((hbegin' _).mpr rfl) hnb
    · rw [hold r hrt]; exact (h.new r hrt hn).1
  · exact fun r hd => absurd hd (hnd r)
  · intro r hbr
    rw [(hbegin' r).mp hbr, htr, hbt, hself]
    exact ⟨Set.mem_insert _ _, hnew, hb⟩

theorem stamps_fork (h : Sound s) {q c : Pid} {ts : ℕ} {w : ℕ → World} {x : ℤ}
    (he : evenFork q c ts w s = .ret (x, t)) : Stamps s ⟨⟨ts, .fork q c⟩, w⟩ t := by
  have hfail : x = -1 → ∀ r, ¬ Begins s ⟨⟨ts, .fork q c⟩, w⟩ t r := by
    intro hx r hr
    have := ((begins_fork_iff he).mp hr).1
    omega
  rcases evenFork_spec h.lt_next he with
    ⟨hx, -, -, hq⟩ | ⟨p, s₁, hfd, ⟨hx, -, hq⟩ | ⟨rfl, -, y, s₂, hy, ha, ht⟩⟩
  · have ht : Timeless s t := (Timeless.flat s).quiet h hq (Timeless.refl s)
    exact stamps_of_timeless ht not_dies_fork (hfail hx)
  · have ht₁ := (Timeless.flat s).found h (Timeless.refl s) hfd
    have ht : Timeless s t := (Timeless.flat s).quiet (h.found hfd).1 hq ht₁
    exact stamps_of_timeless ht not_dies_fork (hfail hx)
  · have ht₁ : Timeless s s₁ := (Timeless.flat s).found h (Timeless.refl s) hfd
    have hr : Relinked s₂ t := by rw [ht]; exact attaChil_relinked _ _
    refine stamps_of_adds ht₁ (h.found hfd).1 ha hr rfl hy.deathTime not_dies_fork fun r => ?_
    rw [begins_fork_iff he]
    simp [hy.pid]

theorem stamps_exit (h : Sound s) {q : Pid} {code ts fuel : ℕ} {w : ℕ → World} {x : ℤ}
    (he : evenExit fuel q code ts w s = .ret (x, t)) : Stamps s ⟨⟨ts, .exit q code⟩, w⟩ t := by
  rcases hl : procLook s q with _ | d
  · rcases h.evenExit_inv he with ⟨-, rfl⟩ | ⟨d, hl', -⟩
    · refine stamps_of_timeless (Timeless.refl t) (fun r hd => ?_) not_begins_exit
      rw [dies_exit_iff, hl] at hd; cases hd
    · rw [hl] at hl'; cases hl'
  · have hm : Timeless (s.upd d (markDead code ts)) t :=
      (Timeless.flat _).exit h (fun hn => by rw [hl] at hn; cases hn)
        (fun d' hl' => by rw [hl] at hl'; cases hl'; exact Timeless.refl _) he
    have hbm : ∀ r, ((s.upd d (markDead code ts)).heap r).birthTime = (s.heap r).birthTime := by
      intro r
      by_cases hrd : r = d
      · subst hrd; simp [markDead]
      · simp [hrd]
    constructor
    · exact hm.sub
    · intro r hr
      rw [(hm.old r hr).1, hbm]
    · intro r hr hd
      have hrd : r ≠ d := by rintro rfl; exact hd (dies_exit_iff.mpr hl)
      rw [(hm.old r hr).2]
      simp [hrd]
    · exact fun r hr hn => (hm.new r hr hn).2
    · exact fun r hr hn _ => (hm.new r hr hn).1
    · intro r hd
      rw [dies_exit_iff, hl] at hd
      obtain rfl := Option.some.inj hd
      have hr := (procLook_some hl).1
      refine ⟨hr, ?_⟩
      rw [(hm.old d hr).2]
      simp [markDead]
    · exact fun r hb => absurd hb (not_begins_exit r)

/-- **Every step writes times as `Stamps` says.** -/
theorem stamps_of_step (h : Sound s) (hst : Step s i t) : Stamps s i t := by
  obtain ⟨fuel, x, he⟩ := handle_of_step hst
  obtain ⟨⟨ts, data⟩, w⟩ := i
  have hother : (∀ q c, data ≠ .fork q c) → (∀ q c, data ≠ .exit q c) → Timeless s t →
      Stamps s ⟨⟨ts, data⟩, w⟩ t := by
    refine fun hf hx ht => stamps_of_timeless ht ?_ ?_
    · rintro r ⟨q, code, hd, -⟩
      exact hx q code hd
    · rintro r ⟨q, c, fuel, hd, -⟩
      exact hf q c hd
  cases data with
  | fork q c => exact stamps_fork h he
  | exit q code => exact stamps_exit h he
  | exec q g =>
    refine hother (by simp) (by simp) ?_
    rcases handle_exec he with ⟨-, rfl⟩ | ⟨r, -, rfl⟩
    · exact Timeless.refl _
    · exact (Timeless.refl s).same rfl
        (fun r _ => lookRec_field Proc.birthTime prfsLook_birthTime r)
        fun r _ => lookRec_field Proc.deathTime prfsLook_deathTime r
  | comm | uid | gid | other =>
    exact hother (by simp) (by simp) (Timeless.renamed (handle_renamed he rfl))

end Step

/-! ### Runs -/

/-- `a` is the time of the last event of the run that is a `Q`-step, to the nanosecond; it is zero
if there is none. -/
def Written (Q : State → Input → State → Prop) (tr : List (Input × State)) (a : Timespec) : Prop :=
  Steps (fun s i t => ¬ Q s i t) init tr ∧ a = ⟨0, 0⟩ ∨
    ∃ i, LastStep Q init tr i ∧ Represents a i.even.timestampNs

/-- A death was recorded on `r`. -/
def Recorded (tr : List (Input × State)) (r : Ref) : Prop :=
  ∃ i, LastStep (fun s i _ => Dies s i r) init tr i

section Run
variable {tr : List (Input × State)}

theorem birth_written (hr : Steps Step init tr) (r : Ref) :
    (r ∉ (final init tr).tracked → Steps (fun s i t => ¬ Begins s i t r) init tr) ∧
      (r ∈ (final init tr).tracked →
        Steps (fun s i t => ¬ Begins s i t r) init tr ∧
            ((final init tr).heap r).birthTime = ⟨0, 0⟩ ∨
          ∃ i, LastStep (fun s i t => Begins s i t r) init tr i ∧
            ((final init tr).heap r).birthTime = splitNs i.even.timestampNs) := by
  refine hr.last_written (J := Sound) (D := fun s => r ∈ s.tracked)
    (V := fun s => (s.heap r).birthTime) (f := fun i => splitNs i.even.timestampNs)
    (fun _ _ _ h hs => h.step hs) ?_ ?_ sound_init ?_
  · intro s i t h hs hb
    obtain ⟨ht, -, hv⟩ := (stamps_of_step h hs).begins r hb
    exact ⟨ht, hv⟩
  · intro s i t h hs hb
    have hst := stamps_of_step h hs
    exact ⟨fun hrs => ⟨hst.sub hrs, hst.birth r hrs⟩, fun hrt hn => hst.newBirth r hrt hn hb⟩
  · exact notMem_init r

theorem death_written (hr : Steps Step init tr) (r : Ref) :
    (r ∉ (final init tr).tracked → Steps (fun s i _ => ¬ Dies s i r) init tr) ∧
      (r ∈ (final init tr).tracked →
        Steps (fun s i _ => ¬ Dies s i r) init tr ∧
            ((final init tr).heap r).deathTime = ⟨0, 0⟩ ∨
          ∃ i, LastStep (fun s i _ => Dies s i r) init tr i ∧
            ((final init tr).heap r).deathTime = splitNs i.even.timestampNs) := by
  refine hr.last_written (J := Sound) (D := fun s => r ∈ s.tracked)
    (V := fun s => (s.heap r).deathTime) (f := fun i => splitNs i.even.timestampNs)
    (fun _ _ _ h hs => h.step hs) ?_ ?_ sound_init ?_
  · intro s i t h hs hd
    have hst := stamps_of_step h hs
    obtain ⟨hrs, hv⟩ := hst.dies r hd
    exact ⟨hst.sub hrs, hv⟩
  · intro s i t h hs hd
    have hst := stamps_of_step h hs
    exact ⟨fun hrs => ⟨hst.sub hrs, hst.death r hrs hd⟩, fun hrt hn => hst.newDeath r hrt hn⟩
  · exact notMem_init r

/-- The birth time is not later than any time that no event of the run comes after. -/
theorem birth_notAfter (hr : Steps Step init tr) {r : Ref} (ht : r ∈ (final init tr).tracked)
    {n : ℕ} (hn : ∀ x ∈ tr, x.1.even.timestampNs ≤ n) :
    NotAfter ((final init tr).heap r).birthTime (splitNs n) := by
  rcases (birth_written hr r).2 ht with ⟨-, hb⟩ | ⟨i, hi, hb⟩
  · rw [hb]; exact zero_notAfter_splitNs n
  · obtain ⟨t, hm⟩ := hi.mem
    rw [hb]; exact notAfter_splitNs (hn _ hm)

theorem birth_notAfter_death (hr : Steps Step init tr) :
    (tr.map fun x => x.1.even.timestampNs).Pairwise (· ≤ ·) →
      ∀ r ∈ (final init tr).tracked, Recorded tr r →
        NotAfter ((final init tr).heap r).birthTime ((final init tr).heap r).deathTime := by
  refine Steps.history (R := Step) (s := init) (K := fun tr =>
    (tr.map fun x => x.1.even.timestampNs).Pairwise (· ≤ ·) →
      ∀ r ∈ (final init tr).tracked, Recorded tr r →
        NotAfter ((final init tr).heap r).birthTime ((final init tr).heap r).deathTime)
    ?_ ?_ hr
  · exact fun _ r ht => absurd ht (notMem_init r)
  · intro tr i t hr ih hi hp r hrt hrec
    have hs := sound_final hr
    have hst := stamps_of_step hs hi
    rw [List.map_append, List.pairwise_append] at hp
    obtain ⟨hp, -, hle⟩ := hp
    rw [final_concat] at hrt ⊢
    by_cases hd : Dies (final init tr) i r
    · -- the death is recorded now: every event before is not later
      obtain ⟨hrs, hv⟩ := hst.dies r hd
      rw [hv, hst.birth r hrs]
      refine birth_notAfter hr hrs fun x hx => ?_
      exact hle _ (List.mem_map_of_mem hx) _ (by simp)
    · obtain ⟨j, hj⟩ := hrec
      rw [lastStep_concat] at hj
      obtain ⟨hd', -⟩ | ⟨-, hj⟩ := hj
      · exact absurd hd' hd
      by_cases hrs : r ∈ (final init tr).tracked
      · rw [hst.birth r hrs, hst.death r hrs hd]
        exact ih hp r hrs ⟨j, hj⟩
      · have hno := (death_written hr r).1 hrs
        exact absurd hj (not_lastStep hno)

/-- **Lifetimes are recorded exactly and in order**, in every state of a run whose timestamps do not
decrease. -/
theorem lifetimes_of_run (hr : Steps Step init tr)
    (hp : (tr.map fun x => x.1.even.timestampNs).Pairwise (· ≤ ·)) :
    ∀ r ∈ (final init tr).tracked,
      (Normal ((final init tr).heap r).birthTime ∧ Normal ((final init tr).heap r).deathTime) ∧
      Written (fun s i t => Begins s i t r) tr ((final init tr).heap r).birthTime ∧
      Written (fun s i _ => Dies s i r) tr ((final init tr).heap r).deathTime ∧
      (Recorded tr r →
        NotAfter ((final init tr).heap r).birthTime ((final init tr).heap r).deathTime) := by
  intro r ht
  have hb := (birth_written hr r).2 ht
  have hd := (death_written hr r).2 ht
  refine ⟨⟨?_, ?_⟩, ?_, ?_, birth_notAfter_death hr hp r ht⟩
  · rcases hb with ⟨-, hb⟩ | ⟨i, -, hb⟩ <;> rw [hb]
    · exact normal_zero
    · exact (represents_splitNs _).1
  · rcases hd with ⟨-, hd⟩ | ⟨i, -, hd⟩ <;> rw [hd]
    · exact normal_zero
    · exact (represents_splitNs _).1
  · refine hb.imp_right ?_
    rintro ⟨i, hi, hb⟩
    exact ⟨i, hi, hb ▸ represents_splitNs _⟩
  · refine hd.imp_right ?_
    rintro ⟨i, hi, hd⟩
    exact ⟨i, hi, hd ▸ represents_splitNs _⟩

end Run

theorem lifetimes_of_run_adopted :
    let tr := trace 2 init adopted
    (tr.map fun x => x.1.even.timestampNs).Pairwise (· ≤ ·) ∧
      ∀ r ∈ (final init tr).tracked,
        (Normal ((final init tr).heap r).birthTime ∧ Normal ((final init tr).heap r).deathTime) ∧
        Written (fun s i t => Begins s i t r) tr ((final init tr).heap r).birthTime ∧
        Written (fun s i _ => Dies s i r) tr ((final init tr).heap r).deathTime ∧
        (Recorded tr r →
          NotAfter ((final init tr).heap r).birthTime ((final init tr).heap r).deathTime) := by
  have hp : ((trace 2 init adopted).map fun x => x.1.even.timestampNs).Pairwise (· ≤ ·) := by
    decide
  exact ⟨hp, lifetimes_of_run adopted_steps hp⟩

end Serie.Records.Lifetime
