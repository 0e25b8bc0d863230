import Serie.Model.Logg
import Serie.Records.Lifetime

/-! # Wall-clock times

`logg_time_reso` adds to a time since boot the difference of two clocks, which it reads one after
the other. So the time that is resolved is late by the delay between the two reads
(`nanos_resoTime`), and since every resolution reads the clocks anew, the birth and the death of one
record keep their order exactly if the difference of the two delays is not above the lifetime
(`inOrder_iff`). -/

namespace Serie.Log.Clock

open Serie.Lib.CText Serie.Model.Record Serie.Model.Logg Serie.Records.Lifetime

/-! ### Times as numbers -/

/-- A time in nanoseconds. -/
def nanos (a : Timespec) : ℤ := a.tvSec * 1000000000 + a.tvNsec

/-- What a clock shows `n` nanoseconds after its zero. -/
def clockAt (n : ℤ) : Timespec := ⟨n / 1000000000, n % 1000000000⟩

theorem normal_clockAt (n : ℤ) : Normal (clockAt n) := by
  simp only [Records.Lifetime.Normal, clockAt]
  omega

theorem nanos_clockAt (n : ℤ) : nanos (clockAt n) = n := by
  simp only [nanos, clockAt]
  omega

theorem notAfter_iff {a b : Timespec} (ha : Normal a) (hb : Normal b) :
    NotAfter a b ↔ nanos a ≤ nanos b := by
  simp only [Records.Lifetime.Normal] at ha hb
  simp only [NotAfter, nanos]
  omega

theorem timespecAdd_spec {a b : Timespec} (ha : Normal a) (hb : Normal b) :
    Normal (timespecAdd a b) ∧ nanos (timespecAdd a b) = nanos a + nanos b := by
  simp only [Records.Lifetime.Normal] at ha hb
  simp only [timespecAdd]
  split_ifs with hc
  · simp only [Records.Lifetime.Normal, nanos]
    omega
  · simp only [Records.Lifetime.Normal, nanos]
    omega

theorem timespecSub_spec {a b : Timespec} (ha : Normal a) (hb : Normal b) :
    Normal (timespecSub a b) ∧ nanos (timespecSub a b) = nanos a - nanos b := by
  simp only [Records.Lifetime.Normal] at ha hb
  simp only [timespecSub]
  split_ifs with hc
  · simp only [Records.Lifetime.Normal, nanos]
    omega
  · simp only [Records.Lifetime.Normal, nanos]
    omega

/-! ### Resolved times -/

/-- The time that `logg_time_reso` prints, from the two clocks it has read. -/
def resoTime (someTime bootNow realNow : Timespec) : Timespec :=
  timespecAdd (timespecSub realNow bootNow) someTime

/-- The same, if both clocks could be read. -/
def resolved (someTime : Timespec) (c : Clocks) : Option Timespec :=
  match c.bootNow, c.realNow with
  | some bootNow, some realNow => some (resoTime someTime bootNow realNow)
  | _, _ => none

/-- **`logg_time_reso`** prints the resolved time. -/
theorem loggTimeReso_eq (someTime : Timespec) (c : Clocks) (buffSize : ℕ) :
    loggTimeReso someTime c buffSize =
      match (resolved someTime c).bind fun r => (c.strftime r.tvSec).map fun t => (r, t) with
      | none => (-1, c.stale)
      | some (r, t) => (0, (t ++ ch '.' :: print09 r.tvNsec).take (buffSize - 1)) := by
  unfold loggTimeReso resolved
  rcases c.bootNow with _ | bootNow
  · rfl
  rcases c.realNow with _ | realNow
  · rfl
  dsimp only [Option.bind_some, resoTime]
  rcases c.strftime (timespecAdd (timespecSub realNow bootNow) someTime).tvSec with _ | t <;> rfl

theorem normal_resoTime {a bootNow realNow : Timespec} (ha : Normal a) (hb : Normal bootNow)
    (hr : Normal realNow) : Normal (resoTime a bootNow realNow) :=
  (timespecAdd_spec (timespecSub_spec hr hb).1 ha).1

theorem nanos_resoTime {a bootNow realNow : Timespec} (ha : Normal a) (hb : Normal bootNow)
    (hr : Normal realNow) :
    nanos (resoTime a bootNow realNow) = nanos a + (nanos realNow - nanos bootNow) := by
  obtain ⟨hn, hsub⟩ := timespecSub_spec hr hb
  rw [resoTime, (timespecAdd_spec hn ha).2, hsub, add_comm]

/-! ### One record -/

/-- The clocks are read at `t₀` and `t₁` for the birth and at `t₂` and `t₃` for the death, in
nanoseconds of the monotonic clock; the wall clock is ahead of it by `offset`. -/
structure ReadAt (v : Visit) (offset t₀ t₁ t₂ t₃ : ℤ) : Prop where
  birthBoot : v.birth.bootNow = some (clockAt t₀)
  birthReal : v.birth.realNow = some (clockAt (t₁ + offset))
  deathBoot : v.death.bootNow = some (clockAt t₂)
  deathReal : v.death.realNow = some (clockAt (t₃ + offset))

/-- The times resolved for the birth and the death are in order. -/
def InOrder (p : Proc) (v : Visit) : Prop :=
  ∀ b d, resolved p.birthTime v.birth = some b → resolved p.deathTime v.death = some d →
    NotAfter b d

theorem resolved_of_read {a : Timespec} {c : Clocks} {t t' offset : ℤ} (ha : Normal a)
    (hb : c.bootNow = some (clockAt t)) (hr : c.realNow = some (clockAt (t' + offset))) :
    ∃ r, resolved a c = some r ∧ Normal r ∧ nanos r = nanos a + (t' - t) + offset := by
  refine ⟨resoTime a (clockAt t) (clockAt (t' + offset)), by rw [resolved, hb, hr], ?_, ?_⟩
  · exact normal_resoTime ha (normal_clockAt t) (normal_clockAt _)
  · rw [nanos_resoTime ha (normal_clockAt t) (normal_clockAt _), nanos_clockAt, nanos_clockAt]
    omega

/-- **Birth and death keep their order exactly if the lifetime covers the difference of the
delays.** -/
theorem inOrder_iff {p : Proc} {v : Visit} {offset t₀ t₁ t₂ t₃ : ℤ} (hb : Normal p.birthTime)
    (hd : Normal p.deathTime) (hv : ReadAt v offset t₀ t₁ t₂ t₃) :
    InOrder p v ↔ nanos p.birthTime + (t₁ - t₀) ≤ nanos p.deathTime + (t₃ - t₂) := by
  obtain ⟨b, hrb, hnb, hb'⟩ := resolved_of_read hb hv.birthBoot hv.birthReal
  obtain ⟨d, hrd, hnd, hd'⟩ := resolved_of_read hd hv.deathBoot hv.deathReal
  have hord : NotAfter b d ↔
      nanos p.birthTime + (t₁ - t₀) ≤ nanos p.deathTime + (t₃ - t₂) := by
    rw [notAfter_iff hnb hnd, hb', hd']
    omega
  rw [← hord]
  constructor
  · exact fun h => h b d hrb hrd
  · intro h b' d' hb' hd'
    rw [hrb] at hb'
    rw [hrd] at hd'
    cases hb'
    cases hd'
    exact h

/-! ### A short life -/

/-- A process that dies a nanosecond after its birth. -/
def brief : Proc := { Proc.zero with birthTime := ⟨1, 0⟩, deathTime := ⟨1, 1⟩ }

/-- The clocks at the given times, the wall clock a day ahead; nothing else fails. -/
def reads (t₀ t₁ t₂ t₃ : ℤ) : Visit where
  object := true
  item _ := true
  array := true
  entry _ := true
  arrayText := true
  text := true
  realloc := true
  fill _ := 0
  birth := ⟨some (clockAt t₀), some (clockAt (t₁ + 86400000000000)), fun _ => some [], []⟩
  death := ⟨some (clockAt t₂), some (clockAt (t₃ + 86400000000000)), fun _ => some [], []⟩

theorem readAt_reads (t₀ t₁ t₂ t₃ : ℤ) :
    ReadAt (reads t₀ t₁ t₂ t₃) 86400000000000 t₀ t₁ t₂ t₃ :=
  ⟨rfl, rfl, rfl, rfl⟩

theorem normal_brief : Normal brief.birthTime ∧ Normal brief.deathTime := by
  simp [Records.Lifetime.Normal, brief]

theorem inOrder_iff_brief : InOrder brief (reads 2000000000 2000000300 2000000400 2000000700) :=
  (inOrder_iff normal_brief.1 normal_brief.2 (readAt_reads _ _ _ _)).mpr (by decide)

/-- With a microsecond between the first two reads and none between the others, the death is
resolved before the birth. -/
theorem not_inOrder_brief : NotAfter brief.birthTime brief.deathTime ∧ brief.deathTime.tvSec ≠ 0 ∧
    ReadAt (reads 2000000000 2000001000 2000002000 2000002000) 86400000000000 2000000000 2000001000
      2000002000 2000002000 ∧
    ¬ InOrder brief (reads 2000000000 2000001000 2000002000 2000002000) := by
  refine ⟨by simp [NotAfter, brief], by decide, readAt_reads _ _ _ _, fun h => ?_⟩
  have hbd := h ⟨86401, 1000⟩ ⟨86401, 1⟩ (by decide) (by decide)
  simp [NotAfter] at hbd

end Serie.Log.Clock
