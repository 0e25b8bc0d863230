import Serie.Log.Clock

/-! # The resolution in 64 bits

`time_t` and the nanoseconds are signed 64-bit numbers. `timespec_sub` and `timespec_add` on them
(`timespecSub64`, `timespecAdd64`) compute the times of `resoTime` as long as its seconds fit
(`resoTime64_eq`). An event that is logged twice gets the same wall-clock time exactly if the
difference of the two clocks is the same both times (`resoTime64_exact`). -/

namespace Serie.Log.Resolution

open Serie.Model.Record Serie.Model.Logg Serie.Records.Lifetime Serie.Log.Clock

/-! ### Arithmetic -/

/-- The number is a signed 64-bit number. -/
def Fits (z : ℤ) : Prop := -2 ^ 63 ≤ z ∧ z < 2 ^ 63

instance (z : ℤ) : Decidable (Fits z) := inferInstanceAs (Decidable (_ ∧ _))

/-- The result of an operation, unless it overflows. -/
def int64 (z : ℤ) : Option ℤ := if Fits z then some z else none

/-- `timespec_add`, unless it overflows. -/
def timespecAdd64 (a b : Timespec) : Option Timespec :=
  (int64 (b.tvSec + a.tvSec)).bind fun sec => (int64 (b.tvNsec + a.tvNsec)).bind fun nsec =>
    if nsec ≥ 1000000000 then
      (int64 (nsec - 1000000000)).bind fun nsec => (int64 (sec + 1)).map fun sec => ⟨sec, nsec⟩
    else some ⟨sec, nsec⟩

/-- `timespec_sub`, unless it overflows. -/
def timespecSub64 (a b : Timespec) : Option Timespec :=
  (int64 (a.tvSec - b.tvSec)).bind fun sec => (int64 (a.tvNsec - b.tvNsec)).bind fun nsec =>
    if nsec < 0 then
      (int64 (nsec + 1000000000)).bind fun nsec => (int64 (sec - 1)).map fun sec => ⟨sec, nsec⟩
    else some ⟨sec, nsec⟩

/-- The resolved time, unless a sum overflows. -/
def resoTime64 (someTime bootNow realNow : Timespec) : Option Timespec :=
  (timespecSub64 realNow bootNow).bind fun bootBase => timespecAdd64 bootBase someTime

section Arith
variable {a b : Timespec} {z : ℤ}

theorem int64_of_fits (h : Fits z) : int64 z = some z := if_pos h

theorem timespecAdd64_eq (ha : Normal a) (hb : Normal b) (hs : Fits (b.tvSec + a.tvSec))
    (hr : Fits (timespecAdd a b).tvSec) : timespecAdd64 a b = some (timespecAdd a b) := by
  simp only [Records.Lifetime.Normal] at ha hb
  have hn : Fits (b.tvNsec + a.tvNsec) := by
    unfold Fits
    omega
  unfold timespecAdd64
  rw [int64_of_fits hs, int64_of_fits hn, Option.bind_some, Option.bind_some]
  unfold timespecAdd at hr ⊢
  dsimp only at hr ⊢
  split_ifs at hr ⊢ with hc
  · have hn' : Fits (b.tvNsec + a.tvNsec - 1000000000) := by
      unfold Fits
      omega
    rw [int64_of_fits hn', int64_of_fits hr]
    rfl
  · rfl

theorem timespecSub64_eq (ha : Normal a) (hb : Normal b) (hs : Fits (a.tvSec - b.tvSec))
    (hr : Fits (timespecSub a b).tvSec) : timespecSub64 a b = some (timespecSub a b) := by
  simp only [Records.Lifetime.Normal] at ha hb
  have hn : Fits (a.tvNsec - b.tvNsec) := by
    unfold Fits
    omega
  unfold timespecSub64
  rw [int64_of_fits hs, int64_of_fits hn, Option.bind_some, Option.bind_some]
  unfold timespecSub at hr ⊢
  dsimp only at hr ⊢
  split_ifs at hr ⊢ with hc
  · have hn' : Fits (a.tvNsec - b.tvNsec + 1000000000) := by
      unfold Fits
      omega
    rw [int64_of_fits hn', int64_of_fits hr]
    rfl
  · rfl

theorem eq_of_nanos_eq (ha : Normal a) (hb : Normal b) (h : nanos a = nanos b) : a = b := by
  simp only [Records.Lifetime.Normal] at ha hb
  simp only [nanos] at h
  ext
  · omega
  · omega

end Arith

/-! ### Resolved times -/

/-- An event time and the two clocks as they are read for it: all are normalised, and the seconds of
their sums fit. -/
structure Reading (someTime bootNow realNow : Timespec) : Prop where
  event : Normal someTime
  boot : Normal bootNow
  real : Normal realNow
  diff : Fits (realNow.tvSec - bootNow.tvSec)
  base : Fits (timespecSub realNow bootNow).tvSec
  sum : Fits (someTime.tvSec + (timespecSub realNow bootNow).tvSec)
  reso : Fits (resoTime someTime bootNow realNow).tvSec

section Reading
variable {t boot real t' boot' real' : Timespec}

theorem resoTime64_eq (h : Reading t boot real) :
    resoTime64 t boot real = some (resoTime t boot real) := by
  rw [resoTime64, timespecSub64_eq h.real h.boot h.diff h.base, Option.bind_some,
    timespecAdd64_eq (timespecSub_spec h.real h.boot).1 h.event h.sum h.reso]
  rfl

theorem resolved_eq (h : Reading t boot real) {c : Clocks} (hb : c.bootNow = some boot)
    (hr : c.realNow = some real) : resolved t c = resoTime64 t boot real := by
  rw [resoTime64_eq h, resolved, hb, hr]

/-- **The resolution is exact.** The resolved time is normalised and lies as far from the event time
as the clocks from each other; under the same difference of the clocks two times keep their
distance, and one time resolves to one instant under this condition only. -/
theorem resoTime64_exact (h : Reading t boot real) (h' : Reading t' boot' real') :
    ∃ r r', resoTime64 t boot real = some r ∧ resoTime64 t' boot' real' = some r' ∧
      (Normal r ∧ nanos r = nanos real - nanos boot + nanos t) ∧
      (Normal r' ∧ nanos r' = nanos real' - nanos boot' + nanos t') ∧
      (nanos real - nanos boot = nanos real' - nanos boot' →
        nanos r' - nanos r = nanos t' - nanos t) ∧
      (t = t' → (r = r' ↔ nanos real - nanos boot = nanos real' - nanos boot')) := by
  have hn := normal_resoTime h.event h.boot h.real
  have hn' := normal_resoTime h'.event h'.boot h'.real
  have he := nanos_resoTime h.event h.boot h.real
  have he' := nanos_resoTime h'.event h'.boot h'.real
  refine ⟨_, _, resoTime64_eq h, resoTime64_eq h', ⟨hn, by omega⟩, ⟨hn', by omega⟩,
    fun _ => by omega, ?_⟩
  rintro rfl
  constructor
  · intro heq
    rw [heq] at he
    omega
  · exact fun hd => eq_of_nanos_eq hn hn' (by omega)

/-- A borrow and a carry: the clocks show 10.3 s and 4.8 s, the event was at 0.5 s. -/
theorem reading_borrow : Reading ⟨0, 500000000⟩ ⟨4, 800000000⟩ ⟨10, 300000000⟩ := by
  refine ⟨?_, ?_, ?_, by decide, by decide, by decide, by decide⟩ <;>
    simp [Records.Lifetime.Normal]

/-- A second later, an event at 1.2 s. -/
theorem reading_later : Reading ⟨1, 200000000⟩ ⟨5, 800000000⟩ ⟨11, 300000000⟩ := by
  refine ⟨?_, ?_, ?_, by decide, by decide, by decide, by decide⟩ <;>
    simp [Records.Lifetime.Normal]

theorem resoTime64_exact_later :
    ∃ r r', resoTime64 ⟨0, 500000000⟩ ⟨4, 800000000⟩ ⟨10, 300000000⟩ = some r ∧
      resoTime64 ⟨1, 200000000⟩ ⟨5, 800000000⟩ ⟨11, 300000000⟩ = some r' ∧
      nanos r' - nanos r = 700000000 := by
  obtain ⟨r, r', hr, hr', -, -, h, -⟩ := resoTime64_exact reading_borrow reading_later
  exact ⟨r, r', hr, hr', (h (by decide)).trans (by decide)⟩

example : resoTime64 ⟨0, 500000000⟩ ⟨4, 800000000⟩ ⟨10, 300000000⟩ = some ⟨6, 0⟩ := by decide

end Reading

end Serie.Log.Resolution
