import Serie.Fd.Ownership
import Serie.Model.Loop

/-! # Refreshes without wrong access

A wrong access is recorded and has no other effect, so whether there was one shows in the list of
them, which only grows (`grows_writes`). A refresh that goes through leaves it as it is exactly if
the slots that it frees, as many as the size that is read, were written (`prfsLook_faults_iff`). A
new record has no slots. So a turn of the loop of `even_exit` makes a wrong access only in the
refresh of its child (`exitTurn_faults_iff`). -/

namespace Serie.Fd.Renewal

open Serie.Model.Record Serie.Model.Prfs Serie.Model.Refresh Serie.Model.Table Serie.Model.Conn
open Serie.Model.Steps Serie.Model.Loop Serie.Fd.Clean Serie.Fd.Ownership

/-- The paths of `p` can be given up for those in `f`: as many slots as the size that is read there
were written. -/
def Renewable (p : Proc) (f : Files) : Prop :=
  p.fdPaths ≠ none → Freeable p.fdPaths (sizeRead f).toNat

/-! ### One refresh -/

section Look
variable {p : Proc} {m : Strs} {f : Files} {paths : Option (List Slot)} {n : ℕ}

theorem freeSlot_grows (j : ℕ) : m.faults <:+ (m.freeSlot paths j).faults := by
  unfold Strs.freeSlot
  split
  · exact List.suffix_cons _ _
  · split
    · exact List.suffix_cons _ _
    · exact List.suffix_cons _ _
    · exact List.suffix_refl _
    · exact List.suffix_refl _

theorem freeSlots_grows : m.faults <:+ (freeSlots paths n m).faults := by
  induction n with
  | zero => exact List.suffix_refl _
  | succ n ih =>
    rw [freeSlots_succ]
    exact ih.trans (freeSlot_grows n)

/-- **The list of wrong accesses only grows.** -/
theorem grows_writes (m₀ : Strs) : Writes fun _ m => m₀.faults <:+ m.faults where
  free h := h.trans freeSlots_grows
  drop h := h
  new _ h := h
  null _ h := h
  str _ _ h := h
  unread _ h := h

theorem grows_eq_iff {α : Type} {l₁ l₂ l₃ : List α} (h : l₁ <:+ l₂) (h' : l₂ <:+ l₃) :
    l₃ = l₁ ↔ l₂ = l₁ ∧ l₃ = l₂ := by
  constructor
  · rintro rfl
    have heq : l₃ = l₂ := h.eq_of_length_le h'.length_le
    exact ⟨heq.symm, heq⟩
  · rintro ⟨rfl, rfl⟩
    rfl

theorem freeSlots_faults_eq_iff :
    (freeSlots paths n m).faults = m.faults ↔ Freeable paths n :=
  ⟨fun h => freeSlots_faults_iff.mp (congrArg List.length h), freeSlots_faults⟩

/-- A new array is filled without wrong access. -/
theorem fdLoop_faults (es : List DirEntry) (hp : p.fdPaths = some (List.replicate n .unset))
    (hn : p.fdCoun = n) : (fdLoop es 0 p m).2.2.faults = m.faults := by
  obtain ⟨ids, h, -⟩ := fdLoop_listing es (Owns.refl m) hp (ArrayIs.replicate n)
    (by rw [List.length_replicate]; exact hn)
  exact h.faults

theorem prfsFd_faults_iff (hr : p.fdCoun = 0 ∨ f.fd ≠ none) :
    (prfsFd p m f).2.2.faults = m.faults ↔
      (p.fdPaths ≠ none → Freeable p.fdPaths p.fdCoun.toNat) := by
  unfold prfsFd
  by_cases h0 : p.fdCoun = 0
  · rw [if_pos h0, h0]
    exact iff_of_true rfl fun _ j hj => absurd hj (Nat.not_lt_zero j)
  rw [if_neg h0]
  rcases hd : f.fd with _ | dirs
  · exact absurd hd (hr.resolve_left h0)
  -- the old array is given up, and then there is no further wrong access
  have hc : ∃ q m', (if p.fdPaths ≠ none then prfsCleanFd p p.fdCoun m else (p, m)) = (q, m') ∧
      q.fdCoun = p.fdCoun ∧
      (m'.faults = m.faults ↔ (p.fdPaths ≠ none → Freeable p.fdPaths p.fdCoun.toNat)) := by
    by_cases hp : p.fdPaths = none
    · exact ⟨p, m, by rw [if_neg (by simp [hp])], rfl, iff_of_true rfl fun h => absurd hp h⟩
    · refine ⟨{ p with fdPaths := none }, freeSlots p.fdPaths p.fdCoun.toNat m,
        by rw [if_pos hp, prfsCleanFd_eq], rfl, ?_⟩
      rw [freeSlots_faults_eq_iff]
      exact ⟨fun h _ => h, fun h => h hp⟩
  obtain ⟨q, m', hq, hqc, hm'⟩ := hc
  rw [← hm']
  dsimp only
  rw [hq]
  by_cases ha : f.arrAlloc = false ∨ p.fdCoun < 0
  · rw [if_pos ha]
  · rw [if_neg ha, fdLoop_faults dirs rfl]
    dsimp only
    omega

theorem renews_of_readable (h : readable f = true) : renews f := by
  obtain ⟨g, hg⟩ := statRead_of_readable h
  have hst : statRead f ≠ none := by
    rw [hg]
    simp
  -- neither `prfs_status` nor `prfs_fd` has failed
  obtain ⟨h2, h3⟩ : (prfsStatus (prfsStat Proc.zero f).2 f).1 ≠ -1 ∧
      (prfsFd (prfsStatus (prfsStat Proc.zero f).2 f).2 ⟨0, [], []⟩ f).1 ≠ -1 := by
    simp only [readable, prfsLook, decide_eq_true_eq] at h
    split_ifs at h with h1 h2 h3
    · simp at h
    · simp at h
    · simp at h
    · exact ⟨h2, h3⟩
  have hs : f.status ≠ none := by
    intro hs
    simp [prfsStatus, hs] at h2
  obtain ⟨hsz, hcode⟩ := prfsStatus_size (p := (prfsStat Proc.zero f).2) hs
  refine ⟨hst, ?_, ?_⟩
  · rcases hok : statusOk f with _ | _
    · exact absurd (hcode.mpr hok) h2
    · rfl
  · rcases hd : f.fd with _ | dirs
    · refine Or.inl ?_
      by_contra hz
      refine h3 ?_
      unfold prfsFd
      rw [hsz, if_neg hz, hd]
    · exact Or.inr (by simp)

theorem prfsLook_grows : m.faults <:+ (prfsLook p m f).2.2.faults :=
  (grows_writes m).prfsLook (List.suffix_refl _)

/-- **No wrong access in a refresh.** -/
theorem prfsLook_faults_iff (h : readable f = true) :
    (prfsLook p m f).2.2.faults = m.faults ↔ Renewable p f := by
  obtain ⟨hst, hok, hr⟩ := renews_of_readable h
  rcases prfsLook_fd p m f with ⟨hn, -⟩ | ⟨-, -, hst', -⟩ | ⟨-, -, -, q, hc, hp, he⟩
  · rcases hn with hn | hn
    · exact absurd hn hst
    · simp [statusOk, prfsStatus, hn] at hok
  · rw [hok] at hst'
    cases hst'
  · rw [he, prfsFd_faults_iff (by rwa [hc]), hp, hc]
    rfl

end Look

/-! ### One turn of the loop -/

section Turn
variable {s t : State} {d c p : Ref} {w : World} {q : Pid}

/-- A record that is loaded has no paths to give up. -/
theorem procLoad_faults {f : Files} {calloc : Bool} (h : procLoad q f calloc s = (some p, t)) :
    t.strs.faults = s.strs.faults := by
  have hr : (calloc && readable f) = true := by
    rcases procLoad_cases h with ⟨-, hn, -⟩ | ⟨-, hr, -⟩
    · cases hn
    · exact hr
  rw [Bool.and_eq_true] at hr
  have hf : (prfsLook { Proc.zero with pid := q } s.strs f).2.2.faults = s.strs.faults :=
    (prfsLook_faults_iff hr.2).mpr fun hn => absurd rfl hn
  simp only [procLoad, prfsLook_readable, hr.1, hr.2, if_true] at h
  obtain ⟨-, rfl⟩ := Prod.mk.inj h
  exact hf

theorem findPare_faults (h : findPare q w s = (some p, t)) : t.strs.faults = s.strs.faults := by
  unfold findPare at h
  rcases hl : procLook s q with _ | r
  · rw [hl] at h
    dsimp only at h
    rcases hp : procLoad q (w.files q) w.procCalloc s with ⟨_ | r, s₁⟩
    · rw [hp] at h
      cases h
    rw [hp] at h
    dsimp only at h
    split_ifs at h
    · cases h
    obtain ⟨hrp, rfl⟩ := Prod.mk.inj h
    have hi : (procInse r w.nodeCalloc s₁).2.strs = s₁.strs := by
      unfold procInse
      split_ifs <;> rfl
    rw [hi]
    exact procLoad_faults hp
  · rw [hl] at h
    cases h
    rfl

theorem orphaned_strs : (orphaned d c w s).2.strs =
    (prfsLook ((headOff d c s).heap c) s.strs (w.files (s.heap c).pid)).2.2 := by
  rw [orphaned, headOff_relinked.pid, headOff_relinked.same]
  rfl

/-- **No wrong access in a turn that goes through.** -/
theorem exitTurn_faults_iff (hf : (s.heap d).firsChil = some c)
    (ht : exitTurn d c w s = .ret (0, t)) :
    s.strs.faults <:+ t.strs.faults ∧
      (t.strs.faults = s.strs.faults ↔ Renewable (s.heap c) (w.files (s.heap c).pid)) := by
  rcases exitTurn_cases (w := w) hf with ⟨-, he⟩ | ⟨hc, o, v, hv, ⟨-, he⟩ | ⟨p, rfl, -, he⟩⟩ <;>
    rw [ht] at he <;> cases he
  have hr : readable (w.files (s.heap c).pid) = true := by
    by_contra hr
    rw [orphaned_code, if_neg hr] at hc
    exact hc rfl
  have hrel : (attaChil (some p) (some c) v).2.strs = v.strs := by
    rw [(attaChil_relinked (s := v) (some p) (some c)).same]
  have hpaths : ((headOff d c s).heap c).fdPaths = (s.heap c).fdPaths :=
    headOff_relinked.field Proc.fdPaths (fun _ => rfl) c
  have hren : Renewable ((headOff d c s).heap c) (w.files (s.heap c).pid) ↔
      Renewable (s.heap c) (w.files (s.heap c).pid) := by
    rw [Renewable, hpaths]
    rfl
  rw [hrel, findPare_faults hv, orphaned_strs]
  exact ⟨prfsLook_grows, (prfsLook_faults_iff hr).trans hren⟩

end Turn

end Serie.Fd.Renewal
