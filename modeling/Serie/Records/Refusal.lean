import Serie.Model.Runs
import Serie.Records.Status

/-! # A refresh that fails

`prfs_look` writes into the record as it reads, and its three parts are not undone. So a refresh
that returns `-1` has left the record alone only if the stat line could not be read; otherwise the
parts before the one that failed are renewed, and the fields that only the later parts write are as
they were (`refused_of_failed`). -/

namespace Serie.Records.Refusal

open Serie.Lib.CText Serie.Lib.Trace Serie.Model.Record Serie.Model.Prfs Serie.Model.Refresh
open Serie.Model.Table Serie.Model.Conn Serie.Model.Runs Serie.Records.Status

/-- The record without the fields that a refresh writes. -/
def unread (p : Proc) : Proc :=
  { p with
    name := [], state := 0, ppid := 0, birthPpid := 0, alive := false
    tgid := 0, ruid := 0, euid := 0, rgid := 0, egid := 0
    fdCoun := 0, fdPaths := none }

/-- The fields that the stat line gives. -/
structure StatRenewed (p : Proc) (g : StatFields) (t : Proc) : Prop where
  name : t.name = g.name
  state : t.state = g.state
  ppid : t.ppid = g.ppid
  birthPpid : t.birthPpid = if p.birthPpid = -1 then g.ppid else p.birthPpid
  alive : t.alive = true

/-- The fields that only `prfs_status` and `prfs_fd` write. -/
def statusPart (p : Proc) : Pid × (ℕ × ℕ × ℕ × ℕ) × ℤ × Option (List Slot) :=
  (p.tgid, (p.ruid, p.euid, p.rgid, p.egid), p.fdCoun, p.fdPaths)

/-- The credentials that the lines of a status file give. -/
structure StatusRenewed (p : Proc) (lines : List (List Byte)) (t : Proc) : Prop where
  tgid : t.tgid = ((lastOf tgidKey lines).map tgidOf).getD (-1)
  ruid : t.ruid = ((lastOf uidKey lines).map realOf).getD p.ruid
  euid : t.euid = ((lastOf uidKey lines).map effectiveOf).getD p.euid
  rgid : t.rgid = ((lastOf gidKey lines).map realOf).getD p.rgid
  egid : t.egid = ((lastOf gidKey lines).map effectiveOf).getD p.egid

/-- **What a failed refresh leaves** of the record `p` with the answers `f`. -/
structure Refused (p : Proc) (f : Files) (t : Proc) : Prop where
  cause : statRead f = none ∨ f.status = none ∨ ∃ text, f.status = some text ∧
    (Incomplete (fgetsLines 256 text) ∨ countOf (fgetsLines 256 text) ≠ 0)
  unread : unread t = unread p
  noStat : statRead f = none → t = p
  stat : ∀ g, statRead f = some g → StatRenewed p g t
  noStatus : f.status = none → statusPart t = statusPart p
  status : ∀ text, statRead f ≠ none → f.status = some text →
    StatusRenewed p (credLines (fgetsLines 256 text)) t
  incomplete : ∀ text, f.status = some text → Incomplete (fgetsLines 256 text) →
    t.fdPaths = p.fdPaths
  unlisted : f.fd = none → t.fdPaths = p.fdPaths

section Look
variable {p : Proc} {m : Strs} {f : Files} {g : StatFields}

theorem prfsLook_unread : unread (prfsLook p m f).2.1 = unread p :=
  prfsLook_keep unread (fun _ => rfl) (fun _ _ _ _ _ => rfl) p m f

/-- The record after `prfs_stat`. -/
def statOf (p : Proc) (g : StatFields) : Proc :=
  { p with
    name := g.name
    state := g.state
    ppid := g.ppid
    birthPpid := if p.birthPpid = -1 then g.ppid else p.birthPpid
    alive := true }

theorem prfsStat_of_some (h : statRead f = some g) : prfsStat p f = (0, statOf p g) := by
  unfold prfsStat
  rw [h]
  rfl

theorem prfsLook_of_none (h : statRead f = none) : (prfsLook p m f).2.1 = p := by
  simp [prfsLook, prfsStat, h]

theorem prfsLook_of_status (h : statRead f = some g) (hs : (prfsStatus (statOf p g) f).1 = -1) :
    (prfsLook p m f).2.1 = (prfsStatus (statOf p g) f).2 := by
  simp [prfsLook, prfsStat_of_some h, hs]

theorem prfsLook_fdless (h : statRead f = some g) :
    fdless (prfsLook p m f).2.1 = fdless (prfsStatus (statOf p g) f).2 := by
  simp only [prfsLook, prfsStat_of_some h, show ¬((0 : ℤ) = -1) by decide, if_false]
  split_ifs
  · rfl
  all_goals exact prfsFd_fdless _ _ _

theorem statRenewed (h : statRead f = some g) : StatRenewed p g (prfsLook p m f).2.1 := by
  have hc : core (prfsLook p m f).2.1 = core (statOf p g) := by
    rw [prfsLook_core, prfsStat_of_some h]
  have hfield : ∀ {α : Type} (k : Proc → α), (∀ x, k (core x) = k x) →
      k (prfsLook p m f).2.1 = k (statOf p g) := fun k hk => by rw [← hk, hc, hk]
  exact ⟨hfield Proc.name fun _ => rfl, hfield Proc.state fun _ => rfl,
    hfield Proc.ppid fun _ => rfl, hfield Proc.birthPpid fun _ => rfl,
    hfield Proc.alive fun _ => rfl⟩

theorem statusRenewed (h : statRead f = some g) {text : List Byte} (hs : f.status = some text) :
    StatusRenewed p (credLines (fgetsLines 256 text)) (prfsLook p m f).2.1 := by
  have hu : fdless (prfsLook p m f).2.1 = fdless (filled { statOf p g with tgid := -1 }
      (credLines (fgetsLines 256 text))) := by
    rw [prfsLook_fdless h, prfsStatus_eq _ hs]
    rfl
  have hfield : ∀ {α : Type} (k : Proc → α), (∀ x, k (fdless x) = k x) →
      k (prfsLook p m f).2.1 = k (filled { statOf p g with tgid := -1 }
        (credLines (fgetsLines 256 text))) := fun k hk => by rw [← hk, hu, hk]
  exact ⟨hfield Proc.tgid fun _ => rfl, hfield Proc.ruid fun _ => rfl,
    hfield Proc.euid fun _ => rfl, hfield Proc.rgid fun _ => rfl, hfield Proc.egid fun _ => rfl⟩

theorem statusPart_of_none (hs : f.status = none) :
    statusPart (prfsLook p m f).2.1 = statusPart p := by
  rcases hg : statRead f with _ | g
  · rw [prfsLook_of_none hg]
  · have hst : prfsStatus (statOf p g) f = (-1, statOf p g) := by simp [prfsStatus, hs]
    rw [prfsLook_of_status hg (by rw [hst]), hst]
    rfl

/-- Without the thread group or the count, `prfs_fd` does not start. -/
theorem fdPaths_of_incomplete {text : List Byte} (hs : f.status = some text)
    (hi : Incomplete (fgetsLines 256 text)) : (prfsLook p m f).2.1.fdPaths = p.fdPaths := by
  rcases hg : statRead f with _ | g
  · rw [prfsLook_of_none hg]
  · have hst := prfsStatus_eq (statOf p g) hs
    rw [if_pos hi] at hst
    rw [prfsLook_of_status hg (by rw [hst]), hst]
    rfl

theorem prfsLook_of_zero (h : statRead f = some g) {text : List Byte} (hs : f.status = some text)
    (hi : ¬ Incomplete (fgetsLines 256 text)) (hz : countOf (fgetsLines 256 text) = 0) :
    (prfsLook p m f).1 = 0 := by
  have hst := prfsStatus_eq (statOf p g) hs
  rw [if_neg hi, hz] at hst
  simp [prfsLook, prfsStat_of_some h, hst, prfsFd]

/-- A directory that cannot be opened ends the refresh before the old paths are given up. -/
theorem fdPaths_of_unlisted (hfd : f.fd = none) (h : (prfsLook p m f).1 = -1) :
    (prfsLook p m f).2.1.fdPaths = p.fdPaths := by
  rcases hg : statRead f with _ | g
  · rw [prfsLook_of_none hg]
  rcases hs : f.status with _ | text
  · exact congrArg (fun x => x.2.2.2) (statusPart_of_none hs)
  by_cases hi : Incomplete (fgetsLines 256 text)
  · exact fdPaths_of_incomplete hs hi
  by_cases hz : countOf (fgetsLines 256 text) = 0
  · rw [prfsLook_of_zero hg hs hi hz] at h
    cases h
  have hst := prfsStatus_eq (statOf p g) hs
  rw [if_neg hi] at hst
  simp [prfsLook, prfsStat_of_some hg, hst, prfsFd, hz, hfd]
  rfl

theorem cause_of_failed (h : (prfsLook p m f).1 = -1) : statRead f = none ∨ f.status = none ∨
    ∃ text, f.status = some text ∧
      (Incomplete (fgetsLines 256 text) ∨ countOf (fgetsLines 256 text) ≠ 0) := by
  rcases hg : statRead f with _ | g
  · exact Or.inl rfl
  rcases hs : f.status with _ | text
  · exact Or.inr (Or.inl rfl)
  refine Or.inr (Or.inr ⟨text, rfl, ?_⟩)
  by_contra hno
  rw [not_or, not_not] at hno
  rw [prfsLook_of_zero hg hs hno.1 hno.2] at h
  cases h

end Look

/-- **A failed refresh**: the parts before the one that failed are renewed, the later ones are not.
-/
theorem refused_of_failed (p : Proc) (m : Strs) (f : Files) (h : (prfsLook p m f).1 = -1) :
    Refused p f (prfsLook p m f).2.1 where
  cause := cause_of_failed h
  unread := prfsLook_unread
  noStat := prfsLook_of_none
  stat _ := statRenewed
  noStatus := statusPart_of_none
  status text hn hs := by
    obtain ⟨g, hg⟩ := Option.ne_none_iff_exists'.mp hn
    exact statusRenewed hg hs
  incomplete _ := fdPaths_of_incomplete
  unlisted hfd := fdPaths_of_unlisted hfd h

/-- The answers for a process whose status file is gone when it is opened. -/
def vanishing : Files := { procFiles ['9'] ['0'] none with status := none }

theorem refused_of_failed_vanishing :
    Refused Proc.zero vanishing (prfsLook Proc.zero ⟨0, [], []⟩ vanishing).2.1 :=
  refused_of_failed Proc.zero ⟨0, [], []⟩ vanishing (by decide)

/-- The record `2` of a table, whose parent is `1`, has the parent `9` after a refresh that fails.
-/
theorem not_unchanged_vanishing : Steps Step init (trace 2 init adopted) ∧
    2 ∈ (final init (trace 2 init adopted)).tracked ∧
    (lookRec 2 vanishing (final init (trace 2 init adopted))).1 = -1 ∧
    (lookRec 2 vanishing (final init (trace 2 init adopted))).2.heap 2 ≠
      (final init (trace 2 init adopted)).heap 2 := by
  have h1 : ((final init (trace 2 init adopted)).heap 2).ppid = 1 := by decide
  have h9 : ((lookRec 2 vanishing (final init (trace 2 init adopted))).2.heap 2).ppid = 9 := by
    decide
  refine ⟨adopted_steps, ⟨3, by decide⟩, by decide, fun he => ?_⟩
  rw [he, h1] at h9
  exact absurd h9 (by decide)

end Serie.Records.Refusal
