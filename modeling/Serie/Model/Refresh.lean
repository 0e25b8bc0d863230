import Serie.Model.Prfs
import Mathlib.Tactic.Common

/-! # What a refresh changes

`prfs_stat` alone writes the name, the state, the parent pids and `alive`; `prfs_status` and
`prfs_fd` write only the credentials and the descriptor data, which `core` masks. So up to `core` a
refresh is its `prfs_stat` (`prfsLook_core`), whatever happens after it, and the pid, the times, the
exit code and the links are never written. -/

namespace Serie.Model.Refresh

open Serie.Lib.CText Serie.Model.Record Serie.Model.Prfs

/-- The record without the fields that `prfs_status` and `prfs_fd` write. -/
def core (p : Proc) : Proc :=
  { p with ruid := 0, euid := 0, rgid := 0, egid := 0, tgid := 0, fdCoun := 0, fdPaths := none }

theorem statusLine_core (p : Proc) (line : List Byte) :
    core (statusLine p line).1 = core p := by
  unfold statusLine
  split_ifs <;> rfl

theorem statusLines_core : ∀ (lines : List (List Byte)) (p : Proc),
    core (statusLines p lines) = core p
  | [], _ => rfl
  | line :: lines, p => by
    simp only [statusLines]
    split_ifs
    · rw [statusLines_core lines, statusLine_core]
    · rw [statusLine_core]

theorem prfsStatus_core (p : Proc) (f : Files) :
    core (prfsStatus p f).2 = core p := by
  unfold prfsStatus
  rcases f.status with _ | text
  · rfl
  · dsimp only
    split_ifs <;> exact statusLines_core _ _

/-- The record without the fields that `prfs_fd` writes. -/
def fdless (p : Proc) : Proc := { p with fdCoun := 0, fdPaths := none }

theorem fdLoop_fdless : ∀ (es : List DirEntry) (i : ℕ) (p : Proc) (m : Strs),
    fdless (fdLoop es i p m).2.1 = fdless p
  | [], _, _, _ => rfl
  | e :: es, i, p, m => by
    unfold fdLoop
    split_ifs
    · rfl
    · exact fdLoop_fdless es i p m
    · rfl
    · rcases e.link with _ | target
      · exact fdLoop_fdless es i (setSlot p i .null) _
      · exact fdLoop_fdless es (i + 1) (setSlot p i (.str m.fresh target)) _

theorem prfsFd_fdless (p : Proc) (m : Strs) (f : Files) :
    fdless (prfsFd p m f).2.1 = fdless p := by
  unfold prfsFd
  by_cases h0 : p.fdCoun = 0
  · rw [if_pos h0]; rfl
  rw [if_neg h0]
  rcases f.fd with _ | dirs
  · rfl
  · have hc : fdless (if p.fdPaths ≠ none then prfsCleanFd p p.fdCoun m else (p, m)).1 =
        fdless p := by
      split_ifs <;> rfl
    dsimp only
    generalize (if p.fdPaths ≠ none then prfsCleanFd p p.fdCoun m else (p, m)) = c at hc ⊢
    split_ifs
    · exact hc
    · exact (fdLoop_fdless _ _ _ _).trans hc

theorem prfsFd_core (p : Proc) (m : Strs) (f : Files) :
    core (prfsFd p m f).2.1 = core p := by
  have h : core (fdless (prfsFd p m f).2.1) = core (fdless p) :=
    congrArg core (prfsFd_fdless p m f)
  exact h

/-- **Up to `core`, a refresh is its `prfs_stat`.** -/
theorem prfsLook_core (p : Proc) (m : Strs) (f : Files) :
    core (prfsLook p m f).2.1 = core (prfsStat p f).2 := by
  simp only [prfsLook]
  split_ifs
  · rfl
  · exact prfsStatus_core _ _
  all_goals rw [prfsFd_core, prfsStatus_core]

theorem prfsLook_field {α : Type} (g : Proc → α) (hg : ∀ p, g (core p) = g p) (p : Proc)
    (m : Strs) (f : Files) : g (prfsLook p m f).2.1 = g (prfsStat p f).2 := by
  rw [← hg, prfsLook_core, hg]

theorem prfsLook_keep {α : Type} (g : Proc → α) (hg : ∀ p, g (core p) = g p)
    (hs : ∀ (p : Proc) a b c d,
      g { p with name := a, state := b, ppid := c, birthPpid := d, alive := true } = g p)
    (p : Proc) (m : Strs) (f : Files) :
    g (prfsLook p m f).2.1 = g p := by
  rw [prfsLook_field g hg]
  unfold prfsStat
  rcases statRead f with _ | x
  · rfl
  · exact hs _ _ _ _ _

section Fields
variable (p : Proc) (m : Strs) (f : Files)

@[simp] theorem prfsLook_pid : (prfsLook p m f).2.1.pid = p.pid :=
  prfsLook_keep Proc.pid (fun _ => rfl) (fun _ _ _ _ _ => rfl) p m f

@[simp] theorem prfsLook_birthTime : (prfsLook p m f).2.1.birthTime = p.birthTime :=
  prfsLook_keep Proc.birthTime (fun _ => rfl) (fun _ _ _ _ _ => rfl) p m f

@[simp] theorem prfsLook_deathTime : (prfsLook p m f).2.1.deathTime = p.deathTime :=
  prfsLook_keep Proc.deathTime (fun _ => rfl) (fun _ _ _ _ _ => rfl) p m f

@[simp] theorem prfsLook_exitCode : (prfsLook p m f).2.1.exitCode = p.exitCode :=
  prfsLook_keep Proc.exitCode (fun _ => rfl) (fun _ _ _ _ _ => rfl) p m f

@[simp] theorem prfsLook_pare : (prfsLook p m f).2.1.pare = p.pare :=
  prfsLook_keep Proc.pare (fun _ => rfl) (fun _ _ _ _ _ => rfl) p m f

@[simp] theorem prfsLook_firsChil : (prfsLook p m f).2.1.firsChil = p.firsChil :=
  prfsLook_keep Proc.firsChil (fun _ => rfl) (fun _ _ _ _ _ => rfl) p m f

@[simp] theorem prfsLook_nextSibl : (prfsLook p m f).2.1.nextSibl = p.nextSibl :=
  prfsLook_keep Proc.nextSibl (fun _ => rfl) (fun _ _ _ _ _ => rfl) p m f

theorem prfsLook_alive : (prfsLook p m f).2.1.alive = (p.alive || (statRead f).isSome) := by
  rw [prfsLook_field Proc.alive (fun _ => rfl)]
  unfold prfsStat
  rcases statRead f with _ | x <;> simp

theorem prfsLook_ppid :
    (prfsLook p m f).2.1.ppid = ((statRead f).map StatFields.ppid).getD p.ppid := by
  rw [prfsLook_field Proc.ppid (fun _ => rfl)]
  unfold prfsStat
  rcases statRead f with _ | x <;> rfl

/-- The birth parent is replaced only while it is `-1`. -/
theorem prfsLook_birthPpid : (prfsLook p m f).2.1.birthPpid =
    if p.birthPpid = -1 then ((statRead f).map StatFields.ppid).getD (-1) else p.birthPpid := by
  rw [prfsLook_field Proc.birthPpid (fun _ => rfl)]
  unfold prfsStat
  rcases statRead f with _ | x
  · by_cases h : p.birthPpid = -1 <;> simp [h]
  · rfl

theorem prfsLook_code : (prfsLook p m f).1 = 0 ∨ (prfsLook p m f).1 = -1 := by
  simp only [prfsLook]
  split_ifs <;> simp

end Fields

/-! ### Whether a refresh succeeds

The result code of `prfs_look` depends on the answers only: `prfs_status` resets the two numbers it
tests, and `prfs_fd` looks at the size that `prfs_status` found. -/

/-- Every part of the answers can be read. -/
def readable (f : Files) : Bool := (prfsLook Proc.zero ⟨0, [], []⟩ f).1 = 0

/-- The thread group and the size of the descriptor table. -/
def counts (p : Proc) : Pid × ℤ := (p.tgid, p.fdCoun)

theorem statusLine_counts {p q : Proc} (h : counts p = counts q) (line : List Byte) :
    counts (statusLine p line).1 = counts (statusLine q line).1 ∧
      (statusLine p line).2 = (statusLine q line).2 := by
  obtain ⟨ht, hc⟩ := Prod.mk.inj h
  unfold statusLine
  split_ifs <;> simp [counts, ht, hc]

theorem statusLines_counts : ∀ (lines : List (List Byte)) {p q : Proc}, counts p = counts q →
    counts (statusLines p lines) = counts (statusLines q lines)
  | [], _, _, h => h
  | line :: lines, p, q, h => by
    obtain ⟨h1, h2⟩ := statusLine_counts h line
    simp only [statusLines, h2]
    split_ifs
    · exact statusLines_counts lines h1
    · exact h1

theorem prfsStatus_counts (p q : Proc) (f : Files) (hs : f.status ≠ none) :
    counts (prfsStatus p f).2 = counts (prfsStatus q f).2 ∧
      (prfsStatus p f).1 = (prfsStatus q f).1 := by
  rcases ht : f.status with _ | text
  · exact absurd ht hs
  have h := statusLines_counts (fgetsLines 256 text)
    (p := { p with tgid := -1, fdCoun := -1 }) (q := { q with tgid := -1, fdCoun := -1 }) rfl
  obtain ⟨h1, h2⟩ := Prod.mk.inj h
  simp only [prfsStatus, ht, h1, h2]
  split_ifs <;> exact ⟨h, rfl⟩

theorem fdLoop_code : ∀ (es : List DirEntry) (i : ℕ) (p q : Proc) (m n : Strs),
    p.fdCoun = q.fdCoun → (fdLoop es i p m).1 = (fdLoop es i q n).1
  | [], _, _, _, _, _, _ => rfl
  | e :: es, i, p, q, m, n, h => by
    unfold fdLoop
    rw [h]
    split_ifs
    · rfl
    · exact fdLoop_code es i p q m n h
    · rfl
    · rcases e.link with _ | target
      · exact fdLoop_code es i _ _ _ _ h
      · exact fdLoop_code es (i + 1) _ _ _ _ h

theorem prfsFd_code {p q : Proc} (h : p.fdCoun = q.fdCoun) (m n : Strs) (f : Files) :
    (prfsFd p m f).1 = (prfsFd q n f).1 := by
  have hclean : ∀ (p : Proc) (m : Strs),
      (if p.fdPaths ≠ none then prfsCleanFd p p.fdCoun m else (p, m)).1.fdCoun = p.fdCoun := by
    intro p m; split_ifs <;> rfl
  have hp := hclean p m
  have hq := hclean q n
  unfold prfsFd
  by_cases h0 : q.fdCoun = 0
  · rw [if_pos h0, if_pos (h.trans h0)]
  rw [if_neg h0, if_neg fun e => h0 (h.symm.trans e)]
  rcases f.fd with _ | dirs
  · rfl
  dsimp only
  generalize (if p.fdPaths ≠ none then prfsCleanFd p p.fdCoun m else (p, m)) = c at hp
  generalize (if q.fdPaths ≠ none then prfsCleanFd q q.fdCoun n else (q, n)) = c' at hq
  rw [h]
  by_cases ha : f.arrAlloc = false ∨ q.fdCoun < 0
  · rw [if_pos ha, if_pos ha]
  · rw [if_neg ha, if_neg ha]
    exact fdLoop_code _ _ _ _ _ _ (hp.trans (h.trans hq.symm))

/-- **Whether a refresh succeeds depends on the answers only.** -/
theorem prfsLook_readable (p : Proc) (m : Strs) (f : Files) :
    (prfsLook p m f).1 = if readable f then 0 else -1 := by
  have hc := prfsLook_code p m f
  have key : (prfsLook p m f).1 = (prfsLook Proc.zero ⟨0, [], []⟩ f).1 := by
    unfold prfsLook prfsStat
    rcases statRead f with _ | g
    · rfl
    rcases hs : f.status with _ | text
    · simp [prfsStatus, hs]
    simp only [show ¬((0 : ℤ) = -1) by decide, if_false]
    generalize hp : ({ p with
      name := g.name
      state := g.state
      ppid := g.ppid
      birthPpid := if p.birthPpid = -1 then g.ppid else p.birthPpid
      alive := true } : Proc) = p'
    generalize ({ Proc.zero with
      name := g.name
      state := g.state
      ppid := g.ppid
      birthPpid := if Proc.zero.birthPpid = -1 then g.ppid else Proc.zero.birthPpid
      alive := true } : Proc) = q'
    obtain ⟨h1, h2⟩ := prfsStatus_counts p' q' f (by simp [hs])
    rw [h2, prfsFd_code (Prod.mk.inj h1).2 m ⟨0, [], []⟩ f]
    split_ifs <;> rfl
  rw [readable, ← key]
  rcases hc with h | h <;> simp [h]

theorem statRead_of_readable {f : Files} (h : readable f = true) : ∃ g, statRead f = some g := by
  rcases hs : statRead f with _ | g
  · simp [readable, prfsLook, prfsStat, hs] at h
  · exact ⟨g, rfl⟩

end Serie.Model.Refresh
