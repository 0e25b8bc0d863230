import Serie.Table.Dangling
import Serie.Tree.Rule

/-! # Pid and birth time

When forks of a pid have different times, none of them zero, no two records of the table have both
the pid and the birth time in common: a forked record has the time of its fork, and a record that is
made for a parent has the time zero and is made when its pid has no record (`Keyed`). So `proc_dele`
finds the record it is asked for, and the tables before and after differ in this record only
(`removed_procDele`). What it does then can go wrong: `proc_dest` frees `fd_coun` slots
(`deletes_iff_freeable`). -/

namespace Serie.Table.BirthKey

open Serie.Lib.Trace Serie.Model.Record Serie.Model.Prfs Serie.Model.Refresh Serie.Model.Table
open Serie.Model.Conn Serie.Model.Steps Serie.Model.Runs Serie.Fd.Clean Serie.Tree.Invariant
open Serie.Tree.Rule Serie.Table.Newest Serie.Table.Dangling

/-- Pid and birth time are a key of the records of the table. -/
def UniqueKeys (s : State) : Prop :=
  ∀ r ∈ s.tracked, ∀ r' ∈ s.tracked, (s.heap r).pid = (s.heap r').pid →
    (s.heap r).birthTime = (s.heap r').birthTime → r = r'

/-- The child and the time of a fork. -/
def forkKey (e : ProcEvent) : Option (Pid × ℕ) :=
  match e.data with
  | .fork _ c => some (c, e.timestampNs)
  | _ => none

/-- The children and times of the forks of a run. -/
def forkKeys (tr : List (Input × State)) : List (Pid × ℕ) := tr.filterMap fun x => forkKey x.1.even

/-- The forks of a child have different times, none of them zero. -/
def FreshForks (tr : List (Input × State)) : Prop :=
  (forkKeys tr).Nodup ∧ ∀ k ∈ forkKeys tr, k.2 ≠ 0

/-! ### The key -/

/-- **The invariant**, after the forks `used`. -/
structure Keyed (used : Set (Pid × ℕ)) (s : State) : Prop where
  key : UniqueKeys s
  stamp : ∀ r ∈ s.tracked, (s.heap r).birthTime = ⟨0, 0⟩ ∨
    ∃ ts, ((s.heap r).pid, ts) ∈ used ∧ (s.heap r).birthTime = splitNs ts

theorem splitNs_inj {m n : ℕ} (h : splitNs m = splitNs n) : m = n := by
  simp only [splitNs, Timespec.mk.injEq] at h
  omega

theorem splitNs_ne_zero {n : ℕ} (h : n ≠ 0) : splitNs n ≠ ⟨0, 0⟩ := fun he =>
  h (splitNs_inj (n := 0) he)

section Keyed
variable {used : Set (Pid × ℕ)} {s t : State}

theorem Keyed.of_same (h : Keyed used s) (ht : t.tracked = s.tracked)
    (hp : ∀ r ∈ s.tracked, (t.heap r).pid = (s.heap r).pid ∧
      (t.heap r).birthTime = (s.heap r).birthTime) : Keyed used t where
  key r hr r' hr' := by
    rw [ht] at hr hr'
    rw [(hp r hr).1, (hp r hr).2, (hp r' hr').1, (hp r' hr').2]
    exact h.key r hr r' hr'
  stamp r hr := by
    rw [ht] at hr
    rw [(hp r hr).1, (hp r hr).2]
    exact h.stamp r hr

theorem Keyed.adds (h : Keyed used s) (hs : Sound s) {x : Proc} (ha : Adds s x t)
    (hx : ∀ r ∈ s.tracked, (s.heap r).pid = x.pid → (s.heap r).birthTime ≠ x.birthTime)
    (hst : x.birthTime = ⟨0, 0⟩ ∨ ∃ ts, (x.pid, ts) ∈ used ∧ x.birthTime = splitNs ts) :
    Keyed used t := by
  have hold : ∀ r ∈ s.tracked, t.heap r = s.heap r := fun r hr => by
    rw [ha.heap, Function.update_of_ne (hs.lt_next r hr).ne]
  have hnew : t.heap s.next = x := by rw [ha.heap, Function.update_self]
  constructor
  · intro r hr r' hr' hp hb
    rw [ha.tracked] at hr hr'
    rcases hr with rfl | hr <;> rcases hr' with rfl | hr'
    · rfl
    · rw [hnew, hold r' hr'] at hp hb
      exact absurd hb.symm (hx r' hr' hp.symm)
    · rw [hnew, hold r hr] at hp hb
      exact absurd hb (hx r hr hp)
    · rw [hold r hr, hold r' hr'] at hp hb
      exact h.key r hr r' hr' hp hb
  · intro r hr
    rw [ha.tracked] at hr
    rcases hr with rfl | hr
    · rw [hnew]; exact hst
    · rw [hold r hr]; exact h.stamp r hr

theorem pid_ne_of_procLook (hs : Sound s) {q : Pid} (hn : procLook s q = none) {r : Ref}
    (hr : r ∈ s.tracked) : (s.heap r).pid ≠ q := by
  rintro rfl
  obtain ⟨b, hb⟩ := hr
  have := hs.home b r hb
  exact procLook_none hn (this ▸ hb) rfl

theorem keyed_flat (used : Set (Pid × ℕ)) : Flat (Keyed used) where
  quiet h hq hs := hs.of_same hq.tracked fun r hr => by
    rw [hq.heap r (h.lt_next r hr)]; exact ⟨rfl, rfl⟩
  relinked hr hs := hs.of_same hr.tracked fun r _ =>
    ⟨hr.pid r, hr.field Proc.birthTime (fun _ => rfl) r⟩
  load h hn hx ha hs := hs.adds h ha
    (fun r hr hp => absurd (hp.trans hx.pid) (pid_ne_of_procLook h hn hr)) (Or.inl hx.birthTime)
  refresh _ _ _ hs := hs.of_same rfl fun r _ =>
    ⟨lookRec_pid r, lookRec_field Proc.birthTime prfsLook_birthTime r⟩

theorem Keyed.mark (h : Keyed used s) (d : Ref) (code ts : ℕ) :
    Keyed used (s.upd d (markDead code ts)) := by
  refine h.of_same rfl fun r _ => ⟨Sound.markDead_pid d code ts r, ?_⟩
  by_cases hr : r = d
  · subst hr; simp [markDead]
  · simp [hr]

theorem Keyed.mono {used' : Set (Pid × ℕ)} (h : Keyed used s) (hu : used ⊆ used') :
    Keyed used' s :=
  ⟨h.key, fun r hr => (h.stamp r hr).imp_right fun ⟨ts, hm, hb⟩ => ⟨ts, hu hm, hb⟩⟩

theorem Keyed.fork (hk : Keyed used s) (h : Sound s) {q c : Pid} {ts : ℕ} {w : ℕ → World} {x : ℤ}
    (h0 : ts ≠ 0) (hn : (c, ts) ∉ used) (he : evenFork q c ts w s = .ret (x, t)) :
    Keyed (insert (c, ts) used) t := by
  have hsub : used ⊆ insert (c, ts) used := Set.subset_insert _ _
  rcases evenFork_inv h.lt_next he with
    ⟨-, -, hq⟩ | ⟨p, s₁, hfd, ⟨-, hq⟩ | ⟨-, y, s₂, hy, ha, rfl⟩⟩
  · exact ((keyed_flat used).quiet h hq hk).mono hsub
  · exact ((keyed_flat used).quiet (h.found hfd).1 hq ((keyed_flat used).found h hk hfd)).mono hsub
  · have hk₁ := (keyed_flat used).found h hk hfd
    refine (keyed_flat _).relinked (attaChil_relinked _ _)
      ((hk₁.mono hsub).adds (h.found hfd).1 ha ?_ ?_)
    · -- a record with the pid of the child has the time zero or that of another fork
      intro r hr hp hb
      rw [show Proc.pid { y with birthTime := splitNs ts } = c from hy.pid] at hp
      rcases hk₁.stamp r hr with hz | ⟨ts', hm, hs'⟩
      · exact splitNs_ne_zero h0 (hb.symm.trans hz)
      · rw [hp, ← splitNs_inj (hb.symm.trans hs')] at hm
        exact hn hm
    · exact Or.inr ⟨ts, Or.inl (by rw [← hy.pid]), rfl⟩

/-- **What one event does to the key.** -/
theorem Keyed.step (hk : Keyed used s) (h : Sound s) {i : Input} (hst : Step s i t)
    (hf : ∀ k ∈ forkKey i.even, k.2 ≠ 0 ∧ k ∉ used) :
    Keyed ({k | k ∈ forkKey i.even} ∪ used) t := by
  obtain ⟨fuel, x, he⟩ := handle_of_step hst
  obtain ⟨⟨ts, data⟩, w⟩ := i
  have hsub := Set.subset_union_right (s := {k | k ∈ forkKey ⟨ts, data⟩}) (t := used)
  cases data with
  | fork q c =>
    obtain ⟨h0, hn⟩ := hf (c, ts) rfl
    refine (hk.fork h h0 hn he).mono ?_
    rintro k (rfl | hm)
    · exact Or.inl rfl
    · exact Or.inr hm
  | exec q g =>
    refine Keyed.mono ?_ hsub
    rcases handle_exec he with ⟨-, rfl⟩ | ⟨r, -, rfl⟩
    · exact hk
    · exact hk.of_same rfl fun r _ =>
        ⟨lookRec_pid r, lookRec_field Proc.birthTime prfsLook_birthTime r⟩
  | exit q code =>
    exact ((keyed_flat used).exit h (fun _ => hk) (fun d _ => hk.mark d code ts) he).mono hsub
  | comm | uid | gid | other =>
    have hr := handle_renamed he rfl
    exact (hk.of_same hr.tracked fun r _ =>
      ⟨hr.pid r, hr.field Proc.birthTime (fun _ => rfl) r⟩).mono hsub

end Keyed

/-- **The key in every state of a run.** -/
theorem uniqueKeys_of_steps : ∀ {tr : List (Input × State)} {s : State} {used : Set (Pid × ℕ)},
    Sound s → Keyed used s → Steps Step s tr → (forkKeys tr).Nodup →
      (∀ k ∈ forkKeys tr, k.2 ≠ 0 ∧ k ∉ used) → ∀ x ∈ tr, UniqueKeys x.2
  | [], _, _, _, _, _, _, _ => by simp
  | (i, t) :: tr, s, used, h, hk, ⟨h1, h2⟩, hnd, hf => by
    have hcons : forkKeys ((i, t) :: tr) = (forkKey i.even).toList ++ forkKeys tr := by
      unfold forkKeys
      rw [List.filterMap_cons]
      rcases forkKey i.even with _ | k <;> rfl
    rw [hcons] at hnd hf
    obtain ⟨-, hnd', hdis⟩ := List.nodup_append.mp hnd
    have hkt := hk.step h h1 fun k hm => hf k (List.mem_append_left _ (Option.mem_toList.mpr hm))
    have ih := uniqueKeys_of_steps (h.step h1) hkt h2 hnd' fun k hm => by
      obtain ⟨h0, hn⟩ := hf k (List.mem_append_right _ hm)
      refine ⟨h0, ?_⟩
      rintro (hk' | hk')
      · exact hdis k (Option.mem_toList.mpr hk') k hm rfl
      · exact hn hk'
    intro x hx
    rcases List.mem_cons.mp hx with rfl | hx
    · exact hkt.key
    · exact ih x hx

/-! ### Deletion -/

/-- `t` is `s` without the record `r`, which was destroyed. -/
structure Removed (s : State) (r : Ref) (t : State) : Prop where
  tracked : t.tracked = s.tracked \ {r}
  buckets : ∀ b, t.buckets b = (s.buckets b).erase r
  heap : ∀ r' ≠ r, t.heap r' = s.heap r'
  procLook : ∀ q, q ≠ (s.heap r).pid → procLook t q = procLook s q
  destroyed : t.destroyed = r :: s.destroyed

/-- **`proc_dele` of the record `r`** returns 0, without wrong access, and removes `r` and nothing
else. -/
def Deletes (s : State) (r : Ref) : Prop :=
  (procDele r s).1 = 0 ∧ (procDele r s).2.strs.faults = s.strs.faults ∧ Removed s r (procDele r s).2

section Delete
variable {s : State} {r : Ref}

theorem find?_erase {p : Ref → Bool} (hp : p r = false) : ∀ l : List Ref,
    (l.erase r).find? p = l.find? p
  | [] => rfl
  | c :: l => by
    by_cases hc : c = r
    · rw [hc, List.erase_cons_head, List.find?_cons_of_neg (by simp [hp])]
    · rw [List.erase_cons_tail (by simpa using hc), List.find?_cons, List.find?_cons,
        find?_erase hp l]

theorem newest_self (h : Sound s) (hu : UniqueKeys s) (hr : r ∈ s.tracked) : Newest s r r := by
  obtain ⟨x, hx, hxt⟩ := exists_newest h hr
  obtain ⟨hp, ht⟩ : (s.heap x).pid = (s.heap r).pid ∧
      (s.heap x).birthTime = (s.heap r).birthTime := by
    simpa [sameKey] using List.find?_some hx
  rwa [hu x hxt r hr hp ht] at hx

theorem procDele_eq (h : Sound s) (hu : UniqueKeys s) (hr : r ∈ s.tracked) :
    procDele r s = (0, procDest (some r)
      { s with buckets := fun b => (s.buckets b).erase r }) :=
  procDele_newest h (newest_self h hu hr)

theorem removed_procDele (h : Sound s) (hu : UniqueKeys s) (hr : r ∈ s.tracked) :
    Removed s r (procDele r s).2 := by
  rw [procDele_eq h hu hr]
  have hpid : ∀ c, ((procDest (some r) { s with buckets := fun b => (s.buckets b).erase r }).heap
      c).pid = (s.heap c).pid := fun c => by
    by_cases hc : c = r
    · subst hc; simp [procDest, prfsCleanFd]
    · simp [procDest, hc]
  refine ⟨?_, fun b => rfl, fun r' hr' => Function.update_of_ne hr' .., fun q hq => ?_, rfl⟩
  · ext c
    exact mem_erased h rfl
  · unfold Model.Table.procLook
    simp only [hpid]
    exact find?_erase (by simpa using Ne.symm hq) _

/-- **Deletion is exact** when `prfs_clean_fd` can free as many slots as the record counts. -/
theorem deletes_iff_freeable (h : Sound s) (hu : UniqueKeys s) (hr : r ∈ s.tracked) :
    Deletes s r ↔ Freeable (s.heap r).fdPaths (s.heap r).fdCoun.toNat := by
  have hf : (procDele r s).2.strs.faults =
      (freeSlots (s.heap r).fdPaths (s.heap r).fdCoun.toNat s.strs).faults := by
    rw [procDele_eq h hu hr]; rfl
  constructor
  · rintro ⟨-, hn, -⟩
    exact freeSlots_faults_iff.mp (by rw [← hf, hn])
  · intro hn
    exact ⟨by rw [procDele_eq h hu hr], hf.trans (freeSlots_faults hn), removed_procDele h hu hr⟩

end Delete

/-! ### Runs -/

/-- **Pid and birth time are a key in every state of a run with fresh forks, and the records that
can be deleted are those whose slots can be freed.** -/
theorem key_and_deletes_iff {tr : List (Input × State)} (hr : Steps Step init tr)
    (hf : FreshForks tr) : ∀ x ∈ tr, UniqueKeys x.2 ∧ ∀ r ∈ x.2.tracked,
      (Deletes x.2 r ↔ Freeable (x.2.heap r).fdPaths (x.2.heap r).fdCoun.toNat) := by
  have hk : Keyed ∅ init := by
    constructor
    · exact fun r hr => absurd hr (notMem_init r)
    · exact fun r hr => absurd hr (notMem_init r)
  intro x hx
  have hu := uniqueKeys_of_steps sound_init hk hr hf.1
    (fun k hm => ⟨hf.2 k hm, Set.notMem_empty k⟩) x hx
  exact ⟨hu, fun r hrt => deletes_iff_freeable (sound_of_run hr x hx) hu hrt⟩

theorem key_and_deletes_iff_adopted : FreshForks (trace 2 init adopted) ∧
    ∀ x ∈ trace 2 init adopted, UniqueKeys x.2 ∧ ∀ r ∈ x.2.tracked,
      (Deletes x.2 r ↔ Freeable (x.2.heap r).fdPaths (x.2.heap r).fdCoun.toNat) := by
  have hf : FreshForks (trace 2 init adopted) := ⟨by decide, by decide⟩
  exact ⟨hf, key_and_deletes_iff adopted_steps hf⟩

/-- A process without descriptors, whose directory cannot be opened after its exec. -/
def unlisted : List Input := [
  input 1 (.fork 1 2) [(1, ['0']), (2, ['1'])],
  ⟨⟨2000000000, .exec 2 2⟩, fun _ => ⟨fun _ => procFiles ['1'] ['6', '4'] none, true, true⟩⟩]

/-- The record counts 64 slots and has no array, so its deletion reads through a null pointer. -/
theorem not_deletes_unlisted : Steps Step init (trace 0 init unlisted) ∧
    FreshForks (trace 0 init unlisted) ∧
    ¬ ∀ x ∈ trace 0 init unlisted, ∀ r ∈ x.2.tracked, Deletes x.2 r := by
  refine ⟨steps_trace (by decide), ⟨by decide, by decide⟩, fun hi => ?_⟩
  have hd := forall_final (P := fun s => ∀ r ∈ s.tracked, Deletes s r) (s := init) hi
    (by simp [unlisted, trace]) 1
  exact absurd (hd ⟨2, by decide⟩).2.1 (by decide)

end Serie.Table.BirthKey
