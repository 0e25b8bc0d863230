import Serie.Model.Runs
import Serie.Table.Newest
import Serie.Tree.Invariant

/-! # Links to a deleted record

`proc_dele` takes a record out of its chain and destroys it; the tree is not touched. So after it a
link of a record that is still in the table leads to the destroyed one exactly if that one had a
parent, whose list it is on, or a child, whose `pare` it is (`noDangling_iff`). -/

namespace Serie.Table.Dangling

open Serie.Lib.Trace Serie.Lib.Chain Serie.Lib.Intrusive Serie.Model.Record Serie.Model.Prfs
open Serie.Model.Table Serie.Model.Conn Serie.Model.Steps Serie.Model.Runs Serie.Fd.Clean
open Serie.Tree.Invariant Serie.Table.Newest

variable {s t : State} {r x : Ref}

/-- Every link of a record of the table is `NULL` or leads to a record of the table. -/
structure NoDangling (s : State) : Prop where
  pare : ∀ c ∈ s.tracked, ∀ p, (s.heap c).pare = some p → p ∈ s.tracked
  firsChil : ∀ c ∈ s.tracked, ∀ p, (s.heap c).firsChil = some p → p ∈ s.tracked
  nextSibl : ∀ c ∈ s.tracked, ∀ p, (s.heap c).nextSibl = some p → p ∈ s.tracked

/-- `proc_dele` of `r` returns `0`, and if it does so without a wrong access, no link dangles. -/
def DeletesClean (s : State) (r : Ref) : Prop :=
  (procDele r s).1 = 0 ∧
    ((procDele r s).2.strs.faults = s.strs.faults → NoDangling (procDele r s).2)

/-- The newest record `x` of the table with the pid and the birth time of `r`. -/
def Newest (s : State) (r x : Ref) : Prop :=
  (s.buckets (procHash (s.heap r).pid)).find? (sameKey s r) = some x

/-- The record that goes is outside the tree, or its slots cannot be freed. -/
def Ok (s : State) (r : Ref) : Prop :=
  ∀ x, Newest s r x → Freeable (s.heap x).fdPaths (s.heap x).fdCoun.toNat →
    (s.heap x).pare = none ∧ (s.heap x).firsChil = none

/-! ### What is deleted -/

theorem eraseP_eq_erase {p : Ref → Bool} : ∀ {l : List Ref}, l.find? p = some x →
    l.eraseP p = l.erase x
  | c :: l, h => by
    by_cases hc : p c = true
    · rw [List.find?_cons_of_pos hc] at h
      cases h
      rw [List.eraseP_cons_of_pos hc, List.erase_cons_head]
    · rw [List.find?_cons_of_neg hc] at h
      have hne : c ≠ x := by
        rintro rfl
        exact hc (List.find?_some h)
      rw [List.eraseP_cons_of_neg hc, List.erase_cons_tail (by simpa using hne), eraseP_eq_erase h]

/-- A record of the table has a newest one with its key, and that one is in the table. -/
theorem exists_newest (h : Sound s) (hr : r ∈ s.tracked) : ∃ x, Newest s r x ∧ x ∈ s.tracked := by
  obtain ⟨b, hb⟩ := hr
  rw [← h.home b r hb] at hb
  rcases hf : (s.buckets (procHash (s.heap r).pid)).find? (sameKey s r) with _ | x
  · have := List.find?_eq_none.mp hf r hb
    simp [sameKey] at this
  · exact ⟨x, hf, _, List.mem_of_find?_eq_some hf⟩

/-- **`proc_dele`** takes the newest record out of the chains and destroys it. -/
theorem procDele_newest (h : Sound s) (hx : Newest s r x) :
    procDele r s = (0, procDest (some x)
      { s with buckets := fun b => (s.buckets b).erase x }) := by
  have hmem : x ∈ s.buckets (procHash (s.heap r).pid) := List.mem_of_find?_eq_some hx
  have hb : Function.update s.buckets (procHash (s.heap r).pid)
      ((s.buckets (procHash (s.heap r).pid)).eraseP (sameKey s r)) =
        fun b => (s.buckets b).erase x := by
    funext b
    rw [Function.update_apply, eraseP_eq_erase hx]
    split_ifs with he
    · rw [he]
    · refine (List.erase_of_not_mem fun hm => he ?_).symm
      rw [← h.home b x hm, h.home _ x hmem]
  unfold Newest at hx
  unfold procDele
  dsimp only
  rw [deleWalk_eq_find?, hx, ← hb]
  rfl

theorem mem_erased (h : Sound s) (ht : t.buckets = fun b => (s.buckets b).erase x) {c : Ref} :
    c ∈ t.tracked ↔ c ∈ s.tracked ∧ c ≠ x := by
  simp only [mem_tracked, ht]
  constructor
  · rintro ⟨b, hb⟩
    obtain ⟨hne, hm⟩ := (h.nodup b).mem_erase_iff.mp hb
    exact ⟨⟨b, hm⟩, hne⟩
  · rintro ⟨⟨b, hm⟩, hne⟩
    exact ⟨b, (h.nodup b).mem_erase_iff.mpr ⟨hne, hm⟩⟩

theorem procDest_links (o : Option Ref) : (procDest o s).links = s.links := by
  rcases o with _ | x
  · rfl
  · unfold State.links
    congr 1 <;> funext c <;> by_cases hc : c = x <;> simp [procDest, prfsCleanFd, hc]

/-! ### The links that are left -/

theorem exists_link (h : Sound s) {p : Ref} (hx : x ∈ s.tracked) (hp : (s.heap x).pare = some p) :
    (s.heap p).firsChil = some x ∨ ∃ b ∈ s.tracked, b ≠ x ∧ (s.heap b).nextSibl = some x := by
  obtain ⟨kids, hk⟩ := h.forest
  have hpt := hk.up_mem x hx p hp
  rcases (hk.chain p hpt).exists_prev ((hk.mem_iff p hpt x hx).mpr hp) with hf | ⟨b, hb, hne, hn⟩
  · exact Or.inl hf
  · exact Or.inr ⟨b, hk.kids_mem p hpt b hb, hne, hn⟩

/-- **The links after a record is gone** dangle unless it had no links in the tree. -/
theorem noDangling_iff (h : Sound s) (hx : x ∈ s.tracked)
    (ht : t.buckets = fun b => (s.buckets b).erase x) (hl : t.links = s.links) :
    NoDangling t ↔ (s.heap x).pare = none ∧ (s.heap x).firsChil = none := by
  have hpare : ∀ c, (t.heap c).pare = (s.heap c).pare := fun c =>
    congrArg (fun l : Links Ref => l.up c) hl
  have hfirst : ∀ c, (t.heap c).firsChil = (s.heap c).firsChil := fun c =>
    congrArg (fun l : Links Ref => l.first c) hl
  have hnext : ∀ c, (t.heap c).nextSibl = (s.heap c).nextSibl := fun c =>
    congrArg (fun l : Links Ref => l.next c) hl
  have hgone : x ∉ t.tracked := fun hm => ((mem_erased h ht).mp hm).2 rfl
  constructor
  · intro hd
    constructor
    · -- the record is on the list of its parent, if there is one
      rcases hp : (s.heap x).pare with _ | p
      · rfl
      rcases exists_link h hx hp with hf | ⟨b, hb, hne, hn⟩
      · have hpx : p ≠ x := by
          rintro rfl
          exact h.no_self p hx hp
        have hpt : p ∈ t.tracked := (mem_erased h ht).mpr ⟨h.pare_mem hx hp, hpx⟩
        exact absurd (hd.firsChil p hpt x ((hfirst p).trans hf)) hgone
      · have hbt : b ∈ t.tracked := (mem_erased h ht).mpr ⟨hb, hne⟩
        exact absurd (hd.nextSibl b hbt x ((hnext b).trans hn)) hgone
    · -- a child's parent is the record
      rcases hf : (s.heap x).firsChil with _ | c
      · rfl
      obtain ⟨hc, hcx, -⟩ := h.firsChil hx hf
      have hct : c ∈ t.tracked := (mem_erased h ht).mpr ⟨hc, h.ne_firsChil hx hf⟩
      exact absurd (hd.pare c hct x ((hpare c).trans hcx)) hgone
  · rintro ⟨hroot, hleaf⟩
    obtain ⟨kids, hk⟩ := h.forest
    refine ⟨fun c hc p hp => ?_, fun c hc p hp => ?_, fun c hc p hp => ?_⟩ <;>
      obtain ⟨hc, -⟩ := (mem_erased h ht).mp hc
    · rw [hpare] at hp
      refine (mem_erased h ht).mpr ⟨h.pare_mem hc hp, ?_⟩
      rintro rfl
      exact h.barren hx hleaf c hc hp
    · rw [hfirst] at hp
      obtain ⟨hpt, hup, -⟩ := h.firsChil hc hp
      refine (mem_erased h ht).mpr ⟨hpt, ?_⟩
      rintro rfl
      rw [hroot] at hup
      cases hup
    · rw [hnext] at hp
      obtain ⟨a, ha, hpa, -⟩ := hk.up_next hc hp
      refine (mem_erased h ht).mpr ⟨hk.kids_mem a ha p hpa, ?_⟩
      rintro rfl
      have hup : (s.heap p).pare = some a := hk.up_of_mem ha hpa
      rw [hroot] at hup
      cases hup

theorem deletesClean_iff (h : Sound s) (hr : r ∈ s.tracked) : DeletesClean s r ↔ Ok s r := by
  obtain ⟨x, hx, hxt⟩ := exists_newest h hr
  set t := procDest (some x) { s with buckets := fun b => (s.buckets b).erase x } with hdest
  have heq : procDele r s = (0, t) := procDele_newest h hx
  have hlinks : t.links = s.links := procDest_links (some x)
  have hfaults : t.strs.faults = s.strs.faults ↔
      Freeable (s.heap x).fdPaths (s.heap x).fdCoun.toNat :=
    ⟨fun he => freeSlots_faults_iff.mp (congrArg List.length he), fun hf => freeSlots_faults hf⟩
  unfold DeletesClean Ok
  rw [heq, hfaults, noDangling_iff h hxt rfl hlinks]
  constructor
  · rintro ⟨-, hd⟩ y hy
    unfold Newest at hx hy
    rw [hx] at hy
    cases hy
    exact hd
  · exact fun hok => ⟨rfl, hok x hx⟩

/-! ### Runs -/

/-- **Deletion leaves no dangling link exactly if the record that goes is outside the tree.** -/
theorem deletesClean_iff_ok {tr : List (Input × State)} (hr : Steps Step init tr) :
    ∀ r ∈ (final init tr).tracked,
      (DeletesClean (final init tr) r ↔ Ok (final init tr) r) :=
  fun _ hm => deletesClean_iff (sound_final hr) hm

/-- The dead record `1` has neither a parent nor a child any more. -/
theorem deletesClean_iff_ok_adopted : DeletesClean (final init (trace 2 init adopted)) 1 := by
  refine (deletesClean_iff_ok adopted_steps 1 ⟨2, by decide⟩).mpr fun x hx _ => ?_
  have h1 : Newest (final init (trace 2 init adopted)) 1 1 := by
    unfold Newest
    decide
  obtain rfl : 1 = x := Option.some.inj (h1.symm.trans hx)
  decide

/-- The record `2` is a child of record `0`: after its deletion `0` still names it. -/
theorem not_deletesClean_adopted : Steps Step init (trace 2 init adopted) ∧
    2 ∈ (final init (trace 2 init adopted)).tracked ∧
    (procDele 2 (final init (trace 2 init adopted))).1 = 0 ∧
    ((procDele 2 (final init (trace 2 init adopted))).2.heap 0).firsChil = some 2 ∧
    ¬ DeletesClean (final init (trace 2 init adopted)) 2 := by
  have hmem : 2 ∈ (final init (trace 2 init adopted)).tracked := ⟨3, by decide⟩
  refine ⟨adopted_steps, hmem, by decide, by decide, fun hd => ?_⟩
  have hok := (deletesClean_iff (sound_final adopted_steps) hmem).mp hd
  have h2 : Newest (final init (trace 2 init adopted)) 2 2 := by
    unfold Newest
    decide
  have hzero : ((final init (trace 2 init adopted)).heap 2).fdCoun.toNat = 0 := by decide
  have hlone := hok 2 h2 fun j hj => by
    rw [hzero] at hj
    exact absurd hj (Nat.not_lt_zero j)
  exact absurd hlone.1 (by decide)

end Serie.Table.Dangling
