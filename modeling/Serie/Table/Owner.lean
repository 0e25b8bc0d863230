import Serie.Table.BirthKey
import Serie.Tree.Shape

/-! # One owner for every record

A record that `proc_load` returned is in the hands of the function that called it, until
`proc_inse` puts it into the table or `proc_dest` destroys it. `Ledger hand s` says that every
record has exactly one of these owners, `hand` being the record in hand; between two events it is
empty-handed (`Ledger.step`). At the end `proc_tabl_dest` destroys what the table owns. It frees
`fd_coun` slots of every record, and does so without wrong access exactly if they can be freed
(`clears_iff_freeable`). -/

namespace Serie.Table.Owner

open Serie.Lib.Trace Serie.Model.Record Serie.Model.Prfs Serie.Model.Refresh Serie.Model.Table
open Serie.Model.Conn Serie.Model.Steps Serie.Model.Loop Serie.Model.Runs Serie.Fd.Clean
open Serie.Tree.Invariant Serie.Tree.Shape Serie.Table.BirthKey

/-- The records that `proc_load` returned. -/
def refs (s : State) : List Ref := s.loaded.map Prod.fst

/-- Every record that was loaded is in exactly one node of the table and not destroyed, or in no
node and destroyed once. -/
def Owned (s : State) : Prop :=
  (refs s).Nodup ∧ ∀ r ∈ refs s,
    (∃ b, (s.buckets b).count r = 1 ∧ (∀ b' ≠ b, r ∉ s.buckets b') ∧ r ∉ s.destroyed) ∨
    (∀ b, r ∉ s.buckets b) ∧ s.destroyed.count r = 1

/-- **`proc_tabl_dest`** makes no wrong access and leaves every record destroyed exactly once. -/
def Clears (s : State) : Prop :=
  (procTablDest s).strs.faults = s.strs.faults ∧
    ∀ r ∈ refs s, (procTablDest s).destroyed.count r = 1

/-! ### The ledger -/

/-- **Every record has one owner**: the table, the caller of `proc_load`, or nobody any more. -/
structure Ledger (hand : Option Ref) (s : State) : Prop where
  bucketCount : s.bucketCount = procBuckNodes
  nodup : (refs s).Nodup
  lt_next : ∀ r ∈ refs s, r < s.next
  mem_iff : ∀ r, r ∈ refs s ↔ r ∈ s.tracked ∨ r ∈ s.destroyed ∨ hand = some r
  once : s.destroyed.Nodup
  tracked : ∀ r ∈ s.tracked, r ∉ s.destroyed ∧ hand ≠ some r
  hand : ∀ r, hand = some r → r ∉ s.destroyed

namespace Ledger

variable {hand : Option Ref} {s t u : State} {r : Ref}

theorem init : Ledger none init where
  bucketCount := rfl
  nodup := List.nodup_nil
  lt_next r hr := by cases hr
  mem_iff r := by
    simp only [notMem_init, false_or, reduceCtorEq, or_false]
    rfl
  once := List.nodup_nil
  tracked r hr := absurd hr (notMem_init r)
  hand r hr := by cases hr

theorem same (h : Ledger hand s) (hc : t.bucketCount = s.bucketCount) (hb : t.buckets = s.buckets)
    (hn : s.next ≤ t.next) (hl : t.loaded = s.loaded) (hd : t.destroyed = s.destroyed) :
    Ledger hand t := by
  have hrefs : refs t = refs s := by rw [refs, hl]; rfl
  have htr : t.tracked = s.tracked := by unfold State.tracked; rw [hb]
  constructor
  · rw [hc]; exact h.bucketCount
  · rw [hrefs]; exact h.nodup
  · intro r hr
    rw [hrefs] at hr
    exact lt_of_lt_of_le (h.lt_next r hr) hn
  · rw [hrefs, htr, hd]; exact h.mem_iff
  · rw [hd]; exact h.once
  · rw [htr, hd]; exact h.tracked
  · rw [hd]; exact h.hand

theorem relinked (h : Ledger hand s) (hr : Relinked s t) : Ledger hand t := by
  have hs := hr.same
  exact h.same (by rw [hs]) hr.buckets hr.next.ge (by rw [hs]) (by rw [hs])

theorem renamed (h : Ledger hand s) (hr : Renamed s t) : Ledger hand t := by
  have hs := hr.same
  exact h.same (by rw [hs]) hr.buckets hr.next.ge (by rw [hs]) (by rw [hs])

/-- **`proc_load`** hands over a record of its own, or none. -/
theorem load (h : Ledger none s) {q : Pid} {f : Files} {calloc : Bool} {o : Option Ref}
    (hl : procLoad q f calloc s = (o, t)) : Ledger o t := by
  unfold procLoad at hl
  split_ifs at hl with hc
  · cases hl; exact h
  dsimp only at hl
  split_ifs at hl with hx
  · cases hl
    exact h.same rfl rfl (Nat.le_succ _) rfl rfl
  · cases hl
    have hnew : s.next ∉ refs s := fun hm => (h.lt_next _ hm).false
    have hno : ∀ r, r ∈ s.tracked ∨ r ∈ s.destroyed → r ≠ s.next := by
      rintro r hr rfl
      exact hnew ((h.mem_iff _).mpr (hr.elim Or.inl fun hd => Or.inr (Or.inl hd)))
    constructor
    · exact h.bucketCount
    · exact List.nodup_cons.mpr ⟨hnew, h.nodup⟩
    · intro r hr
      rcases List.mem_cons.mp hr with rfl | hr
      · exact Nat.lt_succ_self _
      · exact Nat.lt_succ_of_lt (h.lt_next r hr)
    · intro r
      have hm := h.mem_iff r
      simp only [reduceCtorEq, or_false] at hm
      have hcons : r ∈ s.next :: refs s ↔ r = s.next ∨ r ∈ refs s := List.mem_cons
      refine hcons.trans ?_
      rw [hm, Option.some.injEq, eq_comm (a := r), or_comm, or_assoc]
      rfl
    · exact h.once
    · intro r hr
      refine ⟨(h.tracked r hr).1, ?_⟩
      rw [ne_eq, Option.some.injEq]
      exact (hno r (Or.inl hr)).symm
    · rintro r hr hd
      exact hno r (Or.inr hd) (Option.some.inj hr).symm

/-- **`proc_inse`** gives the record in hand to the table, if it succeeds. -/
theorem inse (h : Ledger (some r) s) : Ledger none (procInse r true s).2 := by
  have htr : (procInse r true s).2.tracked = insert r s.tracked := by
    ext x
    simp only [mem_tracked, procInse, if_true, Set.mem_insert_iff]
    constructor
    · rintro ⟨b, hb⟩
      rw [Function.update_apply] at hb
      split_ifs at hb
      · exact (List.mem_cons.mp hb).imp_right fun hm => ⟨_, hm⟩
      · exact Or.inr ⟨b, hb⟩
    · rintro (rfl | ⟨b, hb⟩)
      · exact ⟨procHash (s.heap x).pid, by simp⟩
      · refine ⟨b, ?_⟩
        rw [Function.update_apply]
        split_ifs with he
        · rw [he] at hb; exact List.mem_cons_of_mem _ hb
        · exact hb
  constructor
  · exact h.bucketCount
  · exact h.nodup
  · exact h.lt_next
  · intro x
    have hm := h.mem_iff x
    rw [Option.some.injEq] at hm
    rw [htr]
    have hmem : x ∈ insert r s.tracked ↔ x = r ∨ x ∈ s.tracked := Iff.rfl
    refine hm.trans ?_
    rw [hmem, eq_comm (a := r)]
    simp only [reduceCtorEq, or_false]
    show _ ↔ (_ ∨ _) ∨ x ∈ s.destroyed
    tauto
  · exact h.once
  · intro x hx
    rw [htr] at hx
    refine ⟨?_, by simp⟩
    rcases hx with rfl | hx
    · exact h.hand x rfl
    · exact (h.tracked x hx).1
  · intro x hx; cases hx

/-- **`proc_dest`** destroys the record in hand. -/
theorem dest (h : Ledger (some r) s) : Ledger none (procDest (some r) s) := by
  have htr : (procDest (some r) s).tracked = s.tracked := rfl
  constructor
  · exact h.bucketCount
  · exact h.nodup
  · exact h.lt_next
  · intro x
    have hm := h.mem_iff x
    rw [Option.some.injEq] at hm
    have hcons : x ∈ r :: s.destroyed ↔ x = r ∨ x ∈ s.destroyed := List.mem_cons
    refine hm.trans ?_
    show _ ↔ x ∈ s.tracked ∨ x ∈ r :: s.destroyed ∨ _
    rw [hcons, eq_comm (a := r)]
    simp only [reduceCtorEq, or_false]
    tauto
  · exact List.nodup_cons.mpr ⟨h.hand r rfl, h.once⟩
  · intro x hx
    obtain ⟨hd, hne⟩ := h.tracked x hx
    refine ⟨fun hm => ?_, by simp⟩
    rcases List.mem_cons.mp hm with rfl | hm
    · exact hne rfl
    · exact hd hm
  · intro x hx; cases hx

/-! ### The handlers -/

theorem findPare (h : Ledger none s) {q : Pid} {w : World} {o : Option Ref}
    (hf : findPare q w s = (o, t)) : Ledger none t := by
  unfold Model.Conn.findPare at hf
  rcases hq : procLook s q with _ | p <;> rw [hq] at hf
  swap
  · cases hf; exact h
  rcases hl : procLoad q (w.files q) w.procCalloc s with ⟨_ | r, v⟩ <;> rw [hl] at hf <;>
    have hv := h.load hl
  · cases hf; exact hv
  rcases hw : w.nodeCalloc with _ | _ <;> rw [hw] at hf <;> cases hf
  · exact hv.dest
  · exact hv.inse

theorem forkChil (h : Ledger none s) {p : Ref} {c : Pid} {ts : ℕ} {w : World} {x : ℤ}
    (hf : forkChil p c ts w s = .ret (x, t)) : Ledger none t := by
  unfold Model.Conn.forkChil at hf
  rcases hl : procLoad c (w.files c) w.procCalloc s with ⟨_ | r, v⟩ <;> rw [hl] at hf <;>
    have hv := h.load hl
  · cases hf; exact hv
  set a := attaChil (some p) (some r) (v.upd r fun p => { p with birthTime := splitNs ts })
    with ha_def
  have ha : Ledger (some r) a.2 :=
    (hv.same (t := v.upd r fun p => { p with birthTime := splitNs ts }) rfl rfl le_rfl rfl
      rfl).relinked (attaChil_relinked _ _)
  dsimp only at hf
  rw [← ha_def] at hf
  split_ifs at hf with h1 h2
  · cases hf; exact ha.dest
  · rcases hw : w.nodeCalloc with _ | _ <;> rw [hw] at h2 hf
    · rcases hd : detaChil (some p) (some r) _ with ⟨z, b⟩ | _ | _ <;> rw [hd] at hf <;> cases hf
      exact (ha.relinked (detaChil_relinked hd)).dest
    · cases h2
  · cases hf
    rcases hw : w.nodeCalloc with _ | _ <;> rw [hw] at h2
    · exact absurd rfl h2
    · exact ha.inse

theorem evenFork (h : Ledger none s) {q c : Pid} {ts : ℕ} {w : ℕ → World} {x : ℤ}
    (hf : evenFork q c ts w s = .ret (x, t)) : Ledger none t := by
  unfold Model.Conn.evenFork at hf
  rcases hp : Model.Conn.findPare q (w 0) s with ⟨_ | p, v⟩ <;> rw [hp] at hf
  · cases hf; exact h.findPare hp
  · exact (h.findPare hp).forkChil hf

theorem exitTurn (h : Ledger none s) {d c : Ref} {w : World} {x : ℤ}
    (hf : (s.heap d).firsChil = some c) (he : exitTurn d c w s = .ret (x, t)) : Ledger none t := by
  have hoff : Ledger none (headOff d c s) := h.relinked headOff_relinked
  have hu : Ledger none (orphaned d c w s).2 := hoff.same rfl rfl le_rfl rfl rfl
  rcases exitTurn_cases (w := w) hf with ⟨-, ht⟩ | ⟨-, o, v, hp, ⟨-, ht⟩ | ⟨p, -, -, ht⟩⟩ <;>
    rw [ht] at he <;> cases he
  · exact hu
  · exact hu.findPare hp
  · exact (hu.findPare hp).relinked (attaChil_relinked _ _)

/-- **Between two events nobody has a record in hand.** -/
theorem step (h : Ledger none s) (hs : Sound s) {i : Input} (hst : Step s i t) :
    Ledger none t := by
  obtain ⟨fuel, x, he⟩ := handle_of_step hst
  obtain ⟨⟨ts, data⟩, w⟩ := i
  cases data with
  | fork q c => exact h.evenFork he
  | exec q g =>
    rcases handle_exec he with ⟨-, rfl⟩ | ⟨r, -, rfl⟩
    · exact h
    · exact h.same rfl rfl le_rfl rfl rfl
  | exit q code =>
    have hm : ∀ d, Ledger none (s.upd d (markDead code ts)) := fun d =>
      h.same rfl rfl le_rfl rfl rfl
    rcases hs.evenExit_inv he with ⟨-, rfl⟩ | ⟨d, -, -, ⟨-, rfl⟩ | ⟨p, t₀, -, ht, hend⟩⟩
    · exact h
    · exact hm d
    · exact hend.inv (I := Ledger none) (fun _ _ _ _ _ hu hf he => hu.exitTurn hf he)
        ((hm d).relinked ht.relinked)
  | comm | uid | gid | other => exact h.renamed (handle_renamed he rfl)

end Ledger

theorem Ledger.owned {s : State} (h : Ledger none s) (hs : Sound s) : Owned s := by
  refine ⟨h.nodup, fun r hr => ?_⟩
  have hm := (h.mem_iff r).mp hr
  simp only [reduceCtorEq, or_false] at hm
  rcases hm with ht | hd
  · refine Or.inl ⟨procHash (s.heap r).pid, ?_, fun b hb hm => hb (hs.home b r hm).symm,
      (h.tracked r ht).1⟩
    rw [count_bucket hs ht, if_pos rfl]
  · exact Or.inr ⟨fun b hb => (h.tracked r ⟨b, hb⟩).1 hd, List.count_eq_one_of_mem h.once hd⟩

/-! ### The end of the table -/

/-- The records of `l` are destroyed. -/
def destAll (l : List Ref) (s : State) : State := l.foldl (fun u r => procDest (some r) u) s

/-- The records of the table, bucket by bucket. -/
def stored (s : State) : List Ref := (List.range s.bucketCount).flatMap s.buckets

section Dest
variable {s : State} {l : List Ref}

theorem destAll_buckets : ∀ (l : List Ref) (s : State), (destAll l s).buckets = s.buckets
  | [], _ => rfl
  | r :: l, s => destAll_buckets l (procDest (some r) s)

theorem destAll_destroyed : ∀ (l : List Ref) (s : State),
    (destAll l s).destroyed = l.reverse ++ s.destroyed
  | [], _ => rfl
  | r :: l, s => by
    have ih := destAll_destroyed l (procDest (some r) s)
    rw [List.reverse_cons, List.append_assoc]
    exact ih

theorem destAll_append (l l' : List Ref) (s : State) :
    destAll (l ++ l') s = destAll l' (destAll l s) := List.foldl_append

theorem destAll_faults_le : ∀ (l : List Ref) (s : State),
    s.strs.faults.length ≤ (destAll l s).strs.faults.length
  | [], _ => le_rfl
  | r :: l, s => by
    have hfirst : s.strs.faults.length ≤ (procDest (some r) s).strs.faults.length :=
      freeSlots_faults_le
    exact hfirst.trans (destAll_faults_le l _)

/-- **Destroying records makes no wrong access exactly when the slots of each can be freed.** -/
theorem destAll_faults_iff : ∀ {l : List Ref} {s : State}, l.Nodup →
    ((destAll l s).strs.faults.length = s.strs.faults.length ↔
      ∀ r ∈ l, Freeable (s.heap r).fdPaths (s.heap r).fdCoun.toNat)
  | [], s, _ => by simp [destAll]
  | r :: l, s, hn => by
    obtain ⟨hr, hn⟩ := List.nodup_cons.mp hn
    set t := procDest (some r) s with ht
    have hother : ∀ x ∈ l, t.heap x = s.heap x := fun x hx => by
      have hne : x ≠ r := by rintro rfl; exact hr hx
      exact Function.update_of_ne hne ..
    have hrest : (destAll l t).strs.faults.length = t.strs.faults.length ↔
        ∀ x ∈ l, Freeable (s.heap x).fdPaths (s.heap x).fdCoun.toNat := by
      rw [destAll_faults_iff hn]
      exact forall₂_congr fun x hx => by rw [hother x hx]
    have hle := destAll_faults_le l t
    have hle' : s.strs.faults.length ≤ t.strs.faults.length := freeSlots_faults_le
    have hfirst : t.strs.faults.length = s.strs.faults.length ↔
        Freeable (s.heap r).fdPaths (s.heap r).fdCoun.toNat := freeSlots_faults_iff
    rw [List.forall_mem_cons, ← hfirst, ← hrest]
    show (destAll l t).strs.faults.length = _ ↔ _
    omega

theorem destAll_faults : ∀ {l : List Ref} {s : State},
    (destAll l s).strs.faults.length = s.strs.faults.length →
      (destAll l s).strs.faults = s.strs.faults
  | [], _, _ => rfl
  | r :: l, s, h => by
    set t := procDest (some r) s with ht
    have hle := destAll_faults_le l t
    have hle' : s.strs.faults.length ≤ t.strs.faults.length := freeSlots_faults_le
    have h : (destAll l t).strs.faults.length = s.strs.faults.length := h
    have hrest : (destAll l t).strs.faults = t.strs.faults := destAll_faults (by omega)
    have hfirst : t.strs.faults = s.strs.faults :=
      freeSlots_faults (freeSlots_faults_iff.mp (show t.strs.faults.length = _ by omega))
    exact hrest.trans hfirst

/-- The buckets are as they were when their turn comes. -/
theorem destBuckets_eq : ∀ (is : List ℕ) (t : State),
    is.foldl (fun t i => (t.buckets i).foldl (fun u r => procDest (some r) u) t) t =
      destAll (is.flatMap t.buckets) t
  | [], _ => rfl
  | i :: is, t => by
    have hb : (destAll (t.buckets i) t).buckets = t.buckets := destAll_buckets _ t
    have ih := destBuckets_eq is (destAll (t.buckets i) t)
    rw [hb] at ih
    rw [List.flatMap_cons, destAll_append, ← ih]
    rfl

theorem procTablDest_eq (s : State) :
    procTablDest s = { destAll (stored s) s with buckets := fun _ => [], bucketCount := 0 } := by
  unfold procTablDest
  dsimp only
  rw [destBuckets_eq]
  rfl

/-- **The table is cleared exactly when the slots of each of its records can be freed.** -/
theorem clears_iff_freeable (h : Ledger none s) (hs : Sound s) : Clears s ↔
    ∀ r ∈ s.tracked, Freeable (s.heap r).fdPaths (s.heap r).fdCoun.toNat := by
  have hnodup : (stored s).Nodup := hs.nodup_buckets _
  have hmem : ∀ r, r ∈ stored s ↔ r ∈ s.tracked := fun r => hs.mem_buckets h.bucketCount
  have hiff := destAll_faults_iff (s := s) hnodup
  have hfree : (∀ r ∈ stored s, Freeable (s.heap r).fdPaths (s.heap r).fdCoun.toNat) ↔
      ∀ r ∈ s.tracked, Freeable (s.heap r).fdPaths (s.heap r).fdCoun.toNat :=
    forall_congr' fun r => by rw [hmem]
  rw [← hfree, ← hiff, Clears, procTablDest_eq]
  refine ⟨fun hc => congrArg List.length hc.1, fun hf => ⟨destAll_faults hf, fun r hr => ?_⟩⟩
  -- what the table does not own was destroyed before
  dsimp only
  rw [destAll_destroyed, List.count_append, List.count_reverse]
  have hm := (h.mem_iff r).mp hr
  simp only [reduceCtorEq, or_false] at hm
  by_cases ht : r ∈ s.tracked
  · rw [List.count_eq_one_of_mem hnodup ((hmem r).mpr ht),
      List.count_eq_zero_of_not_mem (h.tracked r ht).1]
  · have hd := hm.resolve_left ht
    rw [List.count_eq_zero_of_not_mem fun hr => ht ((hmem r).mp hr),
      List.count_eq_one_of_mem h.once hd]

end Dest

/-! ### Runs -/

theorem ledger_of_run {tr : List (Input × State)} (hr : Steps Step init tr) :
    ∀ x ∈ tr, Ledger none x.2 ∧ Sound x.2 :=
  hr.forall_mem (J := fun s => Ledger none s ∧ Sound s)
    (fun _ _ _ h hst => ⟨h.1.step h.2 hst, h.2.step hst⟩) ⟨Ledger.init, sound_init⟩

/-- **In every state of a run each record has one owner, and `proc_tabl_dest` clears the table if
and only if the slots of each of its records can be freed.** -/
theorem owned_and_clears_iff {tr : List (Input × State)} (hr : Steps Step init tr) :
    ∀ x ∈ tr, (Owned x.2 ∧ Clears x.2 ↔
      ∀ r ∈ x.2.tracked, Freeable (x.2.heap r).fdPaths (x.2.heap r).fdCoun.toNat) := by
  intro x hx
  obtain ⟨h, hs⟩ := ledger_of_run hr x hx
  rw [clears_iff_freeable h hs]
  exact and_iff_right (h.owned hs)

theorem owned_and_clears_iff_adopted : Steps Step init (trace 2 init adopted) ∧
    ∀ x ∈ trace 2 init adopted, (Owned x.2 ∧ Clears x.2 ↔
      ∀ r ∈ x.2.tracked, Freeable (x.2.heap r).fdPaths (x.2.heap r).fdCoun.toNat) :=
  ⟨adopted_steps, owned_and_clears_iff adopted_steps⟩

/-- A record counts 64 slots and has no array. -/
theorem not_clears_unlisted : Steps Step init (trace 0 init unlisted) ∧
    ¬ ∀ x ∈ trace 0 init unlisted, Owned x.2 ∧ Clears x.2 := by
  have hst : Steps Step init (trace 0 init unlisted) := steps_trace (by decide)
  refine ⟨hst, fun hi => ?_⟩
  have hend := forall_final (P := fun s : State => Ledger none s ∧ Sound s) (s := init)
    (ledger_of_run hst) (by simp [unlisted, trace])
  have hcl := forall_final (P := fun s : State => Owned s ∧ Clears s) (s := init) hi
    (by simp [unlisted, trace])
  have hfree := (clears_iff_freeable hend.1 hend.2).mp hcl.2
  obtain ⟨v, hv, -⟩ := hfree 1 ⟨2, by decide⟩ 0 (by decide)
  cases hv

end Serie.Table.Owner
