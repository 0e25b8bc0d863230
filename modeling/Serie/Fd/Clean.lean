import Serie.Model.Refresh

/-! # What `prfs_clean_fd` frees

`prfs_clean_fd` frees the contents of the slots below a count. On an array whose first slots hold
strings, with at most one `NULL` after them and unwritten slots behind (`ArrayIs`), a count makes no
wrong access if it is not above the number of written slots (`ArrayIs.freeable`), and frees
the strings below it (`ArrayIs.count_freed`). -/

namespace Serie.Fd.Clean

open Serie.Model.Record Serie.Model.Prfs

/-! ### Slots -/

/-- The slot `j` of an array. -/
def slotAt (paths : Option (List Slot)) (j : ℕ) : Option Slot := paths.bind fun a => a[j]?

/-- The number of the string in slot `j`. -/
def idAt (paths : Option (List Slot)) (j : ℕ) : Option ℕ :=
  match slotAt paths j with
  | some (.str id _) => some id
  | _ => none

/-- Every slot below `n` exists and was written. -/
def Freeable (paths : Option (List Slot)) (n : ℕ) : Prop :=
  ∀ j < n, ∃ v, slotAt paths j = some v ∧ v ≠ .unset

/-- The frees of `prfs_clean_fd`. -/
def freeSlots (paths : Option (List Slot)) (n : ℕ) (m : Strs) : Strs :=
  (List.range n).foldl (fun m j => m.freeSlot paths j) m

theorem prfsCleanFd_eq (p : Proc) (i : ℤ) (m : Strs) :
    prfsCleanFd p i m = ({ p with fdPaths := none }, freeSlots p.fdPaths i.toNat m) := rfl

section Free
variable {paths : Option (List Slot)} {j n : ℕ} {m : Strs}

theorem freeSlots_succ : freeSlots paths (n + 1) m = (freeSlots paths n m).freeSlot paths n := by
  rw [freeSlots, List.range_succ, List.foldl_append]
  rfl

@[simp] theorem freeSlot_fresh : (m.freeSlot paths j).fresh = m.fresh := by
  unfold Strs.freeSlot
  split
  · rfl
  · split <;> rfl

theorem freeSlot_freed :
    (m.freeSlot paths j).freed = (idAt paths j).toList ++ m.freed := by
  unfold Strs.freeSlot idAt slotAt
  rcases paths with _ | a
  · rfl
  · rcases ha : a[j]? with _ | _ | _ | ⟨id, target⟩ <;> simp [ha]

theorem freeSlot_faults (paths : Option (List Slot)) (j : ℕ) (m : Strs) :
    ((m.freeSlot paths j).faults = m.faults ∧
      ∃ v, slotAt paths j = some v ∧ v ≠ .unset) ∨
    (m.freeSlot paths j).faults.length = m.faults.length + 1 ∧
      ¬ ∃ v, slotAt paths j = some v ∧ v ≠ .unset := by
  unfold Strs.freeSlot slotAt
  rcases paths with _ | a
  · exact Or.inr ⟨rfl, by simp⟩
  · rcases ha : a[j]? with _ | _ | _ | ⟨id, target⟩
    · exact Or.inr ⟨by simp [ha], by simp [ha]⟩
    · exact Or.inr ⟨by simp [ha], by simp [ha]⟩
    · exact Or.inl ⟨by simp [ha], _, ha, by simp⟩
    · exact Or.inl ⟨by simp [ha], _, ha, by simp⟩

@[simp] theorem freeSlots_fresh : (freeSlots paths n m).fresh = m.fresh := by
  induction n with
  | zero => rfl
  | succ n ih => rw [freeSlots_succ, freeSlot_fresh, ih]

theorem freeSlots_faults_le : m.faults.length ≤ (freeSlots paths n m).faults.length := by
  induction n with
  | zero => exact le_rfl
  | succ n ih =>
    rw [freeSlots_succ]
    rcases freeSlot_faults paths n (freeSlots paths n m) with ⟨h, -⟩ | ⟨h, -⟩
    · rw [h]; exact ih
    · omega

/-- **No wrong access exactly when every slot below the count was written.** -/
theorem freeSlots_faults_iff :
    (freeSlots paths n m).faults.length = m.faults.length ↔ Freeable paths n := by
  induction n with
  | zero => exact iff_of_true rfl fun j hj => absurd hj (Nat.not_lt_zero j)
  | succ n ih =>
    have hle : m.faults.length ≤ (freeSlots paths n m).faults.length := freeSlots_faults_le
    rw [freeSlots_succ]
    rcases freeSlot_faults paths n (freeSlots paths n m) with
      ⟨h, hv⟩ | ⟨h, hv⟩
    · rw [h, ih]
      constructor
      · intro hn j hj
        rcases Nat.lt_succ_iff_lt_or_eq.mp hj with hj | rfl
        · exact hn j hj
        · exact hv
      · exact fun hn j hj => hn j (Nat.lt_succ_of_lt hj)
    · refine iff_of_false (by omega) fun hn => hv (hn n (Nat.lt_succ_self n))

theorem freeSlots_faults (h : Freeable paths n) : (freeSlots paths n m).faults = m.faults := by
  induction n with
  | zero => rfl
  | succ n ih =>
    rw [freeSlots_succ]
    rcases freeSlot_faults paths n (freeSlots paths n m) with
      ⟨h', -⟩ | ⟨-, hv⟩
    · rw [h']; exact ih fun j hj => h j (Nat.lt_succ_of_lt hj)
    · exact absurd (h n (Nat.lt_succ_self n)) hv

theorem count_freed_of_absent {id : ℕ} (h : ∀ j, idAt paths j ≠ some id) :
    (freeSlots paths n m).freed.count id = m.freed.count id := by
  induction n with
  | zero => rfl
  | succ n ih =>
    rw [freeSlots_succ, freeSlot_freed, List.count_append, ih, List.count_eq_zero_of_not_mem,
      Nat.zero_add]
    intro hm
    exact h n (by simpa using hm)

end Free

/-! ### Arrays as `prfs_fd` fills them -/

/-- The array `a` holds the strings `ids` in its first slots; its first `M` slots were written. -/
structure ArrayIs (a : List Slot) (ids : List ℕ) (M : ℕ) : Prop where
  length_le : ids.length ≤ M
  le_length : M ≤ a.length
  le_succ : M ≤ ids.length + 1
  idAt : ∀ j, idAt (some a) j = ids[j]?
  unset : ∀ j, a[j]? = some .unset ↔ M ≤ j ∧ j < a.length

namespace ArrayIs

variable {a : List Slot} {ids : List ℕ} {M n : ℕ}

theorem replicate (n : ℕ) : ArrayIs (List.replicate n .unset) [] 0 where
  length_le := le_rfl
  le_length := Nat.zero_le _
  le_succ := Nat.zero_le _
  idAt j := by
    unfold Clean.idAt slotAt
    rw [Option.bind_some, List.getElem?_replicate]
    split_ifs <;> rfl
  unset j := by
    rw [List.getElem?_replicate, List.length_replicate]
    split_ifs with h <;> simp [h]

/-- A count makes no wrong access if it is not above the number of written slots. -/
theorem freeable (h : ArrayIs a ids M) : Freeable (some a) n ↔ n ≤ M := by
  constructor
  · intro hf
    by_contra hn
    obtain ⟨v, hv, hu⟩ := hf M (by omega)
    rw [slotAt, Option.bind_some] at hv
    have hlt : M < a.length := (List.getElem?_eq_some_iff.mp hv).1
    rw [(h.unset M).mpr ⟨le_rfl, hlt⟩] at hv
    exact hu (Option.some.inj hv).symm
  · intro hn j hj
    have hlt : j < a.length := by have := h.le_length; omega
    have hj : slotAt (some a) j = some a[j] := by
      rw [slotAt, Option.bind_some]
      exact List.getElem?_eq_getElem hlt
    refine ⟨a[j], hj, fun hu => ?_⟩
    have := (h.unset j).mp (by rw [List.getElem?_eq_getElem hlt, hu])
    omega

/-- **The strings below the count are freed.** -/
theorem count_freed (h : ArrayIs a ids M) (m : Strs) (id : ℕ) :
    (freeSlots (some a) n m).freed.count id = (ids.take n).count id + m.freed.count id := by
  induction n with
  | zero => simp [freeSlots]
  | succ n ih =>
    rw [freeSlots_succ, freeSlot_freed, List.count_append, ih, h.idAt, List.take_add_one,
      List.count_append]
    omega

theorem set_str (h : ArrayIs a ids M) (hlt : ids.length < a.length) (id : ℕ) (t : List UInt8) :
    ArrayIs (a.set ids.length (.str id t)) (ids ++ [id]) (ids.length + 1) where
  length_le := by simp
  le_length := by rw [List.length_set]; exact hlt
  le_succ := by simp
  idAt j := by
    have hj := h.idAt j
    unfold Clean.idAt slotAt at hj ⊢
    rw [Option.bind_some] at hj ⊢
    rw [List.getElem?_set]
    by_cases he : ids.length = j
    · subst he; simp [hlt]
    · rw [if_neg he, hj]
      rcases Nat.lt_or_gt_of_ne he with hl | hl
      · rw [List.getElem?_eq_none (by omega), List.getElem?_eq_none (by simp; omega)]
      · rw [List.getElem?_append_left hl]
  unset j := by
    have hj := h.unset j
    have := h.length_le
    have := h.le_succ
    rw [List.getElem?_set, List.length_set]
    by_cases he : ids.length = j
    · subst he; simp [hlt]
    · rw [if_neg he, hj]; omega

theorem set_null (h : ArrayIs a ids M) (hlt : ids.length < a.length) :
    ArrayIs (a.set ids.length .null) ids (ids.length + 1) where
  length_le := Nat.le_succ _
  le_length := by rw [List.length_set]; exact hlt
  le_succ := le_rfl
  idAt j := by
    have hj := h.idAt j
    unfold Clean.idAt slotAt at hj ⊢
    rw [Option.bind_some] at hj ⊢
    rw [List.getElem?_set]
    by_cases he : ids.length = j
    · subst he; simp [hlt]
    · rw [if_neg he, hj]
  unset j := by
    have hj := h.unset j
    have := h.length_le
    have := h.le_succ
    rw [List.getElem?_set, List.length_set]
    by_cases he : ids.length = j
    · subst he; simp [hlt]
    · rw [if_neg he, hj]; omega

end ArrayIs

end Serie.Fd.Clean
