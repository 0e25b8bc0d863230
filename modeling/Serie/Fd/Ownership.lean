import Serie.Fd.Clean
import Serie.Model.Runs

/-! # Who frees the paths

A record holds a snapshot: an array whose first `k` slots hold strings and whose first `M` slots
were written (`k` or `k + 1`). `prfs_clean_fd` is called with `fd_coun`, which `prfs_status` has
overwritten with the size of the descriptor table by then. So the strings of a record are each freed
once, without wrong access, exactly if every count a snapshot is given up with lies between `k` and
`M` (`freedOnce_iff_fdOk`). `Tracks` is the invariant of the refreshes so far; a refresh that misses
the condition leaves `Broken`, for good. -/

namespace Serie.Fd.Ownership

open Serie.Lib.CText Serie.Model.Record Serie.Model.Prfs Serie.Model.Refresh Serie.Model.Table
open Serie.Model.Conn Serie.Model.Runs Serie.Fd.Clean

/-! ### The condition -/

/-- The size of the descriptor table in `/proc/<pid>/status`. -/
def sizeRead (f : Files) : ℤ := (prfsStatus Proc.zero f).2.fdCoun

/-- The thread group and the size are there. -/
def statusOk (f : Files) : Bool := (prfsStatus Proc.zero f).1 = 0

/-- What a listing gives to an array of `F` slots, after `i` strings and `M` slots: the number of
strings and the number of slots written, unless an allocation fails. -/
def listing (F : ℤ) : List DirEntry → ℕ → ℕ → Option (ℕ × ℕ)
  | [], i, M => some (i, M)
  | e :: es, i, M =>
    if (i : ℤ) ≥ F then some (i, M)
    else if deref e.dName = ch '.' then listing F es i M
    else if e.alloc = false then none
    else
      match e.link with
      | some _ => listing F es (i + 1) (i + 1)
      | none => listing F es i (i + 1)

/-- The count of a record, and the strings and written slots of its snapshot if it has one. -/
abbrev Held := ℤ × Option (ℕ × ℕ)

/-- The answers make a refresh give up the snapshot. -/
def renews (f : Files) : Prop :=
  statRead f ≠ none ∧ statusOk f = true ∧ (sizeRead f = 0 ∨ f.fd ≠ none)

/-- What `prfs_fd` makes of the snapshot when `F` is the size that was read. -/
def heldFd (F : ℤ) (held : Option (ℕ × ℕ)) (f : Files) : Held :=
  if F = 0 then (0, none)
  else
    match f.fd with
    | none => (F, held)
    | some dirs =>
      match if f.arrAlloc = false ∨ F < 0 then none else listing F dirs 0 0 with
      | none => (F, none)
      | some (k, M) => (k, some (k, M))

/-- What a refresh makes of the count and the snapshot. -/
def heldAfter (v : Held) (f : Files) : Held :=
  if statRead f = none ∨ f.status = none then v
  else if statusOk f = false then (sizeRead f, v.2)
  else heldFd (sizeRead f) v.2 f

/-- A snapshot may be given up with the count `n`. -/
def Covers (n : ℤ) (held : ℕ × ℕ) : Prop := held.1 ≤ n.toNat ∧ n.toNat ≤ held.2

/-- The count in the end covers the snapshot; without one there is nothing to count. -/
def Closes (v : Held) : Prop :=
  match v.2 with
  | none => v.1 ≤ 0
  | some held => Covers v.1 held

/-- Every count that a snapshot is given up with covers it: the size that is read, in a refresh, and
the count of the record, in the end. -/
def FdOk : Held → List Files → Prop
  | v, [] => Closes v
  | v, f :: fs => (renews f → ∀ held, v.2 = some held → Covers (sizeRead f) held) ∧
      FdOk (heldAfter v f) fs

/-! ### What a refresh does to the array -/

section Look
variable {p : Proc} {m : Strs} {f : Files}

theorem statusLines_fdPaths : ∀ (lines : List (List Byte)) (p : Proc),
    (statusLines p lines).fdPaths = p.fdPaths
  | [], _ => rfl
  | line :: lines, p => by
    have hl : (statusLine p line).1.fdPaths = p.fdPaths := by
      unfold statusLine
      split_ifs <;> rfl
    simp only [statusLines]
    split_ifs
    · rw [statusLines_fdPaths lines, hl]
    · exact hl

theorem prfsStatus_fdPaths : (prfsStatus p f).2.fdPaths = p.fdPaths := by
  unfold prfsStatus
  rcases f.status with _ | text
  · rfl
  · dsimp only
    split_ifs <;> exact statusLines_fdPaths _ _

theorem prfsStatus_size (h : f.status ≠ none) : (prfsStatus p f).2.fdCoun = sizeRead f ∧
    ((prfsStatus p f).1 = -1 ↔ statusOk f = false) := by
  obtain ⟨h1, h2⟩ := prfsStatus_counts p Proc.zero f h
  refine ⟨(Prod.mk.inj h1).2, ?_⟩
  have hcode : (prfsStatus Proc.zero f).1 = -1 ∨ (prfsStatus Proc.zero f).1 = 0 := by
    unfold prfsStatus
    rcases f.status with _ | text
    · exact Or.inl rfl
    · dsimp only
      split_ifs
      · exact Or.inl rfl
      · exact Or.inr rfl
  rw [h2, statusOk]
  rcases hcode with hc | hc <;> simp [hc]

/-- **The part of `prfs_look` that concerns the array**: it stops before `prfs_status`, or in it, or
runs `prfs_fd` with the size that was read. -/
theorem prfsLook_fd (p : Proc) (m : Strs) (f : Files) :
    ((statRead f = none ∨ f.status = none) ∧ (prfsLook p m f).2.1.fdCoun = p.fdCoun ∧
      (prfsLook p m f).2.1.fdPaths = p.fdPaths ∧ (prfsLook p m f).2.2 = m) ∨
    (statRead f ≠ none ∧ f.status ≠ none ∧ statusOk f = false ∧
      (prfsLook p m f).2.1.fdCoun = sizeRead f ∧
      (prfsLook p m f).2.1.fdPaths = p.fdPaths ∧ (prfsLook p m f).2.2 = m) ∨
    statRead f ≠ none ∧ f.status ≠ none ∧ statusOk f = true ∧ ∃ q : Proc,
      q.fdCoun = sizeRead f ∧ q.fdPaths = p.fdPaths ∧
      (prfsLook p m f).2 = (prfsFd q m f).2 := by
  rcases hg : statRead f with _ | g
  · exact Or.inl ⟨Or.inl rfl, by simp [prfsLook, prfsStat, hg]⟩
  have hps : ∃ a : Proc, prfsStat p f = (0, a) ∧ a.fdCoun = p.fdCoun ∧ a.fdPaths = p.fdPaths := by
    simp only [prfsStat, hg]
    exact ⟨_, rfl, rfl, rfl⟩
  obtain ⟨a, ha, hac, hap⟩ := hps
  rcases hs : f.status with _ | text
  · refine Or.inl ⟨Or.inr rfl, ?_⟩
    simp [prfsLook, ha, prfsStatus, hs, hac, hap]
  have hne : f.status ≠ none := by rw [hs]; simp
  obtain ⟨hsz, hcode⟩ := prfsStatus_size (p := a) hne
  have hbp : (prfsStatus a f).2.fdPaths = p.fdPaths := prfsStatus_fdPaths.trans hap
  right
  rcases hok : statusOk f with _ | _
  · have h1 := hcode.mpr hok
    refine Or.inl ⟨by simp, by simp, rfl, ?_⟩
    simp [prfsLook, ha, h1, hsz, hbp]
  · have h1 : ¬ (prfsStatus a f).1 = -1 := fun h => by rw [hcode.mp h] at hok; cases hok
    refine Or.inr ⟨by simp, by simp, rfl, _, hsz, hbp, ?_⟩
    simp only [prfsLook, ha, show ¬((0 : ℤ) = -1) by decide, if_false, if_neg h1]
    split_ifs <;> rfl

end Look

/-! ### What is broken stays broken -/

/-- What `prfs_look` does to an array and the strings: it frees slots and drops the array, makes a
new one, and writes slots. -/
structure Writes (I : Option (List Slot) → Strs → Prop) : Prop where
  free : ∀ {paths n m}, I paths m → I none (freeSlots paths n m)
  drop : ∀ {paths m}, I paths m → I none m
  new : ∀ {m} n, I none m → I (some (List.replicate n .unset)) m
  null : ∀ {a m} i, I (some a) m → I (some (a.set i .null)) m
  str : ∀ {a m} i t, I (some a) m →
    I (some (a.set i (.str m.fresh t))) { m with fresh := m.fresh + 1 }
  unread : ∀ {a m} i, I (some a) m → I (some (a.set i .null))
    { m with fresh := m.fresh + 1, freed := m.fresh :: m.freed }

namespace Writes

variable {I : Option (List Slot) → Strs → Prop}

theorem fdLoop (hI : Writes I) : ∀ {es : List DirEntry} {i : ℕ} {p : Proc} {m : Strs},
    p.fdPaths ≠ none → I p.fdPaths m →
      I (fdLoop es i p m).2.1.fdPaths (fdLoop es i p m).2.2
  | [], _, _, _, _, h => h
  | e :: es, i, p, m, hp, h => by
    obtain ⟨a, ha⟩ := Option.ne_none_iff_exists'.mp hp
    rw [ha] at h
    have hset : ∀ v, (setSlot p i v).fdPaths = some (a.set i v) := fun v => by
      rw [setSlot, ha]; rfl
    unfold Model.Prfs.fdLoop
    split_ifs
    · rw [ha]; exact h
    · exact hI.fdLoop hp (by rw [ha]; exact h)
    · show I none (freeSlots (setSlot p i .null).fdPaths i m)
      rw [hset]; exact hI.free (hI.null i h)
    · rcases e.link with _ | t
      · exact hI.fdLoop (by rw [hset]; simp) (by rw [hset]; exact hI.unread i h)
      · exact hI.fdLoop (by rw [hset]; simp) (by rw [hset]; exact hI.str i t h)

theorem prfsFd (hI : Writes I) {p : Proc} {m : Strs} {f : Files} (h : I p.fdPaths m) :
    I (prfsFd p m f).2.1.fdPaths (prfsFd p m f).2.2 := by
  unfold Model.Prfs.prfsFd
  by_cases h0 : p.fdCoun = 0
  · rw [if_pos h0]; exact hI.drop h
  rw [if_neg h0]
  rcases f.fd with _ | dirs
  · exact h
  have hc : ∃ q m', (if p.fdPaths ≠ none then prfsCleanFd p p.fdCoun m else (p, m)) = (q, m') ∧
      I none m' := by
    split_ifs
    · exact ⟨_, _, rfl, hI.free h⟩
    · exact ⟨_, _, rfl, hI.drop h⟩
  obtain ⟨q, m', hq, hn⟩ := hc
  dsimp only
  rw [hq]
  by_cases ha : f.arrAlloc = false ∨ p.fdCoun < 0
  · rw [if_pos ha]; exact hn
  · rw [if_neg ha]; exact hI.fdLoop (by simp) (hI.new _ hn)

theorem prfsLook (hI : Writes I) {p : Proc} {m : Strs} {f : Files} (h : I p.fdPaths m) :
    I (prfsLook p m f).2.1.fdPaths (prfsLook p m f).2.2 := by
  rcases prfsLook_fd p m f with ⟨-, -, hp, hm⟩ | ⟨-, -, -, -, hp, hm⟩ | ⟨-, -, -, q, -, hp, he⟩
  · rw [hp, hm]; exact h
  · rw [hp, hm]; exact h
  · rw [he]; exact hI.prfsFd (hp.symm ▸ h)

end Writes

/-- From `m₀` to `m₁` there was no wrong access, and every string allocated was freed once. -/
def FreedOnce (m₀ m₁ : Strs) : Prop :=
  m₁.faults = m₀.faults ∧ ∀ id, m₁.freed.count id = m₀.freed.count id +
    if m₀.fresh ≤ id ∧ id < m₁.fresh then 1 else 0

/-- There was a wrong access, or a string was lost: it is in no slot and was not freed. -/
def Broken (m₀ : Strs) (paths : Option (List Slot)) (m : Strs) : Prop :=
  m₀.faults.length < m.faults.length ∨ ∃ id, m₀.fresh ≤ id ∧ id < m.fresh ∧
    m.freed.count id = m₀.freed.count id ∧ ∀ j, idAt paths j ≠ some id

section Broken
variable {m₀ m : Strs} {paths : Option (List Slot)} {n : ℕ}

theorem Broken.not_freedOnce (h : Broken m₀ paths m) : ¬ FreedOnce m₀ m := by
  rintro ⟨hf, hc⟩
  rcases h with h | ⟨id, h1, h2, h3, -⟩
  · rw [hf] at h; exact lt_irrefl _ h
  · have := hc id
    rw [if_pos ⟨h1, h2⟩] at this
    omega

theorem idAt_none (j : ℕ) : idAt none j = none := rfl

theorem idAt_set_of_ne {a : List Slot} {i id : ℕ} {v : Slot} (h : ∀ j, idAt (some a) j ≠ some id)
    (hv : ∀ t, v ≠ .str id t) (j : ℕ) : idAt (some (a.set i v)) j ≠ some id := by
  have hj := h j
  unfold idAt slotAt at hj ⊢
  rw [Option.bind_some] at hj ⊢
  rw [List.getElem?_set]
  split_ifs with h1 h2
  · rcases v with _ | _ | ⟨id', t⟩
    · simp
    · simp
    · simp only [ne_eq, Option.some.injEq]
      rintro rfl
      exact hv t rfl
  · simp
  · exact hj

theorem idAt_replicate (n j : ℕ) : idAt (some (List.replicate n .unset)) j = none :=
  ((ArrayIs.replicate n).idAt j).trans rfl

theorem broken_writes (m₀ : Strs) : Writes (Broken m₀) where
  free {paths n m} h := by
    rcases h with h | ⟨id, h1, h2, h3, h4⟩
    · exact Or.inl (lt_of_lt_of_le h freeSlots_faults_le)
    · exact Or.inr ⟨id, h1, by rw [freeSlots_fresh]; exact h2,
        (count_freed_of_absent h4).trans h3, fun j => by rw [idAt_none]; simp⟩
  drop h := h.imp_right fun ⟨id, h1, h2, h3, _⟩ =>
    ⟨id, h1, h2, h3, fun j => by rw [idAt_none]; simp⟩
  new n h := h.imp_right fun ⟨id, h1, h2, h3, _⟩ =>
    ⟨id, h1, h2, h3, fun j => by rw [idAt_replicate]; simp⟩
  null i h := h.imp_right fun ⟨id, h1, h2, h3, h4⟩ =>
    ⟨id, h1, h2, h3, idAt_set_of_ne h4 (by simp)⟩
  str {a m} i t h := h.imp_right fun ⟨id, h1, h2, h3, h4⟩ =>
    ⟨id, h1, Nat.lt_succ_of_lt h2, h3, idAt_set_of_ne h4 fun t' he => by
      cases he; exact lt_irrefl _ h2⟩
  unread {a m} i h := h.imp_right fun ⟨id, h1, h2, h3, h4⟩ =>
    ⟨id, h1, Nat.lt_succ_of_lt h2, by rw [List.count_cons_of_ne (Ne.symm h2.ne), h3],
      idAt_set_of_ne h4 (by simp)⟩

end Broken

/-! ### The snapshot and the strings in it -/

/-- The array is the snapshot, with the strings `ids`. -/
def Snapshot (paths : Option (List Slot)) (held : Option (ℕ × ℕ)) (ids : List ℕ) : Prop :=
  match held with
  | none => paths = none ∧ ids = []
  | some (k, M) => ∃ a, paths = some a ∧ ArrayIs a ids M ∧ ids.length = k

/-- Since `m₀` there was no wrong access, and the strings allocated are `ids` or were freed once. -/
structure Owns (m₀ m : Strs) (ids : List ℕ) : Prop where
  fresh_le : m₀.fresh ≤ m.fresh
  nodup : ids.Nodup
  mem : ∀ id ∈ ids, m₀.fresh ≤ id ∧ id < m.fresh
  count : ∀ id, m.freed.count id = m₀.freed.count id +
    if m₀.fresh ≤ id ∧ id < m.fresh ∧ id ∉ ids then 1 else 0
  faults : m.faults = m₀.faults

section Owns
variable {m₀ m : Strs} {ids : List ℕ} {paths : Option (List Slot)} {held : Option (ℕ × ℕ)}
  {k M n : ℕ} {a : List Slot}

theorem Owns.refl (m : Strs) : Owns m m [] where
  fresh_le := le_rfl
  nodup := List.nodup_nil
  mem := by simp
  count id := by rw [if_neg (by omega), Nat.add_zero]
  faults := rfl

theorem Owns.free (h : Owns m₀ m ids) (ha : ArrayIs a ids M) (hk : ids.length ≤ n) (hM : n ≤ M) :
    Owns m₀ (freeSlots (some a) n m) [] where
  fresh_le := by rw [freeSlots_fresh]; exact h.fresh_le
  nodup := List.nodup_nil
  mem := by simp
  count id := by
    rw [ha.count_freed, List.take_of_length_le hk, h.count, freeSlots_fresh]
    by_cases hid : id ∈ ids
    · rw [List.count_eq_one_of_mem h.nodup hid, if_neg (by simp [hid]),
        if_pos ⟨(h.mem id hid).1, (h.mem id hid).2, by simp⟩]
      omega
    · rw [List.count_eq_zero_of_not_mem hid, Nat.zero_add]
      simp [hid]
  faults := by rw [freeSlots_faults (ha.freeable.mpr hM), h.faults]

/-- **A snapshot that is not covered is broken.** A count below it loses the string in its slot. -/
theorem Owns.broken (h : Owns m₀ m ids) (ha : ArrayIs a ids M)
    (hn : ¬ (ids.length ≤ n ∧ n ≤ M)) : Broken m₀ none (freeSlots (some a) n m) := by
  by_cases hM : n ≤ M
  · have hk : n < ids.length := by omega
    obtain ⟨h1, h2⟩ := h.mem ids[n] (List.getElem_mem hk)
    refine Or.inr ⟨ids[n], h1, by rw [freeSlots_fresh]; exact h2, ?_, fun j => by simp [idAt_none]⟩
    have hnt : ids[n] ∉ ids.take n := by
      intro hm
      obtain ⟨i, hi, he⟩ := List.getElem_of_mem hm
      rw [List.length_take] at hi
      rw [List.getElem_take] at he
      have := (List.Nodup.getElem_inj_iff h.nodup).mp he
      omega
    rw [ha.count_freed, List.count_eq_zero_of_not_mem hnt, Nat.zero_add, h.count,
      if_neg (by simp)]
    rfl
  · refine Or.inl ?_
    have hle : m.faults.length ≤ (freeSlots (some a) n m).faults.length := freeSlots_faults_le
    have hne : (freeSlots (some a) n m).faults.length ≠ m.faults.length := fun he =>
      hM (ha.freeable.mp (freeSlots_faults_iff.mp he))
    rw [h.faults] at hle hne
    omega

/-- **The end**, when the count of the record decides. -/
theorem freedOnce_iff_closes (h : Owns m₀ m ids) (hs : Snapshot paths held ids) (c : ℤ) :
    FreedOnce m₀ (freeSlots paths c.toNat m) ↔ Closes (c, held) := by
  have hdone : ∀ {m₁ : Strs}, Owns m₀ m₁ [] → FreedOnce m₀ m₁ := fun h₁ =>
    ⟨h₁.faults, fun id => by simpa using h₁.count id⟩
  rcases held with _ | ⟨k, M⟩
  · obtain ⟨rfl, rfl⟩ := hs
    show _ ↔ c ≤ 0
    constructor
    · intro hf
      have hfr := freeSlots_faults_iff.mp (show (freeSlots none c.toNat m).faults.length =
        m.faults.length by rw [hf.1, h.faults])
      by_contra hc
      obtain ⟨v, hv, -⟩ := hfr 0 (by omega)
      cases hv
    · intro hc
      rw [Int.toNat_of_nonpos hc]
      exact hdone h
  · obtain ⟨a, rfl, ha, rfl⟩ := hs
    show _ ↔ ids.length ≤ c.toNat ∧ c.toNat ≤ M
    constructor
    · intro hf
      by_contra hc
      exact (h.broken ha hc).not_freedOnce hf
    · exact fun hc => hdone (h.free ha hc.1 hc.2)

/-! ### The loop over the directory -/

theorem Owns.str (h : Owns m₀ m ids) :
    Owns m₀ { m with fresh := m.fresh + 1 } (ids ++ [m.fresh]) where
  fresh_le := Nat.le_succ_of_le h.fresh_le
  nodup := by
    refine List.nodup_append.mpr ⟨h.nodup, List.nodup_singleton _, fun x hx y hy => ?_⟩
    rw [List.mem_singleton.mp hy]
    exact (h.mem x hx).2.ne
  mem id hid := by
    rcases List.mem_append.mp hid with hid | hid
    · exact ⟨(h.mem id hid).1, Nat.lt_succ_of_lt (h.mem id hid).2⟩
    · rw [List.mem_singleton.mp hid]; exact ⟨h.fresh_le, Nat.lt_succ_self _⟩
  count id := by
    rw [h.count]
    congr 1
    refine if_congr ?_ rfl rfl
    simp only [List.mem_append, List.mem_singleton, not_or]
    constructor <;> rintro ⟨h1, h2, h3⟩
    · exact ⟨h1, Nat.lt_succ_of_lt h2, h3, h2.ne⟩
    · exact ⟨h1, lt_of_le_of_ne (Nat.le_of_lt_succ h2) h3.2, h3.1⟩
  faults := h.faults

theorem Owns.unread (h : Owns m₀ m ids) :
    Owns m₀ { m with fresh := m.fresh + 1, freed := m.fresh :: m.freed } ids where
  fresh_le := Nat.le_succ_of_le h.fresh_le
  nodup := h.nodup
  mem id hid := ⟨(h.mem id hid).1, Nat.lt_succ_of_lt (h.mem id hid).2⟩
  count id := by
    have hc := h.count id
    have hf := h.fresh_le
    by_cases he : id = m.fresh
    · subst he
      have hni : m.fresh ∉ ids := fun hm => lt_irrefl _ (h.mem _ hm).2
      rw [if_neg (by omega)] at hc
      rw [List.count_cons_self, hc, if_pos ⟨hf, Nat.lt_succ_self _, hni⟩]
    · rw [List.count_cons_of_ne (Ne.symm he), hc]
      congr 1
      refine if_congr ?_ rfl rfl
      constructor <;> rintro ⟨h1, h2, h3⟩
      · exact ⟨h1, Nat.lt_succ_of_lt h2, h3⟩
      · exact ⟨h1, lt_of_le_of_ne (Nat.le_of_lt_succ h2) he, h3⟩
  faults := h.faults

/-- **The loop over the directory** fills the array as `listing` says. -/
theorem fdLoop_listing : ∀ (es : List DirEntry) {p : Proc} {m : Strs} {ids : List ℕ} {M : ℕ}
    {a : List Slot}, Owns m₀ m ids → p.fdPaths = some a → ArrayIs a ids M →
      p.fdCoun = a.length →
      ∃ ids', Owns m₀ (fdLoop es ids.length p m).2.2 ids' ∧
        Snapshot (fdLoop es ids.length p m).2.1.fdPaths (listing p.fdCoun es ids.length M) ids' ∧
        (fdLoop es ids.length p m).2.1.fdCoun =
          match listing p.fdCoun es ids.length M with
          | none => p.fdCoun
          | some (k, _) => k
  | [], p, m, ids, M, a, h, hp, ha, hc => ⟨ids, h, ⟨a, hp, ha, rfl⟩, rfl⟩
  | e :: es, p, m, ids, M, a, h, hp, ha, hc => by
    have hset : ∀ v, (setSlot p ids.length v).fdPaths = some (a.set ids.length v) := fun v => by
      rw [setSlot, hp]; rfl
    unfold fdLoop listing
    by_cases hi : (ids.length : ℤ) ≥ p.fdCoun
    · rw [if_pos hi, if_pos hi]
      exact ⟨ids, h, ⟨a, hp, ha, rfl⟩, rfl⟩
    rw [if_neg hi, if_neg hi]
    have hlt : ids.length < a.length := by omega
    by_cases hd : deref e.dName = ch '.'
    · rw [if_pos hd, if_pos hd]
      exact fdLoop_listing es h hp ha hc
    rw [if_neg hd, if_neg hd]
    by_cases hal : e.alloc = false
    · rw [if_pos hal, if_pos hal]
      refine ⟨[], ?_, ⟨rfl, rfl⟩, rfl⟩
      rw [prfsCleanFd_eq, hset]
      exact h.free (ha.set_null hlt) le_rfl (Nat.le_succ _)
    rw [if_neg hal, if_neg hal]
    rcases e.link with _ | t
    · have := fdLoop_listing es (p := setSlot p ids.length .null) h.unread (hset _)
        (ha.set_null hlt) (by rw [List.length_set]; exact hc)
      exact this
    · have := fdLoop_listing es (p := setSlot p ids.length (.str m.fresh t)) h.str (hset _)
        (ha.set_str hlt m.fresh t) (by rw [List.length_set]; exact hc)
      rw [List.length_append, List.length_singleton] at this
      exact this

/-! ### `prfs_fd` and `prfs_look` -/

/-- A count that covers the snapshot, if the snapshot is given up. -/
theorem prfsFd_held {p : Proc} {f : Files} (h : Owns m₀ m ids) (hs : Snapshot p.fdPaths held ids)
    (hok : (p.fdCoun = 0 ∨ f.fd ≠ none) → ∀ hd, held = some hd → Covers p.fdCoun hd) :
    ∃ ids', Owns m₀ (prfsFd p m f).2.2 ids' ∧
      Snapshot (prfsFd p m f).2.1.fdPaths (heldFd p.fdCoun held f).2 ids' ∧
      (prfsFd p m f).2.1.fdCoun = (heldFd p.fdCoun held f).1 := by
  unfold prfsFd heldFd
  by_cases h0 : p.fdCoun = 0
  · rw [if_pos h0, if_pos h0]
    refine ⟨[], ?_, ⟨rfl, rfl⟩, h0⟩
    rcases held with _ | ⟨k, M⟩
    · obtain ⟨-, rfl⟩ := hs; exact h
    · obtain ⟨a, -, ha, rfl⟩ := hs
      have hc := hok (Or.inl h0) _ rfl
      rw [h0] at hc
      exact h.free (n := 0) ha hc.1 (Nat.zero_le _)
  rw [if_neg h0, if_neg h0]
  rcases hd : f.fd with _ | dirs
  · exact ⟨ids, h, hs, rfl⟩
  -- after the old snapshot was given up nothing is held
  have hc : ∃ q m', (if p.fdPaths ≠ none then prfsCleanFd p p.fdCoun m else (p, m)) = (q, m') ∧
      q.fdCoun = p.fdCoun ∧ Owns m₀ m' [] := by
    rcases held with _ | ⟨k, M⟩
    · obtain ⟨hp, rfl⟩ := hs
      exact ⟨p, m, by simp [hp], rfl, h⟩
    · obtain ⟨a, hp, ha, rfl⟩ := hs
      have hcov := hok (Or.inr (by rw [hd]; simp)) _ rfl
      refine ⟨{ p with fdPaths := none }, freeSlots p.fdPaths p.fdCoun.toNat m,
        by rw [if_pos (by rw [hp]; simp), prfsCleanFd_eq], rfl, ?_⟩
      rw [hp]; exact h.free ha hcov.1 hcov.2
  obtain ⟨q, m', hq, hqc, hm'⟩ := hc
  dsimp only
  rw [hq]
  by_cases ha : f.arrAlloc = false ∨ p.fdCoun < 0
  · rw [if_pos ha, if_pos ha]
    exact ⟨[], hm', ⟨rfl, rfl⟩, hqc⟩
  · rw [if_neg ha, if_neg ha]
    have hnn : ((List.replicate p.fdCoun.toNat Slot.unset).length : ℤ) = p.fdCoun := by
      rw [List.length_replicate]; omega
    dsimp only
    obtain ⟨q', hq'⟩ : ∃ q' : Proc,
        q' = { q with fdPaths := some (List.replicate p.fdCoun.toNat .unset) } := ⟨_, rfl⟩
    have hqc' : q'.fdCoun = p.fdCoun := by rw [hq']; exact hqc
    rw [← hq']
    obtain ⟨ids', h1, h2, h3⟩ := fdLoop_listing dirs hm' (by rw [hq'])
      (ArrayIs.replicate _) (hqc'.trans hnn.symm)
    rw [hqc'] at h2 h3
    refine ⟨ids', h1, ?_⟩
    rcases hl : listing p.fdCoun dirs 0 0 with _ | ⟨k, M'⟩ <;>
      rw [show listing p.fdCoun dirs [].length 0 = _ from hl] at h2 h3 <;> exact ⟨h2, h3⟩

theorem prfsFd_broken {p : Proc} {f : Files} {hd : ℕ × ℕ} (h : Owns m₀ m ids)
    (hs : Snapshot p.fdPaths (some hd) ids) (hr : p.fdCoun = 0 ∨ f.fd ≠ none)
    (hok : ¬ Covers p.fdCoun hd) : Broken m₀ (prfsFd p m f).2.1.fdPaths (prfsFd p m f).2.2 := by
  obtain ⟨a, hp, ha, hk⟩ := hs
  have hb : Broken m₀ none (freeSlots (some a) p.fdCoun.toNat m) :=
    h.broken ha (by rw [hk]; exact hok)
  unfold prfsFd
  by_cases h0 : p.fdCoun = 0
  · rw [if_pos h0]
    rw [h0] at hb
    exact hb
  rw [if_neg h0]
  rcases hfd : f.fd with _ | dirs
  · exact absurd hfd (hr.resolve_left h0)
  have hcl : (if p.fdPaths ≠ none then prfsCleanFd p p.fdCoun m else (p, m)) =
      ({ p with fdPaths := none }, freeSlots (some a) p.fdCoun.toNat m) := by
    rw [if_pos (by rw [hp]; simp), prfsCleanFd_eq, hp]
  dsimp only
  rw [hcl]
  by_cases hal : f.arrAlloc = false ∨ p.fdCoun < 0
  · rw [if_pos hal]; exact hb
  · rw [if_neg hal]
    exact (broken_writes m₀).fdLoop (by simp) ((broken_writes m₀).new _ hb)

/-- The record `p` has the count and the snapshot `v`. -/
structure Tracks (m₀ : Strs) (p : Proc) (m : Strs) (v : Held) (ids : List ℕ) : Prop where
  owns : Owns m₀ m ids
  snapshot : Snapshot p.fdPaths v.2 ids
  coun : p.fdCoun = v.1

theorem Tracks.prfsLook {p : Proc} {v : Held} (h : Tracks m₀ p m v ids) {f : Files}
    (hok : renews f → ∀ hd, v.2 = some hd → Covers (sizeRead f) hd) :
    ∃ ids', Tracks m₀ (prfsLook p m f).2.1 (prfsLook p m f).2.2 (heldAfter v f) ids' := by
  unfold heldAfter
  rcases prfsLook_fd p m f with ⟨hn, hc, hp, hm⟩ | ⟨hg, hs, hst, hc, hp, hm⟩ |
    ⟨hg, hs, hst, q, hc, hp, he⟩
  · rw [if_pos hn]
    exact ⟨ids, by rw [hm]; exact h.owns, by rw [hp]; exact h.snapshot, hc.trans h.coun⟩
  · rw [if_neg (by simp [hg, hs]), if_pos hst]
    exact ⟨ids, by rw [hm]; exact h.owns, by rw [hp]; exact h.snapshot, hc⟩
  · rw [if_neg (by simp [hg, hs]), if_neg (by simp [hst]), he, ← hc]
    obtain ⟨ids', h1, h2, h3⟩ := prfsFd_held (f := f) h.owns (hp.symm ▸ h.snapshot)
      fun hr => by rw [hc] at hr ⊢; exact hok ⟨hg, hst, hr⟩
    exact ⟨ids', h1, h2, h3⟩

/-- **A refresh that is not in order.** -/
theorem Tracks.broken {p : Proc} {v : Held} (h : Tracks m₀ p m v ids) {f : Files}
    (hok : ¬ (renews f → ∀ hd, v.2 = some hd → Covers (sizeRead f) hd)) :
    Broken m₀ (Model.Prfs.prfsLook p m f).2.1.fdPaths (Model.Prfs.prfsLook p m f).2.2 := by
  simp only [Classical.not_imp, not_forall] at hok
  obtain ⟨⟨hg, hst, hr⟩, hd, hv, hcov⟩ := hok
  rcases prfsLook_fd p m f with ⟨hn, -⟩ | ⟨-, -, hst', -⟩ | ⟨-, -, -, q, hc, hp, he⟩
  · rcases hn with hn | hn
    · exact absurd hn hg
    · simp [statusOk, prfsStatus, hn] at hst
  · rw [hst] at hst'; cases hst'
  · rw [he]
    exact prfsFd_broken h.owns (by rw [hp, ← hv]; exact h.snapshot) (by rw [hc]; exact hr)
      (by rw [hc]; exact hcov)

end Owns

/-! ### The life of a record -/

/-- Refreshes of the record `r`, and its end. -/
def life (r : Ref) (fs : List Files) (s : State) : State :=
  procDest (some r) (fs.foldl (fun s f => (lookRec r f s).2) s)

section Life
variable {m₀ : Strs} {r : Ref}

theorem not_freedOnce_of_broken : ∀ (fs : List Files) {s : State},
    Broken m₀ (s.heap r).fdPaths s.strs → ¬ FreedOnce m₀ (life r fs s).strs
  | [], s, h => ((broken_writes m₀).free h).not_freedOnce
  | f :: fs, s, h => by
    refine not_freedOnce_of_broken fs (s := (lookRec r f s).2) ?_
    have := (broken_writes m₀).prfsLook (f := f) h
    simpa [lookRec] using this

/-- **From a record whose snapshot is known**, the condition on the refreshes to come is exact. -/
theorem freedOnce_iff_of_tracks : ∀ (fs : List Files) {s : State} {v : Held} {ids : List ℕ},
    Tracks m₀ (s.heap r) s.strs v ids → (FreedOnce m₀ (life r fs s).strs ↔ FdOk v fs)
  | [], s, v, ids, h => by
    have hlife : (life r [] s).strs = freeSlots (s.heap r).fdPaths v.1.toNat s.strs := by
      rw [← h.coun]; rfl
    rw [hlife]
    exact freedOnce_iff_closes h.owns h.snapshot v.1
  | f :: fs, s, v, ids, h => by
    by_cases hok : renews f → ∀ hd, v.2 = some hd → Covers (sizeRead f) hd
    · obtain ⟨ids', h'⟩ := h.prfsLook hok
      have ht : Tracks m₀ ((lookRec r f s).2.heap r) (lookRec r f s).2.strs (heldAfter v f)
          ids' := by
        simpa [lookRec] using h'
      have ih := freedOnce_iff_of_tracks fs ht
      exact ih.trans ⟨fun hf => ⟨hok, hf⟩, fun hf => hf.2⟩
    · refine iff_of_false ?_ fun hf => hok hf.1
      refine not_freedOnce_of_broken fs (s := (lookRec r f s).2) ?_
      have := h.broken hok
      simpa [lookRec] using this

/-- **Exactly once.** For a record made by `proc_load` from the answers `f`, refreshed with the
answers `fs` and destroyed in the end, there is no wrong access and every string is freed once
exactly if every count covers its snapshot. -/
theorem freedOnce_iff_fdOk {pid : Pid} {f : Files} {calloc : Bool} {s s₁ : State} {r : Ref}
    (h : procLoad pid f calloc s = (some r, s₁)) (fs : List Files) :
    FreedOnce s.strs (life r fs s₁).strs ↔ FdOk (0, none) (f :: fs) := by
  have h₀ : Tracks s.strs { Proc.zero with pid := pid } s.strs (0, none) [] :=
    ⟨Owns.refl _, ⟨rfl, rfl⟩, rfl⟩
  have hnone : renews f → ∀ hd, (none : Option (ℕ × ℕ)) = some hd → Covers (sizeRead f) hd :=
    fun _ hd hv => by cases hv
  obtain ⟨ids, h₁⟩ := h₀.prfsLook hnone
  have hr : Tracks s.strs (s₁.heap r) s₁.strs (heldAfter (0, none) f) ids := by
    unfold procLoad at h
    rcases calloc with _ | _
    · cases h
    rw [if_neg (by decide)] at h
    dsimp only at h
    split_ifs at h
    · cases h
    · obtain ⟨rfl, rfl⟩ : s.next = r ∧ _ = s₁ := by
        simpa only [Prod.mk.injEq, Option.some.injEq] using h
      exact ⟨h₁.owns, by simpa using h₁.snapshot, by simpa using h₁.coun⟩
  rw [freedOnce_iff_of_tracks fs hr]
  exact ⟨fun hf => ⟨hnone, hf⟩, fun hf => hf.2⟩

/-- A process with one open descriptor, and a table of the given size. -/
def openOne (fdSize : List Char) : Files :=
  procFiles ['1'] fdSize (some [⟨ascii ['0'], true, some (ascii ['/', 'a'])⟩])

/-- Refreshes of a record with a full table are in order. -/
theorem freedOnce_iff_fdOk_full : FreedOnce init.strs
    (life 0 [openOne ['1'], openOne ['1']] (procLoad 2 (openOne ['1']) true init).2).strs := by
  have hload : procLoad 2 (openOne ['1']) true init =
      (some 0, (procLoad 2 (openOne ['1']) true init).2) := Prod.ext (by decide) rfl
  have hheld : ∀ v, heldAfter v (openOne ['1']) = (1, some (1, 1)) := fun v => rfl
  have hcovers : Covers 1 (1, 1) := show 1 ≤ 1 ∧ 1 ≤ 1 from ⟨le_rfl, le_rfl⟩
  have hrenews : ∀ held, some (1, 1) = some held → Covers (sizeRead (openOne ['1'])) held := by
    intro held hh
    cases hh
    exact hcovers
  refine (freedOnce_iff_fdOk hload _).mpr ⟨fun _ _ hh => (by cases hh), ?_⟩
  rw [hheld]
  refine ⟨fun _ => hrenews, ?_⟩
  rw [hheld]
  refine ⟨fun _ => hrenews, ?_⟩
  rw [hheld]
  exact hcovers

/-- The refresh of an ordinary record frees slots that were never written: with the size of the
table, instead of the number of paths. -/
theorem not_freedOnce_refresh : (procLoad 2 (openOne ['6', '4']) true init).1 = some 0 ∧
    ¬ FreedOnce init.strs (life 0 [openOne ['6', '4']]
      (procLoad 2 (openOne ['6', '4']) true init).2).strs :=
  ⟨by decide, fun h => absurd h.1 (by decide)⟩

end Life

end Serie.Fd.Ownership
