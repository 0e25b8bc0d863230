import Serie.Lib.Decimal
import Serie.Model.OldSerie

/-! # The growth of the pid array

From the 1025th pid on, `lookup` doubles the capacity at every pid, whether the array is full or
not. There is always room (`lt_capOf`), but the 21st doubling does not fit an `int`. So with an
array to begin with the snapshot is taken exactly when there are at most 1044 pids
(`taken_iff`). -/

namespace Serie.Proto.Lookup

open Serie.Lib.CText Serie.Lib.Decimal Serie.Model.OldSerie

/-- A listing of `/proc`: the pids in their order, among other names. -/
inductive Listing : List (List Byte) → List ℕ → Prop where
  | nil : Listing [] []
  | pid {names : List (List Byte)} {pids : List ℕ} {n : ℕ} (hn : n < 2 ^ 31)
    (h : Listing names pids) : Listing (decimal n :: names) (n :: pids)
  | other {names : List (List Byte)} {pids : List ℕ} {name : List Byte}
    (hn : isDigit (deref name) = false) (h : Listing names pids) : Listing (name :: names) pids

/-- The block begins with the pids. -/
def Holds (b : Block) (pids : List ℕ) : Prop :=
  ∀ i (hi : i < pids.length), b.val i = some (pids[i] : ℤ)

/-- **The snapshot is taken**: the run ends without a fault, and the array holds exactly the pids;
without any there may be no array. -/
def Taken (first : Bool) (regrow : ℕ → Bool) (names : List (List Byte)) (pids : List ℕ)
    (out : PidList) : Prop :=
  ∃ o, lookup first regrow (some names) out = .ok (0, ⟨o, pids.length⟩) ∧
    match o with
    | none => pids = []
    | some b => Holds b pids

/-- The capacity after `k` pids. -/
def capOf (k : ℕ) : ℕ := 1024 * 2 ^ (k - 1024)

section Cap
variable {k : ℕ}

theorem capOf_of_le (h : k ≤ 1024) : capOf k = 1024 := by
  rw [capOf, Nat.sub_eq_zero_of_le h, pow_zero, Nat.mul_one]

theorem capOf_succ (h : 1024 ≤ k) : capOf (k + 1) = capOf k * 2 := by
  rw [capOf, capOf, Nat.succ_sub h, pow_succ, Nat.mul_assoc]

/-- **There is room for the next pid.** -/
theorem lt_capOf (k : ℕ) : k < capOf (k + 1) := by
  rcases Nat.lt_or_ge k 1024 with h | h
  · rw [capOf_of_le h]
    exact h
  · have := Nat.lt_two_pow_self (n := k + 1 - 1024)
    rw [capOf]
    omega

/-- **Twenty doublings** fit an `int`. -/
theorem capOf_lt_iff : capOf k < 2 ^ 31 ↔ k ≤ 1044 := by
  have h31 : (2 : ℕ) ^ 31 = 1024 * 2 ^ 21 := by decide
  rw [capOf, h31, Nat.mul_lt_mul_left (by decide), Nat.pow_lt_pow_iff_right (by decide)]
  omega

end Cap

/-! ### The loop -/

/-- The variables with the pids `pids` stored, in an array for `k` pids. -/
structure Grown (s : Vars) (pids : List ℕ) (k : ℕ) : Prop where
  count : s.count = pids.length
  cap : s.cap = capOf k
  block : ∃ b, s.pids = some b ∧ b.room = capOf k ∧ Holds b pids

section Loop
variable {regrow : ℕ → Bool} {s : Vars} {b : Block} {names : List (List Byte)} {pids l : List ℕ}
  {n : ℕ} {out : PidList}

theorem atoi_decimal (h : n < 2 ^ 31) : atoi (decimal n) = n := by
  have hr : strtol ([] ++ (decimal n ++ [])) = ((n : ℤ), []) :=
    strtol_decimal (by simp) (by omega) rfl
  rw [List.nil_append, List.append_nil] at hr
  rw [atoi, hr, toInt32_of_lt h]

theorem isDigit_deref_decimal (n : ℕ) : isDigit (deref (decimal n)) = true := by
  obtain ⟨b, ds, hds⟩ := List.exists_cons_of_ne_nil (decimal_ne_nil n)
  have hb : b ∈ decimal n := by
    rw [hds]
    exact List.mem_cons_self
  rw [hds]
  exact isDigit_of_mem hb

theorem Holds.store (h : Holds b l) : Holds
    ⟨b.room, fun j => if j = l.length then some (n : ℤ) else b.val j⟩ (l ++ [n]) := by
  intro i hi
  rw [List.length_append, List.length_singleton] at hi
  show (if i = l.length then some (n : ℤ) else b.val i) = _
  rcases Nat.lt_or_ge i l.length with hl | hl
  · rw [if_neg (Nat.ne_of_lt hl), List.getElem_append_left hl]
    exact h i hl
  · obtain rfl : i = l.length := by omega
    simp

/-- **The array has room** for one more pid unless the capacity overflows. -/
theorem grow_eq (ha : ∀ m, regrow m = true) (h : Grown s l l.length) :
    if l.length < 1044 then ∃ s', grow regrow s = .ok s' ∧ Grown s' l (l.length + 1)
    else grow regrow s = .error .overflow := by
  obtain ⟨b, hb, hroom, hv⟩ := h.block
  unfold grow
  rw [h.count]
  rcases Nat.lt_or_ge l.length 1024 with hlt | hge
  · have hc : capOf (l.length + 1) = capOf l.length := by
      rw [capOf_of_le hlt, capOf_of_le hlt.le]
    rw [if_pos (by omega), if_neg (by omega)]
    exact ⟨s, rfl, h.count, by rw [hc]; exact h.cap, by rw [hc]; exact h.block⟩
  · have hcap : s.cap * 2 = (capOf (l.length + 1) : ℕ) := by
      rw [h.cap, capOf_succ hge]
      push_cast
      rfl
    have hfits : s.cap * 2 < 2 ^ 31 ↔ l.length < 1044 := by
      have := capOf_lt_iff (k := l.length + 1)
      omega
    rw [if_pos hge]
    split_ifs with hk hf hf
    · set b' : Block := ⟨capOf (l.length + 1), fun i =>
        if i < capOf (l.length + 1) then b.val i else none⟩ with hb'
      have hv' : Holds b' l := by
        intro i hi
        have hlt : i < capOf (l.length + 1) := hi.trans (lt_capOf l.length)
        simp only [hb', hlt, if_true]
        exact hv i hi
      refine ⟨_, rfl, rfl, hcap, b', ?_, rfl, hv'⟩
      simp only [hb, hb', realloc, ha, if_true, hcap, Int.toNat_natCast,
        Nat.mul_div_cancel_left _ (show 0 < 4 by decide)]
    · exact absurd (hfits.mpr hk) hf
    · exact absurd (hfits.mp hf) hk
    · rfl

/-- **A pid is stored** unless the capacity overflows. -/
theorem lookupTurn_pid (ha : ∀ m, regrow m = true) (h : Grown s l l.length) (hn : n < 2 ^ 31) :
    if l.length < 1044 then
      ∃ s', lookupTurn regrow s (decimal n) = .ok s' ∧ Grown s' (l ++ [n]) (l ++ [n]).length
    else lookupTurn regrow s (decimal n) = .error .overflow := by
  have hgrow := grow_eq ha h
  rw [lookupTurn, if_pos (isDigit_deref_decimal n), atoi_decimal hn]
  split_ifs at hgrow ⊢ with hk
  · obtain ⟨s', hs, hs'⟩ := hgrow
    obtain ⟨b, hb, hroom, hv⟩ := hs'.block
    have hlt : s'.count < b.room := by
      rw [hs'.count, hroom]
      exact lt_capOf l.length
    set b' : Block := ⟨b.room, fun j => if j = l.length then some (n : ℤ) else b.val j⟩ with hb'
    have hstore : store s'.pids s'.count n = .ok (some b') := by
      rw [hb, store, if_pos hlt, hs'.count, hb']
    rw [List.length_append, List.length_singleton]
    refine ⟨⟨s'.count + 1, some b', s'.cap⟩, ?_, ?_, hs'.cap, b', rfl, hroom, hv.store⟩
    · rw [hs]
      show (store s'.pids s'.count n).bind _ = _
      rw [hstore]
      rfl
    · rw [List.length_append, List.length_singleton]
      exact congrArg (· + 1) hs'.count
  · rw [hgrow]
    rfl

/-- **All pids are stored** unless there are too many. -/
theorem lookupLoop_eq (ha : ∀ m, regrow m = true) (h : Listing names pids)
    (hs : Grown s l l.length) (hl : l.length ≤ 1044) :
    if (l ++ pids).length ≤ 1044 then
      ∃ s', lookupLoop regrow s names = .ok s' ∧ Grown s' (l ++ pids) (l ++ pids).length
    else lookupLoop regrow s names = .error .overflow := by
  induction h generalizing s l with
  | nil =>
    rw [List.append_nil, if_pos hl]
    exact ⟨s, rfl, hs⟩
  | @pid names pids n hn _ ih =>
    have hturn := lookupTurn_pid ha hs hn
    rw [lookupLoop]
    rcases Nat.lt_or_ge l.length 1044 with hk | hk
    · rw [if_pos hk] at hturn
      obtain ⟨s', ht, hs'⟩ := hturn
      have hrec := ih hs' (by rw [List.length_append, List.length_singleton]; exact hk)
      rw [List.append_assoc, List.singleton_append] at hrec
      rw [ht]
      exact hrec
    · rw [if_neg (Nat.not_lt.mpr hk)] at hturn
      rw [hturn, if_neg (by rw [List.length_append, List.length_cons]; omega)]
      rfl
  | other hn _ ih =>
    have hturn : lookupTurn regrow s _ = .ok s := if_neg (by rw [hn]; decide)
    rw [lookupLoop, hturn]
    exact ih hs hl

theorem grown_start : Grown ⟨0, malloc true (4 * 1024), 1024⟩ [] ([] : List ℕ).length :=
  ⟨rfl, rfl, ⟨1024, fun _ => none⟩, rfl, rfl, fun i hi => by cases hi⟩

/-- Up to 1044 pids. -/
theorem taken_of_le (ha : ∀ m, regrow m = true) (h : Listing names pids)
    (hk : pids.length ≤ 1044) : Taken true regrow names pids out := by
  have hloop := lookupLoop_eq ha h grown_start (Nat.zero_le _)
  rw [List.nil_append, if_pos hk] at hloop
  obtain ⟨s', hs', hg⟩ := hloop
  obtain ⟨b, hb, -, hv⟩ := hg.block
  refine ⟨some b, ?_, hv⟩
  rw [lookup, hs']
  show Except.ok (0, (⟨s'.pids, (s'.count : ℕ)⟩ : PidList)) = _
  rw [hb, hg.count]

/-- More than 1044 pids. -/
theorem lookup_of_gt (ha : ∀ m, regrow m = true) (h : Listing names pids)
    (hk : 1044 < pids.length) : lookup true regrow (some names) out = .error .overflow := by
  have hloop := lookupLoop_eq ha h grown_start (Nat.zero_le _)
  rw [List.nil_append, if_neg (Nat.not_le.mpr hk)] at hloop
  rw [lookup, hloop]
  rfl

theorem not_taken_of_gt (ha : ∀ m, regrow m = true) (h : Listing names pids)
    (hk : 1044 < pids.length) : ¬ Taken true regrow names pids out := by
  rintro ⟨o, hr, -⟩
  rw [lookup_of_gt ha h hk] at hr
  cases hr

/-- Without an array the first pid is stored through a null pointer. -/
theorem lookupLoop_null (h : Listing names pids) (hs : s.pids = none) (hc : s.count = 0) :
    lookupLoop regrow s names = if pids = [] then .ok s else .error .outside := by
  induction h with
  | nil => rfl
  | @pid names pids n hn _ _ =>
    have hgrow : grow regrow s = .ok s := if_neg (by omega)
    rw [lookupLoop, lookupTurn, if_pos (isDigit_deref_decimal n), hgrow, if_neg (by simp)]
    show ((store s.pids s.count (atoi (decimal n))).bind _).bind _ = _
    rw [hs]
    rfl
  | other hn _ ih =>
    have hturn : lookupTurn regrow s _ = .ok s := if_neg (by rw [hn]; decide)
    rw [lookupLoop, hturn]
    exact ih

theorem taken_false_iff (h : Listing names pids) :
    Taken false regrow names pids out ↔ pids = [] := by
  have hloop : lookupLoop regrow ⟨0, none, 1024⟩ names = _ := lookupLoop_null h rfl rfl
  unfold Taken
  rw [lookup, show malloc false (4 * 1024) = none from rfl, hloop]
  split_ifs with hp
  · refine iff_of_true ⟨none, ?_, hp⟩ hp
    rw [hp]
    rfl
  · refine iff_of_false ?_ hp
    rintro ⟨o, hr, -⟩
    cases hr

/-- **When the snapshot is taken.** -/
theorem taken_iff {first : Bool} (ha : ∀ m, regrow m = true) (h : Listing names pids) :
    Taken first regrow names pids out ↔ pids.length ≤ 1044 ∧ (first = true ∨ pids = []) := by
  cases first with
  | false =>
    rw [taken_false_iff h]
    constructor
    · rintro rfl
      exact ⟨Nat.zero_le _, Or.inr rfl⟩
    · exact fun hp => hp.2.resolve_left (by decide)
  | true =>
    constructor
    · intro ht
      refine ⟨?_, Or.inl rfl⟩
      by_contra hk
      exact not_taken_of_gt ha h (Nat.not_le.mp hk) ht
    · exact fun hk => taken_of_le ha h hk.1

/-- Two pids and another name. -/
theorem taken_iff_two :
    Taken true (fun _ => true) [decimal 1, ascii ['s', 'y', 's'], decimal 7] [1, 7] ⟨none, 0⟩ ↔
      2 ≤ 1044 ∧ (true = true ∨ [1, 7] = []) :=
  taken_iff (fun _ => rfl) (.pid (by decide) (.other (by decide) (.pid (by decide) .nil)))

theorem listing_map : ∀ {l : List ℕ}, (∀ n ∈ l, n < 2 ^ 31) → Listing (l.map decimal) l
  | [], _ => .nil
  | n :: _, h => .pid (h n List.mem_cons_self)
    (listing_map fun m hm => h m (List.mem_cons_of_mem n hm))

end Loop

/-- The pids from 1 to 1045: the capacity overflows. -/
theorem not_taken_range :
    Listing ((List.range' 1 1045).map decimal) (List.range' 1 1045) ∧
    (List.range' 1 1045).length ≤ 2 ^ 22 ∧
    lookup true (fun _ => true) (some ((List.range' 1 1045).map decimal)) ⟨none, 0⟩ =
      .error .overflow ∧
    ¬ Taken true (fun _ => true) ((List.range' 1 1045).map decimal) (List.range' 1 1045)
      ⟨none, 0⟩ := by
  have hl : Listing ((List.range' 1 1045).map decimal) (List.range' 1 1045) :=
    listing_map fun n hn => (List.mem_range'_1.mp hn).2.trans (by decide)
  have hlen : (List.range' 1 1045).length = 1045 := List.length_range'
  have hgt : 1044 < (List.range' 1 1045).length := by
    rw [hlen]
    decide
  exact ⟨hl, by rw [hlen]; decide, lookup_of_gt (fun _ => rfl) hl hgt,
    not_taken_of_gt (fun _ => rfl) hl hgt⟩

end Serie.Proto.Lookup
