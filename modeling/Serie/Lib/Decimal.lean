import Serie.Lib.CText
import Mathlib.Tactic.Common

/-! # Decimal numbers in texts

The decimal digits of a number, as bytes, and `strtol` on them: digits that end at a byte that is no
digit are read back as the number, behind any white space (`strtol_decimal`). -/

namespace Serie.Lib.Decimal

open Serie.Lib.CText

/-- The decimal digits of a number. -/
def decimal (n : ℕ) : List Byte := (Nat.toDigits 10 n).map ch

/-- `%d`. -/
def signed (z : ℤ) : List Byte := if z < 0 then ch '-' :: decimal z.natAbs else decimal z.natAbs

section Digits
variable {n : ℕ} {b : Byte}

theorem toNat_ch_digit {c : Char} (hc : c.isDigit) :
    (ch c).toNat = c.toNat ∧ 48 ≤ c.toNat ∧ c.toNat ≤ 57 := by
  have hrange : 48 ≤ c.toNat ∧ c.toNat ≤ 57 := by
    simpa [Char.isDigit, UInt32.le_iff_toNat_le] using hc
  refine ⟨?_, hrange⟩
  show c.toNat.toUInt8.toNat = c.toNat
  rw [Nat.toUInt8, UInt8.toNat_ofNat']
  omega

theorem isDigit_iff : isDigit b = true ↔ 48 ≤ b.toNat ∧ b.toNat ≤ 57 := by
  simp [isDigit, UInt8.le_iff_toNat_le]

theorem isSpace_of_isDigit (h : isDigit b = true) : isSpace b = false := by
  have := isDigit_iff.mp h
  simp only [isSpace, UInt8.le_iff_toNat_le, ← UInt8.toNat_inj]
  simp
  omega

theorem isDigit_of_mem (h : b ∈ decimal n) : isDigit b = true := by
  obtain ⟨c, hc, rfl⟩ := List.mem_map.mp h
  obtain ⟨he, hr⟩ := toNat_ch_digit (Nat.isDigit_of_mem_toDigits (by decide) (by decide) hc)
  rw [isDigit_iff, he]
  exact hr

theorem notMem_decimal (h : isDigit b = false) : b ∉ decimal n := fun hm => by
  rw [isDigit_of_mem hm] at h
  cases h

theorem notMem_signed {z : ℤ} (h : isDigit b = false) (hb : b ≠ ch '-') : b ∉ signed z := by
  unfold signed
  split_ifs
  · rw [List.mem_cons, not_or]
    exact ⟨hb, notMem_decimal h⟩
  · exact notMem_decimal h

theorem decimal_ne_nil (n : ℕ) : decimal n ≠ [] := by
  simp [decimal]

theorem length_decimal_le {k : ℕ} (hk : 0 < k) (h : n < 10 ^ k) : (decimal n).length ≤ k := by
  rw [decimal, List.length_map]
  exact (Nat.length_toDigits_le_iff (by decide) hk).mpr h

theorem length_signed_le {z : ℤ} {k : ℕ} (hk : 0 < k) (h : z.natAbs < 10 ^ k) :
    (signed z).length ≤ k + 1 := by
  have hd := length_decimal_le hk h
  unfold signed
  split_ifs
  · rw [List.length_cons]
    omega
  · omega

/-- **The digits have the value of the number.** -/
theorem digitsVal_decimal (n : ℕ) : digitsVal (decimal n) = n := by
  have hfold : ∀ (cs : List Char) (v : ℕ), (∀ c ∈ cs, c.isDigit) →
      (cs.map ch).foldl (fun v b => 10 * v + (b.toNat - 48)) v = Nat.ofDigitChars 10 cs v := by
    intro cs
    induction cs with
    | nil => intro v _; rfl
    | cons c cs ih =>
      intro v h
      have hc := (toNat_ch_digit (h c List.mem_cons_self)).1
      rw [List.map_cons, List.foldl_cons, hc, Nat.ofDigitChars_cons,
        ih _ fun d hd => h d (List.mem_cons_of_mem c hd)]
      rfl
  rw [digitsVal, decimal, hfold _ _ fun c hc => Nat.isDigit_of_mem_toDigits (by decide) (by decide)
    hc, Nat.ofDigitChars_ten_toDigits]

end Digits

/-! ### Reading -/

section Read
variable {n : ℕ} {rest sp : List Byte}

theorem takeWhile_decimal (hr : isDigit (deref rest) = false) :
    (decimal n ++ rest).takeWhile isDigit = decimal n ∧
      (decimal n ++ rest).dropWhile isDigit = rest := by
  have hd : ∀ b ∈ decimal n, isDigit b = true := fun b hb => isDigit_of_mem hb
  rw [List.takeWhile_append_of_pos hd, List.dropWhile_append_of_pos hd]
  rcases rest with _ | ⟨b, rest⟩
  · simp
  · have hb : isDigit b = false := hr
    simp [hb]

/-- **`strtol` reads a number back**, behind white space. -/
theorem strtol_decimal (hs : ∀ b ∈ sp, isSpace b = true) (hn : n < 2 ^ 63)
    (hr : isDigit (deref rest) = false) : strtol (sp ++ (decimal n ++ rest)) = ((n : ℤ), rest) := by
  obtain ⟨b, ds, hds⟩ := List.exists_cons_of_ne_nil (decimal_ne_nil n)
  have hb : isDigit b = true := isDigit_of_mem (n := n) (by rw [hds]; exact List.mem_cons_self)
  have hhead : deref (decimal n ++ rest) = b := by rw [hds]; rfl
  have hm : b ≠ ch '-' := by
    rintro rfl
    exact absurd hb (by decide)
  have hp : b ≠ ch '+' := by
    rintro rfl
    exact absurd hb (by decide)
  have hdrop : (sp ++ (decimal n ++ rest)).dropWhile isSpace = decimal n ++ rest := by
    rw [List.dropWhile_append_of_pos hs, hds, List.cons_append,
      List.dropWhile_cons_of_neg (by simp [isSpace_of_isDigit hb])]
  have hsign : skipSign (decimal n ++ rest) = decimal n ++ rest := by
    rw [skipSign, hhead, if_neg (by simp [hm, hp])]
  obtain ⟨htake, hrest⟩ := takeWhile_decimal (n := n) hr
  have hclamp : clampLong (n : ℤ) = n := by
    unfold clampLong
    omega
  simp only [strtol, hdrop, hsign, htake, hrest, if_neg (decimal_ne_nil n), hhead, if_neg hm,
    digitsVal_decimal, hclamp]

theorem toInt32_of_lt (h : n < 2 ^ 31) : toInt32 (n : ℤ) = n := by
  rw [toInt32, Int.bmod_eq_of_le] <;> omega

theorem toUInt32_of_lt (h : n < 2 ^ 32) : toUInt32 (n : ℤ) = n := by
  unfold toUInt32
  omega

end Read

end Serie.Lib.Decimal
