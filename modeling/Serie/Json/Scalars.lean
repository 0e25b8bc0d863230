import Serie.Json.Item
import Serie.Json.Literal
import Mathlib.Data.List.TakeWhile

/-! # Strings and numbers come back

The parser reads a string back from its text, every escape of the printer being one that it undoes
(`parseString_text`), and a number, if no further character of a number follows it
(`parseNumber_text`). -/

namespace Serie.Json.Scalars

open Serie.Lib.CText Serie.Lib.Decimal Serie.Model.CJson Serie.Model.JsonParse Serie.Json.Item
open Serie.Json.Reads Serie.Json.Literal

/-! ### Strings -/

/-- **The text of a byte**: itself, an escape of two characters, or a literal of four digits. -/
theorem printByte_cases (b : Byte) :
    (printByte b = [b] ∧ b ≠ 34 ∧ b ≠ 92) ∨ (∃ c, printByte b = [92, c] ∧ unescape c = some b) ∨
    (b.toNat < 32 ∧ printByte b =
      [92, ch 'u', ch '0', ch '0', hexDigit (b.toNat / 16), hexDigit (b.toNat % 16)]) := by
  unfold printByte
  split_ifs with h1 h2 h3 h4 h5 h6 h7 h8
  · exact Or.inl ⟨rfl, h1.2.1, h1.2.2⟩
  · exact Or.inr (Or.inl ⟨92, rfl, by rw [h2]; decide⟩)
  · exact Or.inr (Or.inl ⟨34, rfl, by rw [h3]; decide⟩)
  · exact Or.inr (Or.inl ⟨ch 'b', rfl, by rw [h4]; decide⟩)
  · exact Or.inr (Or.inl ⟨ch 'f', rfl, by rw [h5]; decide⟩)
  · exact Or.inr (Or.inl ⟨ch 'n', rfl, by rw [h6]; decide⟩)
  · exact Or.inr (Or.inl ⟨ch 'r', rfl, by rw [h7]; decide⟩)
  · exact Or.inr (Or.inl ⟨ch 't', rfl, by rw [h8]; decide⟩)
  · refine Or.inr (Or.inr ⟨?_, rfl⟩)
    have hle : ¬ 31 < b := fun h => h1 ⟨h, h3, h2⟩
    rw [UInt8.lt_iff_toNat_lt] at hle
    exact Nat.lt_succ_of_le (Nat.not_lt.mp hle)

theorem hexVal_hexDigit {n : ℕ} (h : n < 16) : hexVal (hexDigit n) = some n := by
  have hall : ∀ n < 16, hexVal (hexDigit n) = some n := by decide
  exact hall n h

/-- **The text of a byte is a piece** that stands for the byte. -/
theorem exists_piece_printByte (b : Byte) : ∃ k n, Piece (printByte b) [b] k n := by
  rcases printByte_cases b with ⟨hp, h34, h92⟩ | ⟨c, hp, hc⟩ | ⟨hlt, hp⟩ <;> rw [hp]
  · exact ⟨0, 1, piece_plain h34 h92⟩
  · exact ⟨1, 1, piece_escape hc⟩
  · have hhex : Hex4 [ch '0', ch '0', hexDigit (b.toNat / 16), hexDigit (b.toNat % 16)] b.toNat :=
      ⟨_, _, _, _, 0, 0, _, _, rfl, by decide, by decide, hexVal_hexDigit (by omega),
        hexVal_hexDigit (by omega), by omega⟩
    have hbytes : utf8Bytes b.toNat = [b] := by
      rw [utf8Bytes, if_pos (by omega)]
      simp
    have hpiece := piece_unit hhex (by omega)
    rw [hbytes] at hpiece
    exact ⟨1, 1, hpiece⟩

theorem exists_piece_body : ∀ s : List Byte, ∃ k n, Piece (s.flatMap printByte) s k n
  | [] => ⟨0, 0, piece_nil⟩
  | b :: s => by
    obtain ⟨k, n, hb⟩ := exists_piece_printByte b
    obtain ⟨k', n', hs⟩ := exists_piece_body s
    exact ⟨k + k', n + n', hb.append hs⟩

theorem notMem_cstr (s : List Byte) : 0 ∉ cstr s := fun h => by
  simpa using List.mem_takeWhile_imp h

theorem parseString_text {content s r : List Byte} {p a : ℕ} {alloc : ℕ → Bool}
    (ha : ∀ i, alloc i = true) (h0 : 0 ∉ s) (h : content.drop p = printString s ++ r) :
    parseString content alloc ⟨p, a⟩ =
      .ok (some s, ⟨p + (printString s).length, a + 1⟩) := by
  have hq : content.drop p = 34 :: (s.flatMap printByte ++ 34 :: r) := by
    rw [h, printString, List.cons_append, List.append_assoc]
    rfl
  have hlen : p + (printString s).length = p + (s.flatMap printByte).length + 2 := by
    rw [printString, List.length_cons, List.length_append, List.length_singleton]
    omega
  obtain ⟨k, n, hpiece⟩ := exists_piece_body s
  rw [parseString_piece hpiece (ha a) hq, cstr_of_notMem h0, hlen]

/-! ### Numbers -/

section Numbers
variable {content r : List Byte} {p a : ℕ}

theorem isNumberChar_of_isDigit {b : Byte} (h : isDigit b = true) : isNumberChar b = true := by
  simp [isNumberChar, h]

theorem isNumberChar_of_mem {n : ℤ} {b : Byte} (h : b ∈ printNumber n) : isNumberChar b = true := by
  rw [printNumber_eq, signed] at h
  split_ifs at h
  · rcases List.mem_cons.mp h with rfl | h
    · decide
    · exact isNumberChar_of_isDigit (isDigit_of_mem h)
  · exact isNumberChar_of_isDigit (isDigit_of_mem h)

theorem strtod_printNumber (n : ℤ) : strtod (printNumber n) = some ((n : ℚ), []) := by
  have hall : ∀ k : ℕ, (decimal k).takeWhile isDigit = decimal k ∧
      (decimal k).dropWhile isDigit = [] := fun k => by
    have hnil : isDigit (deref []) = false := by decide
    have hk := takeWhile_decimal (n := k) hnil
    rwa [List.append_nil] at hk
  have hexp : strtodExponent [] = (0, []) := rfl
  have hpoint : deref ([] : List Byte) ≠ ch '.' := by decide
  rw [printNumber_eq, signed]
  split_ifs with hn
  · have hsign : skipSign (ch '-' :: decimal n.natAbs) = decimal n.natAbs := if_pos (Or.inl rfl)
    have hminus : deref (ch '-' :: decimal n.natAbs) = ch '-' := rfl
    have hcast : (n : ℚ) = -((n.natAbs : ℕ) : ℚ) := by
      have : n = -(n.natAbs : ℤ) := by omega
      rw [← Rat.intCast_natCast, ← Rat.intCast_neg, ← this]
    simp only [strtod, hsign, (hall _).1, (hall _).2, if_neg hpoint, hexp, List.append_nil,
      digitsVal_decimal, if_pos hminus, List.length_nil, hcast]
    simp [decimal_ne_nil]
  · obtain ⟨b, t, hbt⟩ := List.exists_cons_of_ne_nil (decimal_ne_nil n.natAbs)
    have hb : isDigit b = true :=
      isDigit_of_mem (n := n.natAbs) (by rw [hbt]; exact List.mem_cons_self)
    have hderef : deref (decimal n.natAbs) = b := by
      rw [hbt]
      rfl
    have hplus : ¬(deref (decimal n.natAbs) = ch '-' ∨ deref (decimal n.natAbs) = ch '+') := by
      rw [hderef]
      rintro (rfl | rfl) <;> exact absurd hb (by decide)
    have hsign : skipSign (decimal n.natAbs) = decimal n.natAbs := if_neg hplus
    have hminus : deref (decimal n.natAbs) ≠ ch '-' := fun h => hplus (Or.inl h)
    have hcast : (n : ℚ) = ((n.natAbs : ℕ) : ℚ) := by
      have : n = (n.natAbs : ℤ) := by omega
      rw [← Rat.intCast_natCast, ← this]
    simp only [strtod, hsign, (hall _).1, (hall _).2, if_neg hpoint, hexp, List.append_nil,
      digitsVal_decimal, if_neg hminus, List.length_nil, hcast]
    simp [decimal_ne_nil]

/-- **A number is read back**, if no further character of a number follows. -/
theorem parseNumber_text {ν : Type} {alloc : ℕ → Bool} {round : ℚ → ν} (ha : ∀ i, alloc i = true)
    {n : ℤ} (h : content.drop p = printNumber n ++ r) (hr : isNumberChar (deref r) = false) :
    parseNumber content alloc round ⟨p, a⟩ =
      .ok (some (.number (round n)), ⟨p + (printNumber n).length, a + 1⟩) := by
  have hrun : (content.drop p).takeWhile isNumberChar = printNumber n := by
    rw [h, List.takeWhile_append_of_pos fun b hb => isNumberChar_of_mem hb]
    rcases r with _ | ⟨b, r⟩
    · simp
    · have hb : isNumberChar b = false := hr
      simp [hb]
  unfold parseNumber
  dsimp only
  rw [hrun, ha, if_neg (by decide), strtod_printNumber]
  rfl

end Numbers

end Serie.Json.Scalars
