import Serie.Json.Literal

/-! # Characters of a string literal

A JSON string literal may spell a character in several ways: as itself in UTF-8, as an escape of two
characters, as a literal of four hexadecimal digits in either case, or as a surrogate pair
(`Spells`). `parse_string` decodes all of them to UTF-8 (`parseString_spells`), and no literal,
right or wrong, to anything but the UTF-8 of a character: half a surrogate pair is refused
(`utf16_char`). -/

namespace Serie.Json.Unicode

open Serie.Lib.CText Serie.Model.JsonParse Serie.Json.Reads Serie.Json.Literal

/-! ### The bytes of a character -/

section Bytes
variable {c : Char} {b : Byte}

/-- **The bytes that the parser writes are UTF-8.** -/
theorem utf8Bytes_toNat (c : Char) : utf8Bytes c.toNat = String.utf8EncodeChar c := by
  have hv : c.val.toNat = c.toNat := rfl
  have hlt : c.toNat < 0x110000 := by
    rcases c.valid with h | ⟨-, h⟩
    · exact Nat.lt_trans h (by decide)
    · exact h
  unfold utf8Bytes String.utf8EncodeChar
  dsimp only
  rw [hv]
  by_cases h1 : c.toNat < 0x80
  · have h1' : c.toNat ≤ 0x7f := by omega
    rw [if_pos h1, if_pos h1']
  have h1' : ¬c.toNat ≤ 0x7f := by omega
  rw [if_neg h1, if_neg h1']
  by_cases h2 : c.toNat < 0x800
  · have h2' : c.toNat ≤ 0x7ff := by omega
    rw [if_pos h2, if_pos h2', Nat.mod_eq_of_lt (by omega : c.toNat / 64 < 0x20),
      Nat.add_comm 0xC0, Nat.add_comm 0x80]
  have h2' : ¬c.toNat ≤ 0x7ff := by omega
  rw [if_neg h2, if_neg h2']
  by_cases h3 : c.toNat < 0x10000
  · have h3' : c.toNat ≤ 0xffff := by omega
    rw [if_pos h3, if_pos h3', Nat.mod_eq_of_lt (by omega : c.toNat / 4096 < 0x10),
      Nat.add_comm 0xE0, Nat.add_comm 0x80, Nat.add_comm 0x80]
  · have h3' : ¬c.toNat ≤ 0xffff := by omega
    rw [if_neg h3, if_neg h3', Nat.mod_eq_of_lt (by omega : c.toNat / 262144 < 0x08),
      Nat.add_comm 0xF0, Nat.add_comm 0x80, Nat.add_comm 0x80, Nat.add_comm 0x80]

/-- A byte of a character is the character, if that is one of ASCII, or none of ASCII. -/
theorem mem_utf8EncodeChar (h : b ∈ String.utf8EncodeChar c) :
    b.toNat = c.toNat ∨ 0x80 ≤ b.toNat := by
  have hmod : ∀ n : ℕ, n < 256 → (UInt8.ofNat n).toNat = n := fun n hn => by
    rw [UInt8.toNat_ofNat']
    omega
  have hv : c.val.toNat = c.toNat := rfl
  unfold String.utf8EncodeChar at h
  dsimp only at h
  rw [hv] at h
  split_ifs at h with h1 h2 h3
  · rw [List.mem_singleton.mp h, hmod _ (by omega)]
    exact Or.inl rfl
  all_goals
    right
    simp only [List.mem_cons, List.not_mem_nil, or_false] at h
  · rcases h with rfl | rfl <;> rw [hmod _ (by omega)] <;> omega
  · rcases h with rfl | rfl | rfl <;> rw [hmod _ (by omega)] <;> omega
  · rcases h with rfl | rfl | rfl | rfl <;> rw [hmod _ (by omega)] <;> omega

end Bytes

/-! ### Spellings -/

/-- The escapes of two characters. -/
def simpleEscapes : List (Char × Char) :=
  [('\x22', '\x22'), ('\x5c', '\x5c'), ('/', '/'), ('b', '\x08'), ('f', '\x0c'), ('n', '\x0a'),
    ('r', '\x0d'), ('t', '\x09')]

/-- The hexadecimal digits, in both cases. -/
def hexDigits : List (Byte × Byte) :=
  (ascii ['0', '1', '2', '3', '4', '5', '6', '7', '8', '9', 'a', 'b', 'c', 'd', 'e', 'f']).zip
    (ascii ['0', '1', '2', '3', '4', '5', '6', '7', '8', '9', 'A', 'B', 'C', 'D', 'E', 'F'])

/-- A digit has a value. -/
def IsHexDigit (b : Byte) (v : ℕ) : Prop := ∃ x, hexDigits[v]? = some x ∧ (b = x.1 ∨ b = x.2)

/-- Four digits have a value. -/
inductive IsHex4 : List Byte → ℕ → Prop
  | intro {d₁ d₂ d₃ d₄ : Byte} {v₁ v₂ v₃ v₄ : ℕ} : IsHexDigit d₁ v₁ → IsHexDigit d₂ v₂ →
      IsHexDigit d₃ v₃ → IsHexDigit d₄ v₄ →
      IsHex4 [d₁, d₂, d₃, d₄] (v₁ * 4096 + v₂ * 256 + v₃ * 16 + v₄)

/-- The text between the quotes spells the characters. -/
inductive Spells : List Byte → List Char → Prop
  | nil : Spells [] []
  | plain {c : Char} {w : List Byte} {cs : List Char} : c ≠ '\x22' → c ≠ '\x5c' → Spells w cs →
      Spells (String.utf8EncodeChar c ++ w) (c :: cs)
  | escape {e c : Char} {w : List Byte} {cs : List Char} : (e, c) ∈ simpleEscapes → Spells w cs →
      Spells ([92, ch e] ++ w) (c :: cs)
  | unit {ds w : List Byte} {c : Char} {cs : List Char} : IsHex4 ds c.toNat → Spells w cs →
      Spells (92 :: ch 'u' :: ds ++ w) (c :: cs)
  | pair {ds ds' w : List Byte} {high low : ℕ} {c : Char} {cs : List Char} : IsHex4 ds high →
      IsHex4 ds' low → 0xD800 ≤ high ∧ high ≤ 0xDBFF → 0xDC00 ≤ low ∧ low ≤ 0xDFFF →
      c.toNat = 0x10000 + (high - 0xD800) * 1024 + (low - 0xDC00) → Spells w cs →
      Spells (92 :: ch 'u' :: ds ++ 92 :: ch 'u' :: ds' ++ w) (c :: cs)

section Spell
variable {b : Byte} {c : Char} {v : ℕ} {w ds : List Byte} {cs : List Char}

theorem hexVal_of_isHexDigit (h : IsHexDigit b v) : hexVal b = some v := by
  have hall : ∀ v < 16, hexDigits[v]?.all
      (fun x => decide (hexVal x.1 = some v ∧ hexVal x.2 = some v)) = true := by decide
  obtain ⟨x, hx, hb⟩ := h
  have hval := hall v (List.getElem?_eq_some_iff.mp hx).1
  rw [hx, Option.all_some, decide_eq_true_eq] at hval
  rcases hb with rfl | rfl
  · exact hval.1
  · exact hval.2

theorem IsHex4.hex4 (h : IsHex4 ds v) : Hex4 ds v := by
  cases h with
  | intro h₁ h₂ h₃ h₄ =>
    exact ⟨_, _, _, _, _, _, _, _, rfl, hexVal_of_isHexDigit h₁, hexVal_of_isHexDigit h₂,
      hexVal_of_isHexDigit h₃, hexVal_of_isHexDigit h₄, by omega⟩

theorem exists_piece_plain : ∀ {w : List Byte}, (∀ b ∈ w, b ≠ 34 ∧ b ≠ 92) → ∃ k n, Piece w w k n
  | [], _ => ⟨0, 0, piece_nil⟩
  | b :: w, h => by
    obtain ⟨hb, hw⟩ := List.forall_mem_cons.mp h
    obtain ⟨k, n, hpiece⟩ := exists_piece_plain hw
    exact ⟨0 + k, 1 + n, (piece_plain hb.1 hb.2).append hpiece⟩

theorem ne_of_mem_utf8EncodeChar (hq : c ≠ '\x22') (hs : c ≠ '\x5c')
    (h : b ∈ String.utf8EncodeChar c) : b ≠ 34 ∧ b ≠ 92 := by
  have hne : c.toNat ≠ 34 ∧ c.toNat ≠ 92 :=
    ⟨fun he => hq (Char.toNat_inj.mp he), fun he => hs (Char.toNat_inj.mp he)⟩
  have hval : (34 : Byte).toNat = 34 ∧ (92 : Byte).toNat = 92 := by decide
  rcases mem_utf8EncodeChar h with he | he
  · refine ⟨?_, ?_⟩ <;> rintro rfl
    · exact hne.1 (he.symm.trans hval.1)
    · exact hne.2 (he.symm.trans hval.2)
  · refine ⟨?_, ?_⟩ <;> rintro rfl <;> exact absurd he (by decide)

theorem unescape_of_mem {e c : Char} (h : (e, c) ∈ simpleEscapes) :
    ∃ b, unescape (ch e) = some b ∧ String.utf8EncodeChar c = [b] := by
  have hall : ∀ x ∈ simpleEscapes, unescape (ch x.1) = some (ch x.2) ∧
      String.utf8EncodeChar x.2 = [ch x.2] := by decide
  exact ⟨ch c, hall _ h⟩

theorem toNat_lt_or (c : Char) : c.toNat < 0xD800 ∨ 0xDFFF < c.toNat := by
  rcases c.valid with h | ⟨h, -⟩
  · exact Or.inl h
  · exact Or.inr h

/-- **What is spelled is a piece**: the induction is on the spelling. -/
theorem Spells.exists_piece (h : Spells w cs) :
    ∃ k n, Piece w (cs.flatMap String.utf8EncodeChar) k n := by
  induction h with
  | nil => exact ⟨0, 0, piece_nil⟩
  | plain hq hs _ ih =>
    obtain ⟨k, n, hw⟩ := ih
    obtain ⟨k', n', hc⟩ := exists_piece_plain fun b hb => ne_of_mem_utf8EncodeChar hq hs hb
    exact ⟨_, _, hc.append hw⟩
  | escape he _ ih =>
    obtain ⟨k, n, hw⟩ := ih
    obtain ⟨b, hb, hc⟩ := unescape_of_mem he
    rw [List.flatMap_cons, hc]
    exact ⟨_, _, (piece_escape hb).append hw⟩
  | unit hd _ ih =>
    obtain ⟨k, n, hw⟩ := ih
    rw [List.flatMap_cons, ← utf8Bytes_toNat]
    exact ⟨_, _, (piece_unit hd.hex4 (toNat_lt_or _)).append hw⟩
  | pair hd hd' hhigh hlow hc _ ih =>
    obtain ⟨k, n, hw⟩ := ih
    rw [List.flatMap_cons, ← utf8Bytes_toNat, hc]
    exact ⟨_, _, (piece_pair hd.hex4 hd'.hex4 hhigh hlow).append hw⟩

theorem cstr_utf8 : ∀ cs : List Char, cstr (cs.flatMap String.utf8EncodeChar) =
    (cs.takeWhile fun c => c.toNat ≠ 0).flatMap String.utf8EncodeChar
  | [] => rfl
  | c :: cs => by
    by_cases hc : c.toNat = 0
    · have hnull : c = '\x00' := Char.toNat_inj.mp hc
      rw [List.takeWhile_cons_of_neg (by simp [hc]), hnull]
      rfl
    · have h0 : 0 ∉ String.utf8EncodeChar c := fun h => by
        rcases mem_utf8EncodeChar h with he | he
        · exact hc he.symm
        · exact absurd he (by decide)
      rw [List.takeWhile_cons_of_pos (by simp [hc]), List.flatMap_cons, List.flatMap_cons,
        cstr_append h0, cstr_utf8 cs]

/-- **Every spelling is decoded to UTF-8**, up to the first null character. -/
theorem parseString_spells {content r : List Byte} {alloc : ℕ → Bool} {p a : ℕ} (h : Spells w cs)
    (ha : alloc a = true) (hd : content.drop p = 34 :: (w ++ 34 :: r)) :
    parseString content alloc ⟨p, a⟩ =
      .ok (some ((cs.takeWhile fun c => c.toNat ≠ 0).flatMap String.utf8EncodeChar),
        ⟨p + w.length + 2, a + 1⟩) := by
  obtain ⟨k, n, hpiece⟩ := h.exists_piece
  rw [parseString_piece hpiece ha hd, cstr_utf8]

/-- A smiley, spelled by a surrogate pair in both cases. -/
theorem parseString_spells_pair : parseString
    (34 :: (92 :: ch 'u' :: ascii ['d', '8', '3', 'D'] ++
      92 :: ch 'u' :: ascii ['D', 'e', '0', '0'] ++ [] ++ 34 :: []))
    (fun _ => true) ⟨0, 0⟩ = .ok (some [0xF0, 0x9F, 0x98, 0x80], ⟨14, 1⟩) := by
  have hhigh : IsHex4 (ascii ['d', '8', '3', 'D']) (13 * 4096 + 8 * 256 + 3 * 16 + 13) :=
    .intro ⟨_, rfl, Or.inl rfl⟩ ⟨_, rfl, Or.inl rfl⟩ ⟨_, rfl, Or.inl rfl⟩ ⟨_, rfl, Or.inr rfl⟩
  have hlow : IsHex4 (ascii ['D', 'e', '0', '0']) (13 * 4096 + 14 * 256 + 0 * 16 + 0) :=
    .intro ⟨_, rfl, Or.inr rfl⟩ ⟨_, rfl, Or.inl rfl⟩ ⟨_, rfl, Or.inl rfl⟩ ⟨_, rfl, Or.inl rfl⟩
  have hchar : (Char.ofNat 0x1F600).toNat = 0x10000 + (13 * 4096 + 8 * 256 + 3 * 16 + 13 - 0xD800) *
      1024 + (13 * 4096 + 14 * 256 + 0 * 16 + 0 - 0xDC00) := by decide
  exact parseString_spells (Spells.pair hhigh hlow (by decide) (by decide) hchar Spells.nil) rfl rfl

end Spell

/-! ### Literals, right or wrong -/

theorem exists_char {v : ℕ} (h : v < 0xD800 ∨ 0xDFFF < v ∧ v < 0x110000) :
    ∃ c : Char, utf8Bytes v = String.utf8EncodeChar c := by
  have hvalid : v.isValidChar := h
  exact ⟨Char.ofNatAux v hvalid, utf8Bytes_toNat (Char.ofNatAux v hvalid)⟩

/-- What is behind `\u`, up to the end of the string: half a surrogate pair, a low one, or a high
one that is followed by no literal of a low one. -/
inductive Unpaired : List Byte → Prop
  | low {ds r : List Byte} {v : ℕ} : IsHex4 ds v → 0xDC00 ≤ v ∧ v ≤ 0xDFFF → Unpaired (ds ++ r)
  | high {ds r : List Byte} {v : ℕ} : IsHex4 ds v → 0xD800 ≤ v ∧ v ≤ 0xDBFF →
      (∀ ds' r' v', r = 92 :: ch 'u' :: ds' ++ r' → IsHex4 ds' v' →
        ¬(0xDC00 ≤ v' ∧ v' ≤ 0xDFFF)) → Unpaired (ds ++ r)

section Unit
variable {content bytes ds w t : List Byte} {b : Byte} {p e i n v v' : ℕ}

theorem isHexDigit_of_hexVal (h : hexVal b = some v) : IsHexDigit b v := by
  have hall : ∀ n < 256, ∀ v ∈ hexVal (UInt8.ofNat n), hexDigits[v]?.any
      (fun x => decide (UInt8.ofNat n = x.1 ∨ UInt8.ofNat n = x.2)) = true := by decide +kernel
  have := hall b.toNat b.toNat_lt v (by rw [UInt8.ofNat_toNat]; exact h)
  rw [UInt8.ofNat_toNat] at this
  rcases hx : hexDigits[v]? with _ | x <;> rw [hx] at this
  · cases this
  · exact ⟨x, hx, of_decide_eq_true this⟩

theorem exists_digit_of_parseHexLoop {k : ℕ} (h : parseHexLoop content (n + 1) i k = .ok v)
    (hv : v ≠ 0) : ∃ b t d, content.drop i = b :: t ∧ IsHexDigit b d ∧
      parseHexLoop content n (i + 1) (k * 16 + d) = .ok v := by
  rw [parseHexLoop, byteAt] at h
  rcases hg : content[i]? with _ | b <;> rw [hg] at h
  · cases h
  dsimp only at h
  rw [ok_bind] at h
  rcases hx : hexVal b with _ | d <;> rw [hx] at h
  · cases h
    exact absurd rfl hv
  · obtain ⟨hi, rfl⟩ := List.getElem?_eq_some_iff.mp hg
    exact ⟨content[i], _, d, List.drop_eq_getElem_cons hi, isHexDigit_of_hexVal hx, h⟩

/-- **A number other than zero was read from digits.** -/
theorem exists_isHex4 (h : parseHex4 content i = .ok v) (hv : v ≠ 0) :
    ∃ ds t, content.drop i = ds ++ t ∧ IsHex4 ds v := by
  obtain ⟨b₁, t₁, d₁, h₁, hd₁, h⟩ := exists_digit_of_parseHexLoop h hv
  obtain ⟨b₂, t₂, d₂, h₂, hd₂, h⟩ := exists_digit_of_parseHexLoop h hv
  obtain ⟨b₃, t₃, d₃, h₃, hd₃, h⟩ := exists_digit_of_parseHexLoop h hv
  obtain ⟨b₄, t₄, d₄, h₄, hd₄, h⟩ := exists_digit_of_parseHexLoop h hv
  have hval : d₁ * 4096 + d₂ * 256 + d₃ * 16 + d₄ = v := by
    cases h
    omega
  rw [drop_cons h₁] at h₂
  subst h₂
  rw [drop_cons (drop_cons h₁)] at h₃
  subst h₃
  rw [drop_cons (drop_cons (drop_cons h₁))] at h₄
  subst h₄
  exact ⟨[b₁, b₂, b₃, b₄], t₄, h₁, hval ▸ IsHex4.intro hd₁ hd₂ hd₃ hd₄⟩

theorem IsHex4.unique (h : IsHex4 ds v) (h' : IsHex4 ds v') : v = v' := by
  have hd : ds.drop 0 = ds ++ [] := by rw [List.drop_zero, List.append_nil]
  exact Except.ok.inj ((h.hex4.parse hd).symm.trans (h'.hex4.parse hd))

/-- A literal that is decoded is one code point, or a pair. -/
theorem utf16_some (h : utf16LiteralToUtf8 content p e = .ok (some (bytes, n))) :
    ∃ first, parseHex4 content (p + 2) = .ok first ∧
      ((first < 0xD800 ∨ 0xDFFF < first) ∧ bytes = utf8Bytes first ∨
      (0xD800 ≤ first ∧ first ≤ 0xDBFF) ∧ p + 12 ≤ e ∧ byteAt content (p + 6) = .ok 92 ∧
        byteAt content (p + 7) = .ok (ch 'u') ∧ ∃ second, parseHex4 content (p + 8) = .ok second ∧
          (0xDC00 ≤ second ∧ second ≤ 0xDFFF) ∧
          bytes = utf8Bytes (0x10000 + first % 1024 * 1024 + second % 1024)) := by
  unfold utf16LiteralToUtf8 at h
  by_cases h6 : e < p + 6
  · rw [if_pos h6] at h
    cases h
  rw [if_neg h6] at h
  rcases hf : parseHex4 content (p + 2) with f | first <;> rw [hf] at h
  · cases h
  rw [ok_bind] at h
  refine ⟨first, rfl, ?_⟩
  by_cases h1 : 0xDC00 ≤ first ∧ first ≤ 0xDFFF
  · rw [if_pos h1] at h
    cases h
  rw [if_neg h1] at h
  by_cases h2 : 0xD800 ≤ first ∧ first ≤ 0xDBFF
  swap
  · rw [if_neg h2] at h
    cases h
    exact Or.inl ⟨by omega, rfl⟩
  rw [if_pos h2] at h
  by_cases h12 : e < p + 12
  · rw [if_pos h12] at h
    cases h
  rw [if_neg h12] at h
  rcases hb : byteAt content (p + 6) with f | b <;> rw [hb] at h
  · cases h
  rw [ok_bind] at h
  by_cases hne : b ≠ 92
  · rw [if_pos hne] at h
    cases h
  rw [if_neg hne] at h
  rcases hu : byteAt content (p + 7) with f | u <;> rw [hu] at h
  · cases h
  rw [ok_bind] at h
  by_cases hne' : u ≠ ch 'u'
  · rw [if_pos hne'] at h
    cases h
  rw [if_neg hne'] at h
  rcases hsecond : parseHex4 content (p + 8) with f | second <;> rw [hsecond] at h
  · cases h
  rw [ok_bind] at h
  by_cases h3 : second < 0xDC00 ∨ 0xDFFF < second
  · rw [if_pos h3] at h
    cases h
  rw [if_neg h3] at h
  cases h
  refine Or.inr ⟨h2, by omega, ?_, ?_, second, rfl, by omega, rfl⟩
  · rw [not_ne_iff.mp hne]
  · rw [not_ne_iff.mp hne']

/-- **Half a pair is not decoded**: a pair that is decoded lies before the end of the string. -/
theorem utf16_ne_some (hw : Unpaired w) (hd : content.drop p = 92 :: ch 'u' :: (w ++ t))
    (he : e = p + 2 + w.length) : utf16LiteralToUtf8 content p e ≠ .ok (some (bytes, n)) := by
  intro h
  obtain ⟨first, hf, hcase⟩ := utf16_some h
  have hd₂ : content.drop (p + 2) = w ++ t := drop_cons (drop_cons hd)
  cases hw with
  | low hx hv =>
    rw [List.append_assoc] at hd₂
    rw [hx.hex4.parse hd₂] at hf
    cases hf
    rcases hcase with ⟨h, -⟩ | ⟨h, -⟩ <;> omega
  | @high ds r v hx hv hno =>
    rw [List.append_assoc] at hd₂
    rw [hx.hex4.parse hd₂] at hf
    cases hf
    rcases hcase with ⟨h, -⟩ | ⟨-, h12, hb, hu, second, hs, hlow, -⟩
    · omega
    have hd₆ : content.drop (p + 6) = r ++ t := by
      have := drop_append hd₂
      rwa [hx.hex4.length] at this
    obtain ⟨ds', t', hd₈, hx'⟩ := exists_isHex4 hs (by omega)
    -- the second literal as it lies behind the first one
    have hlit : content.drop (p + 6) = (92 :: ch 'u' :: ds') ++ t' := by
      rw [byteAt] at hb hu
      rcases hg : content[p + 6]? with _ | b₆ <;> rw [hg] at hb <;> cases hb
      rcases hg' : content[p + 7]? with _ | b₇ <;> rw [hg'] at hu <;> cases hu
      obtain ⟨h₆, he₆⟩ := List.getElem?_eq_some_iff.mp hg
      obtain ⟨h₇, he₇⟩ := List.getElem?_eq_some_iff.mp hg'
      rw [List.drop_eq_getElem_cons h₆, he₆, List.drop_eq_getElem_cons h₇, he₇, hd₈]
      rfl
    have hle : (92 :: ch 'u' :: ds').length ≤ r.length := by
      rw [List.length_append, hx.hex4.length] at he
      rw [List.length_cons, List.length_cons, hx'.hex4.length]
      omega
    obtain ⟨r', hr⟩ : (92 :: ch 'u' :: ds') <+: r :=
      List.prefix_of_prefix_length_le ⟨t', hlit.symm⟩ ⟨t, hd₆.symm⟩ hle
    exact hno ds' r' second hr.symm hx' hlow

theorem unpaired_of_none (hd : content.drop p = 92 :: ch 'u' :: (w ++ t))
    (he : e = p + 2 + w.length) (h : utf16LiteralToUtf8 content p e = .ok none)
    (h4 : 4 ≤ w.length) : Unpaired w := by
  have hd₂ : content.drop (p + 2) = w ++ t := drop_cons (drop_cons hd)
  have hlen : p + 2 + 4 ≤ content.length := by
    have := congrArg List.length hd
    rw [List.length_drop, List.length_cons, List.length_cons, List.length_append] at this
    omega
  obtain ⟨first, hf, -⟩ := parseHex4_ok hlen
  by_cases hsur : 0xD800 ≤ first ∧ first ≤ 0xDFFF
  swap
  · rw [utf16LiteralToUtf8, if_neg (by omega), hf, ok_bind, if_neg (by omega),
      if_neg (by omega)] at h
    cases h
  obtain ⟨ds, t', hds, hx⟩ := exists_isHex4 hf (by omega)
  obtain ⟨r, rfl⟩ : ds <+: w := List.prefix_of_prefix_length_le ⟨t', hds.symm⟩ ⟨t, hd₂.symm⟩
    (by rw [hx.hex4.length]; exact h4)
  by_cases hlow : 0xDC00 ≤ first
  · exact Unpaired.low hx ⟨hlow, hsur.2⟩
  refine Unpaired.high hx ⟨hsur.1, by omega⟩ fun ds' r' v' hr hx' hv' => ?_
  subst hr
  have hpair := utf16_pair (e := e) hx.hex4 hx'.hex4 ⟨hsur.1, by omega⟩ hv'
    (t := r' ++ t) (by rw [hd]; simp) (by
      simp only [List.length_append, List.length_cons, hx.hex4.length, hx'.hex4.length] at he
      omega)
  rw [h] at hpair
  cases hpair

end Unit

/-- **A literal never stands for a surrogate**: wherever it is, the bytes written are those of one
character. A literal with room for four digits is refused exactly if it is half a surrogate pair. -/
theorem utf16_char (content : List Byte) (p e : ℕ) :
    (∀ bytes n, utf16LiteralToUtf8 content p e = .ok (some (bytes, n)) →
      ∃ c : Char, bytes = String.utf8EncodeChar c) ∧
    ∀ w t, content.drop p = 92 :: ch 'u' :: (w ++ t) → e = p + 2 + w.length →
      (utf16LiteralToUtf8 content p e = .ok none ↔ w.length < 4 ∨ Unpaired w) := by
  refine ⟨fun bytes n h => ?_, fun w t hd he => ⟨fun h => ?_, ?_⟩⟩
  · obtain ⟨first, hf, ⟨hv, rfl⟩ | ⟨hv, -, -, -, second, hs, hv', rfl⟩⟩ := utf16_some h
    · have hlt : first < 0x10000 := parseHexLoop_lt hf
      exact exists_char (by omega)
    · exact exists_char (by omega)
  · by_cases h4 : w.length < 4
    · exact Or.inl h4
    · exact Or.inr (unpaired_of_none hd he h (by omega))
  · rintro (h4 | hw)
    · rw [utf16LiteralToUtf8, if_pos (by omega)]
    · have hlen : e ≤ content.length := by
        have := congrArg List.length hd
        rw [List.length_drop, List.length_cons, List.length_cons, List.length_append] at this
        omega
      obtain ⟨o, ho, -⟩ := utf16_ok hlen
      rcases o with _ | ⟨bytes, n⟩
      · exact ho
      · exact absurd ho (utf16_ne_some hw hd he)

/-- Lone, reversed and doubled surrogates are refused; a pair is a character. -/
theorem utf16_char_surrogates :
    utf16LiteralToUtf8 (ascii ['\x5c', 'u', 'd', '8', '3', 'd']) 0 6 = .ok none ∧
    utf16LiteralToUtf8 (ascii ['\x5c', 'u', 'd', 'e', '0', '0', '\x5c', 'u', 'd', '8', '3', 'd']) 0
      12 = .ok none ∧
    utf16LiteralToUtf8 (ascii ['\x5c', 'u', 'd', '8', '3', 'd', '\x5c', 'u', 'd', '8', '3', 'd']) 0
      12 = .ok none ∧ ∃ c : Char, [0xF0, 0x9F, 0x98, 0x80] = String.utf8EncodeChar c := by
  have hhigh : IsHex4 (ascii ['d', '8', '3', 'd']) (13 * 4096 + 8 * 256 + 3 * 16 + 13) :=
    .intro ⟨_, rfl, Or.inl rfl⟩ ⟨_, rfl, Or.inl rfl⟩ ⟨_, rfl, Or.inl rfl⟩ ⟨_, rfl, Or.inl rfl⟩
  have hlow : IsHex4 (ascii ['d', 'e', '0', '0']) (13 * 4096 + 14 * 256 + 0 * 16 + 0) :=
    .intro ⟨_, rfl, Or.inl rfl⟩ ⟨_, rfl, Or.inl rfl⟩ ⟨_, rfl, Or.inl rfl⟩ ⟨_, rfl, Or.inl rfl⟩
  have hpair := utf16_pair (e := 12) (p := 0) (t := []) hhigh.hex4 hlow.hex4 (by decide) (by decide)
    (show _ = _ from List.drop_zero) (by decide)
  have hbytes : utf8Bytes (0x10000 + (13 * 4096 + 8 * 256 + 3 * 16 + 13 - 0xD800) * 1024 +
      (13 * 4096 + 14 * 256 + 0 * 16 + 0 - 0xDC00)) = [0xF0, 0x9F, 0x98, 0x80] := by decide
  rw [hbytes] at hpair
  refine ⟨?_, ?_, ?_, (utf16_char _ 0 12).1 _ 12 hpair⟩
  · refine ((utf16_char _ 0 6).2 (ascii ['d', '8', '3', 'd'] ++ []) [] rfl rfl).mpr (Or.inr ?_)
    refine Unpaired.high (r := []) hhigh (by decide) fun ds' r' v' hr => ?_
    exact absurd hr (List.cons_ne_nil _ _).symm
  · refine ((utf16_char _ 0 12).2 (ascii ['d', 'e', '0', '0'] ++
      ascii ['\x5c', 'u', 'd', '8', '3', 'd']) [] rfl rfl).mpr (Or.inr ?_)
    exact Unpaired.low hlow (by decide)
  · refine ((utf16_char _ 0 12).2 (ascii ['d', '8', '3', 'd'] ++
      ascii ['\x5c', 'u', 'd', '8', '3', 'd']) [] rfl rfl).mpr (Or.inr ?_)
    refine Unpaired.high hhigh (by decide) fun ds' r' v' hr hx' hv' => ?_
    have hlen : ds'.length = (ascii ['d', '8', '3', 'd']).length := hx'.hex4.length
    have htail : ascii ['d', '8', '3', 'd'] ++ [] = ds' ++ r' :=
      (List.cons_eq_cons.mp (List.cons_eq_cons.mp hr).2).2
    obtain ⟨hds, -⟩ := List.append_inj htail hlen.symm
    rw [← hds] at hx'
    have := hhigh.unique hx'
    omega

end Serie.Json.Unicode
