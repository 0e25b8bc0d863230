import Serie.Json.Reads

/-! # String literals

`parse_string` goes over a literal twice. A piece of the literal (`Piece`) is a part that both
passes take as a whole: the first one counts its escapes, the second one writes the bytes it stands
for.
Pieces in a row are a piece, so a literal is decoded piece by piece (`parseString_piece`).

A plain byte is a piece, and so are an escape of two characters, a literal of four hexadecimal
digits and a surrogate pair. -/

namespace Serie.Json.Literal

open Serie.Lib.CText Serie.Model.CJson Serie.Model.JsonParse Serie.Json.Reads

/-! ### Reading at an offset -/

section Read
variable {content w t : List Byte} {i p : ℕ} {b c : Byte}

theorem drop_append (h : content.drop i = w ++ t) : content.drop (i + w.length) = t := by
  rw [← List.drop_drop, h, List.drop_left]

theorem drop_cons (h : content.drop i = b :: t) : content.drop (i + 1) = t :=
  drop_append (w := [b]) h

theorem getElem?_of_drop (h : content.drop i = b :: t) : content[i]? = some b := by
  have := congrArg (fun l : List Byte => l[0]?) h
  simpa [List.getElem?_drop] using this

theorem byteAt_of_drop (h : content.drop i = b :: t) : byteAt content i = .ok b := by
  rw [byteAt, getElem?_of_drop h]

theorem at_of_drop (h : content.drop i = b :: t) : at? content i c = decide (b = c) := by
  rw [at?, getElem?_of_drop h]
  simp

theorem lt_of_drop (h : content.drop i = b :: t) : i < content.length := by
  by_contra hi
  rw [List.drop_eq_nil_of_le (Nat.not_lt.mp hi)] at h
  cases h

theorem skip_of_drop (h : content.drop i = b :: t) (hb : 32 < b) :
    bufferSkipWhitespace content i = i := by
  have hlt := lt_of_drop h
  have htake : (b :: t).takeWhile (· ≤ (32 : Byte)) = [] := by
    rw [List.takeWhile_cons_of_neg (by simpa using hb)]
  rw [bufferSkipWhitespace, if_neg (Nat.not_le.mpr hlt), h, htake]
  dsimp only [List.length_nil]
  rw [if_neg (by omega)]
  rfl

theorem parseHexLoop_cons {n v h : ℕ} (hd : content.drop i = b :: t) (hv : hexVal b = some v) :
    parseHexLoop content (n + 1) i h = parseHexLoop content n (i + 1) (h * 16 + v) := by
  rw [parseHexLoop, byteAt_of_drop hd, ok_bind, hv]

/-- **`parse_hex4`**, on four digits. -/
theorem parseHex4_digits {d₁ d₂ d₃ d₄ : Byte} {v₁ v₂ v₃ v₄ : ℕ}
    (h : content.drop i = d₁ :: d₂ :: d₃ :: d₄ :: t) (h₁ : hexVal d₁ = some v₁)
    (h₂ : hexVal d₂ = some v₂) (h₃ : hexVal d₃ = some v₃) (h₄ : hexVal d₄ = some v₄) :
    parseHex4 content i = .ok (((v₁ * 16 + v₂) * 16 + v₃) * 16 + v₄) := by
  have hd₂ := drop_cons h
  have hd₃ := drop_cons hd₂
  have hd₄ := drop_cons hd₃
  rw [parseHex4, parseHexLoop_cons h h₁, parseHexLoop_cons hd₂ h₂, parseHexLoop_cons hd₃ h₃,
    parseHexLoop_cons hd₄ h₄, parseHexLoop, Nat.zero_mul, Nat.zero_add]

end Read

/-! ### Pieces -/

/-- Part of a literal, which stands for the bytes `o`: it has `k` escapes and takes `n` turns. -/
structure Piece (w o : List Byte) (k n : ℕ) : Prop where
  scan : ∀ t, scanString (w ++ t) = (scanString t).map fun x => (x.1 + w.length, x.2 + k)
  room : o.length + k ≤ w.length
  turns : n ≤ w.length
  run : ∀ (content : List Byte) (p e size fuel : ℕ) (output t : List Byte),
    content.drop p = w ++ t → p + w.length ≤ e → output.length + o.length ≤ size →
    stringLoop content e size (fuel + n) p output =
      stringLoop content e size fuel (p + w.length) (output ++ o)

section Pieces
variable {w o w' o' t : List Byte} {k n k' n' : ℕ} {b c : Byte}

theorem piece_nil : Piece [] [] 0 0 where
  scan t := (congrFun Option.map_id (scanString t)).symm
  room := le_rfl
  turns := le_rfl
  run content p e size fuel output t _ _ _ := by rw [List.append_nil]; rfl

theorem Piece.append (h : Piece w o k n) (h' : Piece w' o' k' n') :
    Piece (w ++ w') (o ++ o') (k + k') (n + n') where
  scan t := by
    rw [List.append_assoc, h.scan, h'.scan, Option.map_map, List.length_append]
    congr 1
    funext x
    dsimp only [Function.comp]
    rw [Nat.add_comm w.length, Nat.add_comm k, Nat.add_assoc, Nat.add_assoc]
  room := by
    have hr := h.room
    have hr' := h'.room
    rw [List.length_append, List.length_append]
    omega
  turns := by
    have ht := h.turns
    have ht' := h'.turns
    rw [List.length_append]
    omega
  run content p e size fuel output t hd he hs := by
    rw [List.append_assoc] at hd
    rw [List.length_append] at he hs ⊢
    rw [← Nat.add_assoc, Nat.add_right_comm,
      h.run content p e size (fuel + n') output (w' ++ t) hd (by omega) (by omega),
      h'.run content (p + w.length) e size fuel (output ++ o) t (drop_append hd) (by omega)
        (by rw [List.length_append]; omega), List.append_assoc, Nat.add_assoc]

theorem scanString_plain (h34 : b ≠ 34) (h92 : b ≠ 92) :
    scanString (b :: t) = (scanString t).map fun x => (x.1 + 1, x.2) := by
  rw [scanString.eq_def]
  dsimp only
  rw [if_neg h34, if_neg h92]

theorem scanString_escape : scanString (92 :: b :: t) =
    (scanString t).map fun x => (x.1 + 2, x.2 + 1) := by
  rw [scanString, if_neg (by decide), if_pos rfl]

/-- **A plain byte** stands for itself. -/
theorem piece_plain (h34 : b ≠ 34) (h92 : b ≠ 92) : Piece [b] [b] 0 1 where
  scan t := scanString_plain h34 h92
  room := le_rfl
  turns := le_rfl
  run content p e size fuel output t hd he hs := by
    rw [stringLoop, if_neg (Nat.not_le.mpr he), byteAt_of_drop hd, ok_bind, if_pos h92, put_ok hs,
      ok_bind]
    rfl

/-- **An escape** of two characters. -/
theorem piece_escape (h : unescape c = some b) : Piece [92, c] [b] 1 1 where
  scan t := scanString_escape
  room := le_rfl
  turns := Nat.le_succ 1
  run content p e size fuel output t hd he hs := by
    have hlen : ([92, c] : List Byte).length = 2 := rfl
    rw [hlen] at he ⊢
    rw [stringLoop, if_neg (by omega), byteAt_of_drop hd, ok_bind, if_neg (by decide),
      byteAt_of_drop (drop_cons hd), ok_bind, h]
    dsimp only
    rw [put_ok hs, ok_bind]

end Pieces

/-! ### Hexadecimal digits -/

/-- Four digits of this value. -/
def Hex4 (ds : List Byte) (v : ℕ) : Prop :=
  ∃ d₁ d₂ d₃ d₄ v₁ v₂ v₃ v₄, ds = [d₁, d₂, d₃, d₄] ∧ hexVal d₁ = some v₁ ∧ hexVal d₂ = some v₂ ∧
    hexVal d₃ = some v₃ ∧ hexVal d₄ = some v₄ ∧ v = ((v₁ * 16 + v₂) * 16 + v₃) * 16 + v₄

section Hex
variable {content ds ds' t : List Byte} {v v' i p e : ℕ} {b : Byte}

theorem Hex4.length (h : Hex4 ds v) : ds.length = 4 := by
  obtain ⟨d₁, d₂, d₃, d₄, v₁, v₂, v₃, v₄, rfl, -⟩ := h
  rfl

/-- **`parse_hex4`** reads the digits. -/
theorem Hex4.parse (h : Hex4 ds v) (hd : content.drop i = ds ++ t) :
    parseHex4 content i = .ok v := by
  obtain ⟨d₁, d₂, d₃, d₄, v₁, v₂, v₃, v₄, rfl, h₁, h₂, h₃, h₄, rfl⟩ := h
  exact parseHex4_digits hd h₁ h₂ h₃ h₄

theorem ne_of_hexVal {v : ℕ} (h : hexVal b = some v) : b ≠ 34 ∧ b ≠ 92 := by
  have hquote : hexVal 34 = none := by decide
  have hslash : hexVal 92 = none := by decide
  constructor <;> rintro rfl
  · rw [hquote] at h
    cases h
  · rw [hslash] at h
    cases h

/-- The first pass, over an escape and four digits. -/
theorem Hex4.scan (h : Hex4 ds v) (t : List Byte) : scanString (92 :: ch 'u' :: (ds ++ t)) =
    (scanString t).map fun x => (x.1 + 6, x.2 + 1) := by
  obtain ⟨d₁, d₂, d₃, d₄, v₁, v₂, v₃, v₄, rfl, h₁, h₂, h₃, h₄, -⟩ := h
  obtain ⟨hq₁, hb₁⟩ := ne_of_hexVal h₁
  obtain ⟨hq₂, hb₂⟩ := ne_of_hexVal h₂
  obtain ⟨hq₃, hb₃⟩ := ne_of_hexVal h₃
  obtain ⟨hq₄, hb₄⟩ := ne_of_hexVal h₄
  rw [scanString_escape, List.cons_append, scanString_plain hq₁ hb₁, List.cons_append,
    scanString_plain hq₂ hb₂, List.cons_append, scanString_plain hq₃ hb₃, List.cons_append,
    scanString_plain hq₄ hb₄, List.nil_append]
  simp only [Option.map_map]
  rfl

/-- **A code point** below the surrogates or above them. -/
theorem utf16_unit (h : Hex4 ds v) (hv : v < 0xD800 ∨ 0xDFFF < v)
    (hd : content.drop p = 92 :: ch 'u' :: ds ++ t) (he : p + 6 ≤ e) :
    utf16LiteralToUtf8 content p e = .ok (some (utf8Bytes v, 6)) := by
  have hdigits := h.parse (drop_cons (drop_cons hd))
  rw [utf16LiteralToUtf8, if_neg (by omega), hdigits, ok_bind, if_neg (by omega),
    if_neg (by omega)]

theorem utf16_pair (h : Hex4 ds v) (h' : Hex4 ds' v') (hv : 0xD800 ≤ v ∧ v ≤ 0xDBFF)
    (hv' : 0xDC00 ≤ v' ∧ v' ≤ 0xDFFF)
    (hd : content.drop p = 92 :: ch 'u' :: ds ++ 92 :: ch 'u' :: ds' ++ t) (he : p + 12 ≤ e) :
    utf16LiteralToUtf8 content p e =
      .ok (some (utf8Bytes (0x10000 + (v - 0xD800) * 1024 + (v' - 0xDC00)), 12)) := by
  have hfirst : content.drop (p + 2) = ds ++ (92 :: ch 'u' :: (ds' ++ t)) := by
    rw [List.append_assoc, List.cons_append, List.cons_append] at hd
    exact drop_cons (drop_cons hd)
  have hsix := drop_append hfirst
  rw [h.length] at hsix
  have hdigits := h.parse hfirst
  have hdigits' := h'.parse (drop_cons (drop_cons hsix))
  have hval : 0x10000 + v % 1024 * 1024 + v' % 1024 =
      0x10000 + (v - 0xD800) * 1024 + (v' - 0xDC00) := by omega
  rw [utf16LiteralToUtf8, if_neg (by omega), hdigits, ok_bind, if_neg (by omega), if_pos hv,
    if_neg (by omega), byteAt_of_drop hsix, ok_bind, if_neg (by decide),
    byteAt_of_drop (drop_cons hsix), ok_bind, if_neg (by decide), hdigits', ok_bind,
    if_neg (by omega), hval]

/-- The second pass, over a literal of `utf16_literal_to_utf8`. -/
theorem stringLoop_literal {size fuel n : ℕ} {o output : List Byte}
    (hd : content.drop p = 92 :: ch 'u' :: t) (he : p < e)
    (hl : utf16LiteralToUtf8 content p e = .ok (some (o, n)))
    (hs : output.length + o.length ≤ size) :
    stringLoop content e size (fuel + 1) p output =
      stringLoop content e size fuel (p + n) (output ++ o) := by
  have hu : unescape (ch 'u') = none := by decide
  rw [stringLoop, if_neg (Nat.not_le.mpr he), byteAt_of_drop hd, ok_bind, if_neg (by decide),
    byteAt_of_drop (drop_cons hd), ok_bind, hu]
  dsimp only
  rw [if_neg (by decide), hl, ok_bind]
  dsimp only
  rw [put_ok hs, ok_bind]

theorem Hex4.lt (h : Hex4 ds v) : v < 0x10000 := by
  obtain ⟨d₁, d₂, d₃, d₄, v₁, v₂, v₃, v₄, -, h₁, h₂, h₃, h₄, rfl⟩ := h
  have := hexVal_lt h₁
  have := hexVal_lt h₂
  have := hexVal_lt h₃
  have := hexVal_lt h₄
  omega

theorem piece_unit (h : Hex4 ds v) (hv : v < 0xD800 ∨ 0xDFFF < v) :
    Piece (92 :: ch 'u' :: ds) (utf8Bytes v) 1 1 := by
  have hlen : (92 :: ch 'u' :: ds).length = 6 := by
    rw [List.length_cons, List.length_cons, h.length]
  have hbytes := (length_utf8Bytes v).2 h.lt
  refine ⟨fun t => ?_, by omega, by omega, fun content p e size fuel output t hd he hs => ?_⟩
  · rw [hlen]
    exact h.scan t
  · rw [hlen] at he ⊢
    exact stringLoop_literal hd (by omega) (utf16_unit h hv hd he) hs

theorem piece_pair (h : Hex4 ds v) (h' : Hex4 ds' v') (hv : 0xD800 ≤ v ∧ v ≤ 0xDBFF)
    (hv' : 0xDC00 ≤ v' ∧ v' ≤ 0xDFFF) :
    Piece (92 :: ch 'u' :: ds ++ 92 :: ch 'u' :: ds')
      (utf8Bytes (0x10000 + (v - 0xD800) * 1024 + (v' - 0xDC00))) 2 1 := by
  have hlen : (92 :: ch 'u' :: ds ++ 92 :: ch 'u' :: ds').length = 12 := by
    simp only [List.length_append, List.length_cons, h.length, h'.length]
  have hbytes := (length_utf8Bytes (0x10000 + (v - 0xD800) * 1024 + (v' - 0xDC00))).1
  refine ⟨fun t => ?_, by omega, by omega, fun content p e size fuel output t hd he hs => ?_⟩
  · rw [hlen, List.append_assoc]
    refine (h.scan _).trans ?_
    rw [List.cons_append, List.cons_append, h'.scan, Option.map_map]
    rfl
  · rw [hlen] at he ⊢
    exact stringLoop_literal hd (by omega) (utf16_pair h h' hv hv' hd he) hs

end Hex

/-! ### Literals -/

theorem cstr_append_null : ∀ o : List Byte, cstr (o ++ [0]) = cstr o
  | [] => rfl
  | b :: o => by
    have ih := cstr_append_null o
    unfold cstr at ih ⊢
    by_cases hb : b = 0
    · rw [List.cons_append, List.takeWhile_cons_of_neg (by simp [hb]),
        List.takeWhile_cons_of_neg (by simp [hb])]
    · rw [List.cons_append, List.takeWhile_cons_of_pos (by simp [hb]),
        List.takeWhile_cons_of_pos (by simp [hb]), ih]

/-- **A literal is decoded**: between quotes, a piece is the C string it stands for. -/
theorem parseString_piece {content w o r : List Byte} {k n p a : ℕ} {alloc : ℕ → Bool}
    (h : Piece w o k n) (ha : alloc a = true) (hd : content.drop p = 34 :: (w ++ 34 :: r)) :
    parseString content alloc ⟨p, a⟩ = .ok (some (cstr o), ⟨p + w.length + 2, a + 1⟩) := by
  have hbody := drop_cons hd
  have hroom := h.room
  have hturns := h.turns
  have hquote : scanString (34 :: r) = some (0, 0) := by
    unfold scanString
    exact if_pos rfl
  have hscan : scanString (w ++ 34 :: r) = some (w.length, k) := by
    rw [h.scan, hquote, Option.map_some, Nat.zero_add, Nat.zero_add]
  set size := p + 1 + w.length - p - k + 1 with hsize
  have hloop : stringLoop content (p + 1 + w.length) size w.length (p + 1) [] =
      .ok (some o, p + 1 + w.length) := by
    have hrun := h.run content (p + 1) (p + 1 + w.length) size (w.length - n) [] _ hbody le_rfl
      (by rw [List.length_nil]; omega)
    rw [Nat.sub_add_cancel hturns] at hrun
    rw [hrun]
    unfold stringLoop
    rw [if_pos le_rfl, List.nil_append]
  unfold parseString
  dsimp only
  rw [byteAt_of_drop hd, ok_bind, if_neg (by decide), hbody, hscan]
  dsimp only
  rw [ha, if_neg (by decide), ← hsize, hloop, ok_bind]
  dsimp only
  rw [put_ok (by rw [List.length_singleton]; omega), ok_bind, cstr_append_null,
    Nat.add_right_comm p 1]

end Serie.Json.Literal
