import Serie.Model.JsonParse

/-! # The accesses of the parser

The parser tests the offset before most reads of its input, but not before all, and writes the
strings it decodes into blocks whose size it computed in a first pass. No read is outside of the
input and no write outside of its block, whatever the input (`parse_safe`).

The size is the number of bytes of the literal without its escapes. The second pass may get out of
step with the first, since it takes six bytes for an escape of four digits even if there are quotes
or backslashes among them; but no two neighbours both begin an escape of the first pass, so two
bytes that are passed always make room for one (`count_drop_add_two`). -/

namespace Serie.Json.Reads

open Serie.Lib.CText Serie.Model.CJson Serie.Model.JsonParse

@[simp] theorem ok_bind {ε α β : Type} (a : α) (f : α → Except ε β) :
    (Except.ok a >>= f) = f a := rfl

section Scan
variable {content : List Byte} {i p e : ℕ} {b : Byte}

theorem byteAt_ok (h : i < content.length) : byteAt content i = .ok content[i] := by
  rw [byteAt, List.getElem?_eq_getElem h]

theorem lt_of_at (h : at? content i b = true) : i < content.length := by
  rw [at?, decide_eq_true_eq] at h
  exact (List.getElem?_eq_some_iff.mp h).1

theorem reads_le {word : List Byte} (h : reads content i word = true) (hw : word ≠ []) :
    i + word.length ≤ content.length := by
  rw [reads, List.isPrefixOf_iff_prefix] at h
  have hle := h.length_le
  have hpos := List.length_pos_of_ne_nil hw
  rw [List.length_drop] at hle
  omega

theorem skip_spec (h : i < content.length) :
    i ≤ bufferSkipWhitespace content i ∧ bufferSkipWhitespace content i < content.length := by
  have hle := (List.takeWhile_prefix (p := (· ≤ (32 : Byte))) (l := content.drop i)).length_le
  rw [List.length_drop] at hle
  rw [bufferSkipWhitespace, if_neg (Nat.not_le.mpr h)]
  dsimp only
  split_ifs <;> omega

theorem skip_le (h : i ≤ content.length) :
    i ≤ bufferSkipWhitespace content i ∧ bufferSkipWhitespace content i ≤ content.length := by
  rcases Nat.lt_or_ge i content.length with hlt | hge
  · exact ⟨(skip_spec hlt).1, (skip_spec hlt).2.le⟩
  · rw [bufferSkipWhitespace, if_pos hge]
    exact ⟨le_rfl, h⟩

/-! ### Escapes -/

theorem parseHexLoop_ok : ∀ {n i h : ℕ}, i + n ≤ content.length →
    ∃ v, parseHexLoop content n i h = .ok v
  | 0, _, h, _ => ⟨h, rfl⟩
  | n + 1, i, h, hi => by
    rw [parseHexLoop, byteAt_ok (by omega), ok_bind]
    rcases hexVal content[i] with _ | v
    · exact ⟨0, rfl⟩
    · exact parseHexLoop_ok (by omega)

/-- A literal has six or twelve bytes before the end, and stands for fewer. -/
structure LiteralFits (p e : ℕ) (x : List Byte × ℕ) : Prop where
  le : p + x.2 ≤ e
  size : x.2 = 6 ∧ x.1.length ≤ 3 ∨ x.2 = 12 ∧ x.1.length ≤ 4

theorem length_utf8Bytes (c : ℕ) :
    (utf8Bytes c).length ≤ 4 ∧ (c < 0x10000 → (utf8Bytes c).length ≤ 3) := by
  unfold utf8Bytes
  split_ifs <;> constructor <;> simp
  omega

theorem hexVal_lt {v : ℕ} (h : hexVal b = some v) : v < 16 := by
  have hb := b.toNat_lt
  have h0 : (ch '0').toNat = 48 ∧ (ch '9').toNat = 57 := by decide
  have hA : (ch 'A').toNat = 65 ∧ (ch 'F').toNat = 70 := by decide
  have ha : (ch 'a').toNat = 97 ∧ (ch 'f').toNat = 102 := by decide
  simp only [hexVal, UInt8.le_iff_toNat_le, h0, hA, ha] at h
  split_ifs at h <;> cases h <;> omega

theorem parseHexLoop_lt : ∀ {n i h v : ℕ}, parseHexLoop content n i h = .ok v →
    v < (h + 1) * 16 ^ n
  | 0, _, h, v, hv => by
    cases hv
    omega
  | n + 1, i, h, v, hv => by
    rw [parseHexLoop] at hv
    rcases hg : byteAt content i with e | b <;> rw [hg] at hv
    · cases hv
    rw [ok_bind] at hv
    rcases hx : hexVal b with _ | d <;> rw [hx] at hv
    · cases hv
      exact Nat.mul_pos h.succ_pos (Nat.pow_pos (by decide))
    · have hlt := hexVal_lt hx
      have hrec : v < (h * 16 + d + 1) * 16 ^ n := parseHexLoop_lt hv
      have hle : (h * 16 + d + 1) * 16 ^ n ≤ (h + 1) * 16 * 16 ^ n :=
        Nat.mul_le_mul_right _ (by omega)
      rw [Nat.pow_succ, Nat.mul_comm (16 ^ n), ← Nat.mul_assoc]
      exact hrec.trans_le hle

theorem parseHex4_ok (h : p + 4 ≤ content.length) :
    ∃ v, parseHex4 content p = .ok v ∧ v < 0x10000 := by
  obtain ⟨v, hv⟩ := parseHexLoop_ok (h := 0) h
  exact ⟨v, hv, parseHexLoop_lt hv⟩

/-- **`utf16_literal_to_utf8`** reads the literal only. -/
theorem utf16_ok (he : e ≤ content.length) : ∃ o, utf16LiteralToUtf8 content p e = .ok o ∧
    ∀ x, o = some x → LiteralFits p e x := by
  have hnone : ∃ o, (.ok none : Except Fault (Option (List Byte × ℕ))) = .ok o ∧
      ∀ x, o = some x → LiteralFits p e x := ⟨none, rfl, fun x hx => by cases hx⟩
  unfold utf16LiteralToUtf8
  by_cases h6 : e < p + 6
  · rw [if_pos h6]
    exact hnone
  rw [if_neg h6]
  have h4 : p + 2 + 4 ≤ content.length := by omega
  obtain ⟨first, hfirst, hlt⟩ := parseHex4_ok h4
  rw [hfirst, ok_bind]
  by_cases h1 : 0xDC00 ≤ first ∧ first ≤ 0xDFFF
  · rw [if_pos h1]
    exact hnone
  rw [if_neg h1]
  by_cases h2 : 0xD800 ≤ first ∧ first ≤ 0xDBFF
  · rw [if_pos h2]
    by_cases h12 : e < p + 12
    · rw [if_pos h12]
      exact hnone
    rw [if_neg h12]
    rw [byteAt_ok (by omega), ok_bind]
    split_ifs
    · exact hnone
    rw [byteAt_ok (by omega), ok_bind]
    split_ifs
    · exact hnone
    have h10 : p + 8 + 4 ≤ content.length := by omega
    obtain ⟨second, hsecond, -⟩ := parseHex4_ok h10
    rw [hsecond, ok_bind]
    split_ifs
    · exact hnone
    · refine ⟨_, rfl, fun x hx => ?_⟩
      cases hx
      exact ⟨by dsimp only; omega, Or.inr ⟨rfl, (length_utf8Bytes _).1⟩⟩
  · rw [if_neg h2]
    refine ⟨_, rfl, fun x hx => ?_⟩
    cases hx
    exact ⟨by dsimp only; omega, Or.inl ⟨rfl, (length_utf8Bytes _).2 hlt⟩⟩

end Scan

/-! ### The size of a string -/

/-- The bytes up to the closing quote, marked if an escape of the first pass begins there. -/
def marks : List Byte → List Bool
  | [] => []
  | b :: t =>
    if b = 34 then []
    else if b = 92 then
      match t with
      | [] => []
      | _ :: t => true :: false :: marks t
    else false :: marks t

/-- No two neighbours are marked. -/
def Sparse (m : List Bool) : Prop := m.IsChain fun a b => ¬(a = true ∧ b = true)

theorem Sparse.cons {m : List Bool} (h : Sparse m) : Sparse (false :: m) := by
  cases m with
  | nil => exact .singleton false
  | cons b m => exact .cons_cons (by simp) h

section Marks
variable {b c : Byte} {t : List Byte}

theorem marks_quote : marks (34 :: t) = [] := by
  unfold marks
  rw [if_pos rfl]

theorem marks_escape : marks (92 :: c :: t) = true :: false :: marks t := by
  rw [marks, if_neg (by decide), if_pos rfl]

theorem marks_plain (h34 : b ≠ 34) (h92 : b ≠ 92) : marks (b :: t) = false :: marks t := by
  rw [marks.eq_def]
  dsimp only
  rw [if_neg h34, if_neg h92]

end Marks

/-- What the first pass finds: `n` bytes before the quote, `k` of them the beginnings of escapes, no
two of which are neighbours. -/
structure Scanned (t : List Byte) (n k : ℕ) : Prop where
  quote : t[n]? = some 34
  length : (marks t).length = n
  count : (marks t).count false + k = n
  sparse : Sparse (marks t)
  plain : ∀ i : ℕ, (marks t)[i]? = some true → t[i]? = some 92

theorem scanned_of_scanString : ∀ {t : List Byte} {n k : ℕ}, scanString t = some (n, k) →
    Scanned t n k
  | [], _, _, h => by cases h
  | b :: t, n, k, h => by
    unfold scanString at h
    split_ifs at h with h34 h92
    · cases h
      rw [h34]
      refine ⟨by simp, ?_, ?_, ?_, fun i hi => ?_⟩
      · rw [marks_quote]
        rfl
      · rw [marks_quote]
        rfl
      · rw [marks_quote]
        exact .nil
      · rw [marks_quote] at hi
        cases hi
    · rcases t with _ | ⟨c, t⟩
      · cases h
      obtain ⟨⟨m, j⟩, hs, he⟩ := Option.map_eq_some_iff.mp h
      cases he
      have ih := scanned_of_scanString hs
      have hm : marks (b :: c :: t) = true :: false :: marks t := by rw [h92, marks_escape]
      refine ⟨by simpa using ih.quote, ?_, ?_, ?_, fun i hi => ?_⟩
      · rw [hm]
        simp [ih.length]
      · rw [hm]
        have := ih.count
        simp
        omega
      · rw [hm]
        exact .cons_cons (by simp) (ih.sparse.cons)
      · rw [hm] at hi
        rcases i with _ | _ | i
        · simp [h92]
        · cases hi
        · simpa using ih.plain i hi
    · obtain ⟨⟨m, j⟩, hs, he⟩ := Option.map_eq_some_iff.mp h
      cases he
      have ih := scanned_of_scanString hs
      have hm : marks (b :: t) = false :: marks t := marks_plain h34 h92
      refine ⟨by simpa using ih.quote, ?_, ?_, ?_, fun i hi => ?_⟩
      · rw [hm]
        simp [ih.length]
      · rw [hm]
        have := ih.count
        simp
        omega
      · rw [hm]
        exact ih.sparse.cons
      · rw [hm] at hi
        rcases i with _ | i
        · cases hi
        · simpa using ih.plain i hi

section Room
variable {m : List Bool} {i : ℕ}

theorem count_drop_add_one (h : m[i]? = some false) :
    (m.drop i).count false = (m.drop (i + 1)).count false + 1 := by
  obtain ⟨hi, hm⟩ := List.getElem?_eq_some_iff.mp h
  rw [List.drop_eq_getElem_cons hi, hm, List.count_cons_self]

theorem count_drop_add_two (hm : Sparse m)
    (hi : i + 2 ≤ m.length) :
    (m.drop (i + 2)).count false + 1 ≤ (m.drop i).count false := by
  have h0 : i < m.length := by omega
  have h1 : i + 1 < m.length := by omega
  have hne : ¬(m[i] = true ∧ m[i + 1] = true) := (List.isChain_iff_getElem.mp hm) i h1
  rw [List.drop_eq_getElem_cons h0, List.drop_eq_getElem_cons h1]
  rcases hx : m[i] with _ | _ <;> rcases hy : m[i + 1] with _ | _
  · simp
  · simp
  · simp
  · exact absurd ⟨hx, hy⟩ hne

theorem count_drop_add (hm : Sparse m) : ∀ {j i : ℕ},
    i + 2 * j ≤ m.length → (m.drop (i + 2 * j)).count false + j ≤ (m.drop i).count false
  | 0, _, _ => by simp
  | j + 1, i, h => by
    have h2 := count_drop_add_two hm (i := i) (by omega)
    have ih := count_drop_add hm (j := j) (i := i + 2) (by omega)
    have hij : i + 2 * (j + 1) = i + 2 + 2 * j := by omega
    rw [hij]
    omega

end Room

/-! ### Strings -/

/-- What is written so far leaves room for the bytes behind index `i`; one byte is spare. -/
structure HasRoom (m : List Bool) (i written : ℕ) : Prop where
  room : i ≤ m.length → written + (m.drop i).count false ≤ m.count false
  le : written ≤ m.count false + 1

theorem hasRoom_zero (m : List Bool) : HasRoom m 0 0 := ⟨fun _ => by simp, Nat.zero_le _⟩

section Strings
variable {content : List Byte} {start n k size : ℕ} {m : List Bool} {i written : ℕ}

theorem HasRoom.plain (h : HasRoom m i written) (hi : i < m.length) (hm : m[i]? ≠ some true) :
    HasRoom m (i + 1) (written + 1) := by
  have hfalse : m[i]? = some false := by
    rw [List.getElem?_eq_getElem hi] at hm ⊢
    rcases hx : m[i] with _ | _
    · rfl
    · exact absurd (congrArg some hx) hm
  have hroom := h.room hi.le
  rw [count_drop_add_one hfalse] at hroom
  exact ⟨fun _ => by omega, by omega⟩

/-- An escape of two characters; it may reach over the end by one. -/
theorem HasRoom.escape (h : HasRoom m i written) (hs : Sparse m) (hi : i < m.length) :
    HasRoom m (i + 2) (written + 1) := by
  have hroom := h.room hi.le
  refine ⟨fun hle => ?_, by omega⟩
  have := count_drop_add_two hs hle
  omega

theorem HasRoom.literal (h : HasRoom m i written) (hs : Sparse m) {j w : ℕ}
    (hi : i + 2 * j ≤ m.length) (hw : w ≤ j) : HasRoom m (i + 2 * j) (written + w) := by
  have hroom := h.room (by omega)
  have := count_drop_add hs hi
  exact ⟨fun _ => by omega, by omega⟩

theorem put_ok {output bytes : List Byte} (h : output.length + bytes.length ≤ size) :
    put size output bytes = .ok (output ++ bytes) := if_pos h

/-- **The second pass** reads the literal and its closing quote only, and writes inside its
block. -/
theorem stringLoop_ok (ht : Scanned (content.drop start) n k) (hsize : n + 2 ≤ size + k) :
    ∀ {fuel p : ℕ} {output : List Byte}, start ≤ p → start + n ≤ p + fuel →
      HasRoom (marks (content.drop start)) (p - start) output.length →
      ∃ o q, stringLoop content (start + n) size fuel p output = .ok (o, q) ∧
        (o = none → q < start + n) ∧ ∀ out, o = some out → out.length < size := by
  set m := marks (content.drop start) with hm
  have hlen : m.length = n := ht.length
  have hcount := ht.count
  rw [← hm] at hcount
  have hend : start + n < content.length := by
    obtain ⟨hlt, -⟩ := List.getElem?_eq_some_iff.mp ht.quote
    rw [List.length_drop] at hlt
    omega
  intro fuel
  induction fuel with
  | zero =>
    intro p output hp hf hr
    refine ⟨some output, p, ?_, fun h => (by cases h), fun out h => ?_⟩
    · rw [stringLoop, if_pos (by omega)]
    · cases h
      have := hr.le
      omega
  | succ fuel ih =>
    intro p output hp hf hr
    unfold stringLoop
    by_cases hpe : start + n ≤ p
    · rw [if_pos hpe]
      refine ⟨some output, p, rfl, fun h => (by cases h), fun out h => ?_⟩
      cases h
      have := hr.le
      omega
    rw [if_neg hpe]
    have hi : p - start < m.length := by omega
    have hbad : ∃ o q, (.ok (none, p) : Except Fault (Option (List Byte) × ℕ)) = .ok (o, q) ∧
        (o = none → q < start + n) ∧ ∀ out, o = some out → out.length < size :=
      ⟨none, p, rfl, fun _ => by omega, fun out h => by cases h⟩
    -- the loop goes on behind `j` bytes, after the bytes `w`
    have hgo : ∀ (j : ℕ) (w : List Byte), 1 ≤ j →
        HasRoom m (p - start + j) (output.length + w.length) →
        ∃ o q, (put size output w >>= stringLoop content (start + n) size fuel (p + j)) =
          .ok (o, q) ∧ (o = none → q < start + n) ∧ ∀ out, o = some out → out.length < size := by
      intro j w hj hw
      have hle := hw.le
      rw [put_ok (by omega), ok_bind]
      refine ih (by omega) (by omega) ?_
      rw [List.length_append, show p + j - start = p - start + j by omega]
      exact hw
    dsimp only
    rw [byteAt_ok (by omega), ok_bind]
    by_cases hb : content[p] = 92
    · rw [if_neg (not_not_intro hb), byteAt_ok (by omega), ok_bind]
      rcases hx : unescape content[p + 1] with _ | c
      · dsimp only
        split_ifs
        · exact hbad
        obtain ⟨o, ho, hfit⟩ := utf16_ok (p := p) hend.le
        rw [ho, ok_bind]
        rcases o with _ | ⟨bytes, len⟩
        · exact hbad
        obtain ⟨hle, hlit⟩ := hfit _ rfl
        rcases hlit with ⟨rfl, hw⟩ | ⟨rfl, hw⟩
        · exact hgo 6 bytes (by decide) (hr.literal ht.sparse (j := 3) (by omega) hw)
        · exact hgo 12 bytes (by decide) (hr.literal ht.sparse (j := 6) (by omega)
            (hw.trans (by decide)))
      · exact hgo 2 [c] (by decide) (hr.escape ht.sparse hi)
    · rw [if_pos hb]
      refine hgo 1 [content[p]] le_rfl (hr.plain hi fun hmark => ?_)
      have := ht.plain _ hmark
      rw [List.getElem?_drop, show start + (p - start) = p by omega,
        List.getElem?_eq_getElem (by omega)] at this
      exact hb (Option.some.inj this)

/-- A call returns, leaves the offset in the input or at its end, and has moved it on if it found a
value. -/
def Stays {α : Type} (content : List Byte) (offset : ℕ)
    (x : Except Fault (Option α × ParseBuffer)) : Prop :=
  ∃ o t, x = .ok (o, t) ∧ t.offset ≤ content.length ∧ (o.isSome → offset < t.offset)

theorem stays_none {α : Type} {s : ParseBuffer} (h : s.offset ≤ content.length) (i : ℕ) :
    Stays content i (.ok (none, s) : Except Fault (Option α × ParseBuffer)) :=
  ⟨none, s, rfl, h, fun h => by cases h⟩

theorem stays_some {α : Type} {s : ParseBuffer} {x : α} {i : ℕ} (h : s.offset ≤ content.length)
    (hi : i < s.offset) :
    Stays content i (.ok (some x, s) : Except Fault (Option α × ParseBuffer)) :=
  ⟨some x, s, rfl, h, fun _ => hi⟩

theorem Stays.mono {α : Type} {i j : ℕ} {x : Except Fault (Option α × ParseBuffer)}
    (h : Stays content j x) (hij : i ≤ j) : Stays content i x := by
  obtain ⟨o, t, hx, ht, ho⟩ := h
  exact ⟨o, t, hx, ht, fun hs => hij.trans_lt (ho hs)⟩

theorem parseString_stays (alloc : ℕ → Bool) {s : ParseBuffer} (h : s.offset < content.length) :
    Stays content s.offset (parseString content alloc s) := by
  unfold parseString
  have hfail : ∀ a : ℕ, Stays content s.offset
      (.ok (none, ⟨s.offset + 1, a⟩) : Except Fault (Option (List Byte) × ParseBuffer)) := fun a =>
    stays_none (s := ⟨s.offset + 1, a⟩) h _
  rw [byteAt_ok h, ok_bind]
  by_cases hq : content[s.offset] = 34
  swap
  · rw [if_pos hq]
    exact hfail _
  rw [if_neg (not_not_intro hq)]
  rcases hs : scanString (content.drop (s.offset + 1)) with _ | ⟨n, k⟩
  · exact hfail _
  have ht := scanned_of_scanString hs
  have hk := ht.count
  have hend : s.offset + 1 + n < content.length := by
    obtain ⟨hlt, -⟩ := List.getElem?_eq_some_iff.mp ht.quote
    rw [List.length_drop] at hlt
    omega
  dsimp only
  by_cases ha : alloc s.allocs = false
  · rw [if_pos ha]
    exact hfail _
  rw [if_neg ha]
  have hsize : n + 2 ≤ s.offset + 1 + n - s.offset - k + 1 + k := by omega
  have hroom : HasRoom (marks (content.drop (s.offset + 1))) (s.offset + 1 - (s.offset + 1))
      ([] : List Byte).length := by
    rw [Nat.sub_self]
    exact hasRoom_zero _
  obtain ⟨o, q, hloop, hq, hout⟩ := stringLoop_ok ht hsize le_rfl le_rfl hroom
  rw [hloop, ok_bind]
  rcases o with _ | out
  · have := hq rfl
    exact stays_none (by dsimp only; omega) _
  · dsimp only
    rw [put_ok (hout out rfl), ok_bind]
    exact stays_some hend (by dsimp only; omega)

end Strings

/-! ### Numbers -/

section Numbers
variable {s t : List Byte}

theorem length_skipSign_le (s : List Byte) : (skipSign s).length ≤ s.length := by
  unfold skipSign
  split_ifs
  · rw [List.length_drop]
    exact Nat.sub_le _ _
  · exact le_rfl

theorem length_dropWhile_le (p : Byte → Bool) (s : List Byte) :
    (s.dropWhile p).length ≤ s.length := by
  have := congrArg List.length (List.takeWhile_append_dropWhile (p := p) (l := s))
  rw [List.length_append] at this
  omega

theorem length_strtodExponent_le (s : List Byte) : (strtodExponent s).2.length ≤ s.length := by
  have h1 := length_dropWhile_le isDigit (skipSign (s.drop 1))
  have h2 := length_skipSign_le (s.drop 1)
  rw [List.length_drop] at h2
  unfold strtodExponent
  dsimp only
  split_ifs
  · exact le_rfl
  · dsimp only
    omega
  · dsimp only
    omega
  · exact le_rfl

/-- **`strtod`** takes at least one character. -/
theorem strtod_lt {q : ℚ} (h : strtod s = some (q, t)) : t.length < s.length := by
  have hsign := length_skipSign_le s
  have hwhole := congrArg List.length
    (List.takeWhile_append_dropWhile (p := isDigit) (l := skipSign s))
  have hfrac := congrArg List.length (List.takeWhile_append_dropWhile (p := isDigit)
    (l := ((skipSign s).dropWhile isDigit).drop 1))
  rw [List.length_append] at hwhole hfrac
  rw [List.length_drop] at hfrac
  unfold strtod at h
  dsimp only at h
  by_cases hd : deref ((skipSign s).dropWhile isDigit) = ch '.'
  · rw [if_pos hd, if_pos hd] at h
    split_ifs at h with hno
    all_goals
      cases h
    all_goals
      have hexp := length_strtodExponent_le
        ((((skipSign s).dropWhile isDigit).drop 1).dropWhile isDigit)
      have hne : (skipSign s).dropWhile isDigit ≠ [] := by
        intro he
        rw [he] at hd
        exact absurd hd (by decide)
      have := List.length_pos_of_ne_nil hne
      omega
  · rw [if_neg hd, if_neg hd] at h
    split_ifs at h with hno
    all_goals
      cases h
    all_goals
      have hexp := length_strtodExponent_le ((skipSign s).dropWhile isDigit)
      have hne : (skipSign s).takeWhile isDigit ≠ [] := fun he => hno ⟨he, rfl⟩
      have := List.length_pos_of_ne_nil hne
      omega

end Numbers

/-! ### Values -/

section Values
variable {ν α : Type} {content : List Byte} {alloc : ℕ → Bool} {round : ℚ → ν}

theorem skip_offset {n : ℕ} {s : ParseBuffer} (h : s.offset + n ≤ content.length) :
    s.offset + n ≤ (skip content n s).offset ∧ (skip content n s).offset ≤ content.length :=
  skip_le h

theorem parseNumber_stays {s : ParseBuffer} (h : s.offset ≤ content.length) :
    Stays content s.offset (parseNumber content alloc round s) := by
  set run := (content.drop s.offset).takeWhile isNumberChar with hrun
  have hle : run.length ≤ content.length - s.offset := by
    rw [hrun, ← List.length_drop]
    exact (List.takeWhile_prefix _).length_le
  unfold parseNumber
  dsimp only
  rw [← hrun]
  have hfail : Stays content s.offset (.ok (none, { s with allocs := s.allocs + 1 }) :
      Parsed (Item ν)) := stays_none (s := { s with allocs := s.allocs + 1 }) h _
  by_cases ha : alloc s.allocs = false
  · rw [if_pos ha]
    exact hfail
  rw [if_neg ha]
  rcases hs : strtod run with _ | ⟨q, t⟩
  · exact hfail
  · have hlt := strtod_lt hs
    exact stays_some (by dsimp only; omega) (by dsimp only; omega)

theorem afterElement_stays {close : Byte} {next : ParseBuffer → Parsed α} {done : α} {i : ℕ}
    {s : ParseBuffer} (hs : s.offset ≤ content.length) (hi : i < s.offset)
    (hnext : ∀ t : ParseBuffer, s.offset ≤ t.offset → t.offset < content.length →
      Stays content t.offset (next t)) :
    Stays content i (afterElement content close next done s) := by
  obtain ⟨h1, h2⟩ := skip_offset (n := 0) hs
  unfold afterElement
  dsimp only
  split_ifs with hc hd
  · exact (hnext _ h1 (lt_of_at hc)).mono (by omega)
  · exact stays_some (lt_of_at hd) (by dsimp only; omega)
  · exact stays_none h2 _

section Loops
variable {parseValue : ParseBuffer → Parsed (Item ν)}

/-- **The loop of an array**: an element moves the offset on, so there are no more turns than
bytes. -/
theorem arrayLoop_stays (hv : ∀ s : ParseBuffer, s.offset ≤ content.length →
    Stays content s.offset (parseValue s)) : ∀ {fuel : ℕ} {child : List (Item ν)} {s : ParseBuffer},
    s.offset < content.length → content.length ≤ s.offset + fuel →
    Stays content s.offset (arrayLoop content alloc parseValue fuel child s)
  | 0, _, s, hs, hf => absurd hs (by omega)
  | fuel + 1, child, s, hs, hf => by
    rw [arrayLoop]
    by_cases ha : alloc s.allocs = false
    · rw [if_pos ha]
      exact stays_none (s := { s with allocs := s.allocs + 1 }) hs.le _
    rw [if_neg ha]
    obtain ⟨h1, h2⟩ := skip_offset (n := 1) (s := { s with allocs := s.allocs + 1 }) hs
    obtain ⟨o, t, ho, ht, hlt⟩ := hv _ h2
    rw [ho, ok_bind]
    dsimp only at h1
    rcases o with _ | x
    · exact stays_none ht _
    · have hlt := hlt rfl
      refine afterElement_stays ht (by omega) fun u hu hul => ?_
      exact arrayLoop_stays hv hul (by omega)

theorem objectLoop_stays (hv : ∀ s : ParseBuffer, s.offset ≤ content.length →
    Stays content s.offset (parseValue s)) :
    ∀ {fuel : ℕ} {child : List (List Byte × Item ν)} {s : ParseBuffer},
    s.offset < content.length → content.length ≤ s.offset + fuel →
    Stays content s.offset (objectLoop content alloc parseValue fuel child s)
  | 0, _, s, hs, hf => absurd hs (by omega)
  | fuel + 1, child, s, hs, hf => by
    have hfail : Stays content s.offset (.ok (none, { s with allocs := s.allocs + 1 }) :
        Parsed (List (List Byte × Item ν))) :=
      stays_none (s := { s with allocs := s.allocs + 1 }) hs.le _
    rw [objectLoop]
    by_cases ha : alloc s.allocs = false
    · rw [if_pos ha]
      exact hfail
    rw [if_neg ha]
    by_cases h1 : content.length ≤ s.offset + 1
    · rw [if_pos h1]
      exact hfail
    rw [if_neg h1]
    -- the name: there is a byte to read
    obtain ⟨h2, h3⟩ := skip_spec (Nat.not_le.mp h1)
    obtain ⟨o, t, ho, ht, hlt⟩ := parseString_stays alloc
      (s := skip content 1 { s with allocs := s.allocs + 1 }) h3
    have h2 : s.offset + 1 ≤ (skip content 1 { s with allocs := s.allocs + 1 }).offset := h2
    rw [ho, ok_bind]
    rcases o with _ | name
    · exact stays_none ht _
    have hlt := hlt rfl
    obtain ⟨h4, h5⟩ := skip_offset (n := 0) ht
    dsimp only
    by_cases hcolon : at? content (skip content 0 t).offset (ch ':') = false
    · rw [if_pos hcolon]
      exact stays_none h5 _
    rw [if_neg hcolon]
    have h6 := lt_of_at (Bool.eq_true_of_not_eq_false hcolon)
    -- the value
    obtain ⟨h7, h8⟩ := skip_offset (n := 1) h6
    obtain ⟨o', t', ho', ht', hlt'⟩ := hv _ h8
    rw [ho', ok_bind]
    rcases o' with _ | x
    · exact stays_none ht' _
    · have hlt' := hlt' rfl
      refine afterElement_stays ht' (by omega) fun u hu hul => ?_
      exact objectLoop_stays hv hul (by omega)

theorem parseNested_stays {close : Byte} {loop : ParseBuffer → Parsed (List α)} {s : ParseBuffer}
    (hs : s.offset < content.length)
    (hl : ∀ t : ParseBuffer, s.offset ≤ t.offset → t.offset < content.length →
      Stays content t.offset (loop t)) :
    Stays content s.offset (parseNested content close loop s) := by
  obtain ⟨h1, h2⟩ := skip_offset (n := 1) hs
  unfold parseNested
  dsimp only
  by_cases hc : at? content (skip content 1 s).offset close = true
  · rw [if_pos hc]
    exact stays_some (lt_of_at hc) (by dsimp only; omega)
  rw [if_neg hc]
  by_cases he : content.length ≤ (skip content 1 s).offset
  · rw [if_pos he]
    exact stays_none (by dsimp only; omega) _
  · rw [if_neg he]
    refine (hl _ ?_ ?_).mono ?_ <;> dsimp only <;> omega

theorem Stays.wrap {f : List α → Item ν} {i : ℕ} {x : Parsed (List α)} (h : Stays content i x) :
    Stays content i (wrap f x) := by
  obtain ⟨o, t, rfl, ht, hlt⟩ := h
  exact ⟨o.map f, t, rfl, ht, fun h => hlt (by rwa [Option.isSome_map] at h)⟩

end Loops

theorem parseValueWith_stays {deeper : Option (ParseBuffer → Parsed (Item ν))}
    (hd : ∀ f, deeper = some f → ∀ s : ParseBuffer, s.offset ≤ content.length →
      Stays content s.offset (f s)) {s : ParseBuffer} (hs : s.offset ≤ content.length) :
    Stays content s.offset (parseValueWith content alloc round deeper s) := by
  have hword : ∀ (x : Item ν) (word : List Byte), word ≠ [] → reads content s.offset word = true →
      Stays content s.offset (.ok (some x, { s with offset := s.offset + word.length }) :
        Parsed (Item ν)) := by
    intro x word hw hr
    have := List.length_pos_of_ne_nil hw
    exact stays_some (reads_le hr hw) (by dsimp only; omega)
  unfold parseValueWith
  dsimp only
  by_cases hnull : reads content s.offset (ascii ['n', 'u', 'l', 'l']) = true
  · rw [if_pos hnull]
    exact hword _ _ (by decide) hnull
  rw [if_neg hnull]
  by_cases hfalse : reads content s.offset (ascii ['f', 'a', 'l', 's', 'e']) = true
  · rw [if_pos hfalse]
    exact hword _ _ (by decide) hfalse
  rw [if_neg hfalse]
  by_cases htrue : reads content s.offset (ascii ['t', 'r', 'u', 'e']) = true
  · rw [if_pos htrue]
    exact hword _ _ (by decide) htrue
  rw [if_neg htrue]
  rcases hb : content[s.offset]? with _ | b
  · exact stays_none hs _
  obtain ⟨hlt, -⟩ := List.getElem?_eq_some_iff.mp hb
  dsimp only
  split_ifs
  · obtain ⟨o, t, ho, ht, hot⟩ := parseString_stays alloc hlt
    rw [ho]
    exact ⟨_, t, rfl, ht, fun h => hot (by rwa [Option.isSome_map] at h)⟩
  · exact parseNumber_stays hs
  · rcases deeper with _ | f
    · exact stays_none hs _
    · refine (parseNested_stays hlt fun t _ ht => ?_).wrap
      exact arrayLoop_stays (hd f rfl) ht (Nat.le_add_left _ _)
  · rcases deeper with _ | f
    · exact stays_none hs _
    · refine (parseNested_stays hlt fun t _ ht => ?_).wrap
      exact objectLoop_stays (hd f rfl) ht (Nat.le_add_left _ _)
  · exact stays_none hs _

/-- **Every value**: the induction is on the levels that are left. -/
theorem parseValue_stays : ∀ {n : ℕ} {s : ParseBuffer}, s.offset ≤ content.length →
    Stays content s.offset (parseValue content alloc round n s)
  | 0, _, hs => parseValueWith_stays (fun _ h => by cases h) hs
  | n + 1, _, hs => parseValueWith_stays (fun f h s hs => by
      cases h
      exact parseValue_stays hs) hs

/-- **The parser makes no wrong access and comes to an end**, whatever the bytes are and whichever
allocations fail; the end of the item, or the place of the error, is in the input. -/
theorem parse_safe (content : List Byte) (alloc : ℕ → Bool) (round : ℚ → ν)
    (requireNullTerminated : Bool) :
    ∃ item parseEnd, parseWithLengthOpts content alloc round requireNullTerminated =
      .ok (item, parseEnd) ∧ parseEnd ≤ content.length ∧
      (item = none → content ≠ [] → parseEnd < content.length) := by
  have hfail : ∀ i : ℕ, content.length ≠ 0 → ∃ (item : Option (Item ν)) (parseEnd : ℕ),
      (.ok (none, min i (content.length - 1)) : Except Fault (Option (Item ν) × ℕ)) =
        .ok (item, parseEnd) ∧ parseEnd ≤ content.length ∧
        (item = none → content ≠ [] → parseEnd < content.length) := by
    intro i h0
    exact ⟨none, _, rfl, by omega, fun _ _ => by omega⟩
  unfold parseWithLengthOpts
  dsimp only
  by_cases h0 : content.length = 0
  · rw [if_pos h0]
    exact ⟨none, 0, rfl, Nat.zero_le _, fun _ h => absurd (List.length_eq_zero_iff.mp h0) h⟩
  rw [if_neg h0]
  by_cases ha : alloc 0 = false
  · rw [if_pos ha]
    exact hfail _ h0
  rw [if_neg ha]
  have hbom : skipUtf8Bom content ≤ content.length := by
    unfold skipUtf8Bom
    split_ifs <;> omega
  have hvalue : Stays content (bufferSkipWhitespace content (skipUtf8Bom content))
      (parseValue content alloc round cjsonNestingLimit
        ⟨bufferSkipWhitespace content (skipUtf8Bom content), 1⟩) :=
    parseValue_stays (skip_le hbom).2
  obtain ⟨o, s, ho, hs, -⟩ := hvalue
  rw [ho, ok_bind]
  rcases o with _ | item
  · exact hfail _ h0
  dsimp only
  split_ifs with hn hz
  · exact ⟨_, _, rfl, (lt_of_at hz).le, fun h => by cases h⟩
  · exact hfail _ h0
  · exact ⟨_, _, rfl, hs, fun h => by cases h⟩

/-- A literal whose digits are an escaped quote: the two passes are out of step. -/
example : parseString (ascii ['\x22', '\x5c', 'u', '0', '0', '\x5c', '\x22', 'a', '\x22'])
    (fun _ => true) ⟨0, 0⟩ = .ok (some [], ⟨9, 1⟩) := by rfl

end Values

end Serie.Json.Reads
