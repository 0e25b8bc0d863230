import Mathlib.Data.List.Basic
import Mathlib.Data.Int.Bitwise

/-! # C strings and numbers

The functions of the C library the program reads text with, on lists of bytes. A pointer into a
buffer is the suffix of the buffer it points to; reading past the end of a list gives the null byte.
A C string is the part of a buffer before its first null byte (`cstr`). -/

namespace Serie.Lib.CText

/-- A `char`. -/
abbrev Byte := UInt8

/-- The byte of an ASCII character. -/
def ch (c : Char) : Byte := c.toNat.toUInt8

/-- The bytes of an ASCII text. -/
def ascii (cs : List Char) : List Byte := cs.map ch

/-- The string at a pointer: the bytes before the first null byte. -/
def cstr (s : List Byte) : List Byte := s.takeWhile (· ≠ 0)

/-- The byte a pointer points to. -/
def deref (s : List Byte) : Byte := s.headD 0

theorem cstr_of_notMem : ∀ {s : List Byte}, 0 ∉ s → cstr s = s
  | [], _ => rfl
  | b :: s, h => by
    have hb : b ≠ 0 := by rintro rfl; exact h List.mem_cons_self
    have ih := cstr_of_notMem fun hm => h (List.mem_cons_of_mem b hm)
    unfold cstr at ih ⊢
    rw [List.takeWhile_cons_of_pos (by simpa using hb), ih]

theorem cstr_append {s t : List Byte} (h : 0 ∉ s) : cstr (s ++ t) = s ++ cstr t := by
  have hs : ∀ b ∈ s, decide (b ≠ 0) = true := fun b hb => by
    have hne : b ≠ 0 := by rintro rfl; exact h hb
    simpa using hne
  exact List.takeWhile_append_of_pos hs

theorem cstr_append_zero {s rest : List Byte} (h : 0 ∉ s) : cstr (s ++ 0 :: rest) = s := by
  rw [cstr_append h]
  exact List.append_nil s

theorem cstr_append_nul (s : List Byte) : cstr (s ++ [0]) = cstr s := by
  induction s with
  | nil => rfl
  | cons b s ih =>
    unfold cstr at ih ⊢
    rw [List.cons_append, List.takeWhile_cons, List.takeWhile_cons, ih]

/-! ### Reading lines -/

/-- At most `n` bytes, up to and including the first newline, and what is left. -/
def takeLine : ℕ → List Byte → List Byte × List Byte
  | 0, t => ([], t)
  | _ + 1, [] => ([], [])
  | n + 1, b :: t =>
    if b = ch '\n' then ([b], t) else (b :: (takeLine n t).1, (takeLine n t).2)

/-- `fgets` into a buffer of `size` bytes: the bytes stored before the null byte and the rest of the
file, or `none` (a null pointer) at the end of the file. -/
def fgets (size : ℕ) (file : List Byte) : Option (List Byte × List Byte) :=
  if file = [] then none else some (takeLine (size - 1) file)

/-- What repeated calls of `fgets` read; the first argument bounds their number. -/
def fgetsAll (size : ℕ) : ℕ → List Byte → List (List Byte)
  | 0, _ => []
  | n + 1, file =>
    match fgets size file with
    | none => []
    | some (line, rest) => line :: fgetsAll size n rest

/-- The lines of a file, in chunks that fit the buffer. -/
def fgetsLines (size : ℕ) (file : List Byte) : List (List Byte) := fgetsAll size file.length file

theorem takeLine_append_rest : ∀ (n : ℕ) (t : List Byte), (takeLine n t).1 ++ (takeLine n t).2 = t
  | 0, _ => rfl
  | _ + 1, [] => rfl
  | n + 1, b :: t => by
    have ih := takeLine_append_rest n t
    unfold takeLine
    split_ifs
    · rfl
    · rw [List.cons_append, ih]

theorem takeLine_append {t : List Byte} : ∀ {n : ℕ} {a : List Byte}, ch '\n' ∉ a → a.length ≤ n →
    takeLine n (a ++ t) = (a ++ (takeLine (n - a.length) t).1, (takeLine (n - a.length) t).2)
  | _, [], _, _ => rfl
  | n + 1, b :: a, h, hl => by
    rw [List.mem_cons, not_or] at h
    have ih := takeLine_append (t := t) h.2 (Nat.le_of_succ_le_succ hl)
    rw [List.cons_append, takeLine, if_neg (Ne.symm h.1), ih, List.length_cons,
      Nat.succ_sub_succ]
    rfl

theorem takeLine_newline {n : ℕ} {a t : List Byte} (h : ch '\n' ∉ a) (hl : a.length < n) :
    takeLine n (a ++ ch '\n' :: t) = (a ++ [ch '\n'], t) := by
  obtain ⟨k, hk⟩ := Nat.exists_eq_succ_of_ne_zero (Nat.sub_ne_zero_of_lt hl)
  rw [takeLine_append h hl.le, hk, takeLine, if_pos rfl]

/-- The text ends here, or a line does and anything follows. -/
def Ends (eol : List Byte) : Prop := eol = [] ∨ ∃ t, eol = ch '\n' :: t

theorem mem_takeLine {line eol : List Byte} {n : ℕ} {b : Byte} (hl : ch '\n' ∉ line)
    (he : Ends eol) (hb : b ∈ (takeLine n (line ++ eol)).1) : b ∈ line ∨ b = ch '\n' := by
  rcases Nat.lt_or_ge n line.length with hn | hn
  · -- the line is cut
    have hsplit : line ++ eol = line.take n ++ (line.drop n ++ eol) := by
      rw [← List.append_assoc, List.take_append_drop]
    have hcut := takeLine_append (n := n) (t := line.drop n ++ eol)
      (fun h => hl (List.mem_of_mem_take h)) (List.length_take_le n line)
    rw [hsplit, hcut, List.length_take_of_le hn.le, Nat.sub_self] at hb
    rcases List.mem_append.mp hb with hb | hb
    · exact Or.inl (List.mem_of_mem_take hb)
    · cases hb
  · rw [takeLine_append hl hn] at hb
    rcases List.mem_append.mp hb with hb | hb
    · exact Or.inl hb
    rcases he with rfl | ⟨t, rfl⟩
    · rcases hk : n - line.length with _ | k <;> rw [hk] at hb <;> cases hb
    · rcases hk : n - line.length with _ | k <;> rw [hk] at hb
      · cases hb
      · rw [takeLine, if_pos rfl] at hb
        exact Or.inr (List.mem_singleton.mp hb)

theorem takeLine_rest_lt {n : ℕ} {t : List Byte} (h : t ≠ []) :
    (takeLine (n + 1) t).2.length < t.length := by
  obtain ⟨b, t, rfl⟩ := List.exists_cons_of_ne_nil h
  unfold takeLine
  split_ifs
  · simp
  · have := congrArg List.length (takeLine_append_rest n t)
    rw [List.length_append] at this
    simp only [List.length_cons]
    omega

/-- The bound on the number of calls does not matter once the file is read. -/
theorem fgetsAll_congr {size : ℕ} (hs : 2 ≤ size) : ∀ {n m : ℕ} {file : List Byte},
    file.length ≤ n → file.length ≤ m → fgetsAll size n file = fgetsAll size m file
  | 0, 0, _, _, _ => rfl
  | 0, _ + 1, _, h, _ => by
    rw [List.length_eq_zero_iff.mp (Nat.le_zero.mp h)]
    rfl
  | _ + 1, 0, _, _, h => by
    rw [List.length_eq_zero_iff.mp (Nat.le_zero.mp h)]
    rfl
  | n + 1, m + 1, file, hn, hm => by
    by_cases hf : file = []
    · rw [hf]
      rfl
    · have hlt := takeLine_rest_lt (n := size - 2) hf
      rw [show size - 2 + 1 = size - 1 by omega] at hlt
      have hnl : (takeLine (size - 1) file).2.length ≤ n := by omega
      have hml : (takeLine (size - 1) file).2.length ≤ m := by omega
      simp only [fgetsAll, fgets, if_neg hf, fgetsAll_congr hs hnl hml]

theorem fgetsLines_of_ne_nil {size : ℕ} (hs : 2 ≤ size) {file : List Byte} (h : file ≠ []) :
    fgetsLines size file =
      (takeLine (size - 1) file).1 :: fgetsLines size (takeLine (size - 1) file).2 := by
  obtain ⟨k, hk⟩ := Nat.exists_eq_succ_of_ne_zero (mt List.length_eq_zero_iff.mp h)
  have hlt := takeLine_rest_lt (n := size - 2) h
  rw [show size - 2 + 1 = size - 1 by omega] at hlt
  rw [fgetsLines, hk, fgetsAll, fgets, if_neg h]
  dsimp only
  rw [fgetsLines, fgetsAll_congr hs (by omega) le_rfl]

theorem fgetsLines_newline {size : ℕ} {a t : List Byte} (h : ch '\n' ∉ a)
    (hl : a.length + 1 < size) :
    fgetsLines size (a ++ ch '\n' :: t) = (a ++ [ch '\n']) :: fgetsLines size t := by
  rw [fgetsLines_of_ne_nil (by omega) (by simp), takeLine_newline h (by omega)]

/-! ### Searching -/

/-- `strchr`: the index of the first `c` in the string. -/
def strchr (s : List Byte) (c : Byte) : Option ℕ := (cstr s).findIdx? (· = c)

/-- `strrchr`: the index of the last `c` in the string. -/
def strrchr (s : List Byte) (c : Byte) : Option ℕ :=
  ((cstr s).reverse.findIdx? (· = c)).map fun i => (cstr s).length - 1 - i

/-- `strncmp(s, p, strlen(p)) == 0`. -/
def startsWith (s p : List Byte) : Bool := p.isPrefixOf (cstr s)

theorem findIdx?_of_notMem {l : List Byte} {c : Byte} (h : c ∉ l) :
    l.findIdx? (· = c) = none := by
  rw [List.findIdx?_eq_none_iff]
  intro x hx
  have hne : x ≠ c := by rintro rfl; exact h hx
  simpa using hne

theorem findIdx?_append_cons {a b : List Byte} {c : Byte} (h : c ∉ a) :
    (a ++ c :: b).findIdx? (· = c) = some a.length := by
  rw [List.findIdx?_append, findIdx?_of_notMem h]
  simp [List.findIdx?_cons]

theorem strchr_append {a b : List Byte} {c : Byte} (h0 : 0 ∉ a) (hc : c ∉ a) (hz : c ≠ 0) :
    strchr (a ++ c :: b) c = some a.length := by
  have hs : cstr (c :: b) = c :: cstr b := List.takeWhile_cons_of_pos (by simpa using hz)
  rw [strchr, cstr_append h0, hs, findIdx?_append_cons hc]

theorem strrchr_append {s a b : List Byte} {c : Byte} (h : cstr s = a ++ c :: b) (hc : c ∉ b) :
    strrchr s c = some a.length := by
  have hrev : (a ++ c :: b).reverse = b.reverse ++ c :: a.reverse := by simp
  have hlen : (a ++ c :: b).length - 1 - b.length = a.length := by
    rw [List.length_append, List.length_cons]
    omega
  rw [strrchr, h, hrev, findIdx?_append_cons (by simpa using hc), List.length_reverse,
    Option.map_some, hlen]

theorem strrchr_of_notMem {s : List Byte} {c : Byte} (h : c ∉ cstr s) : strrchr s c = none := by
  rw [strrchr, findIdx?_of_notMem (by simpa using h)]
  rfl

theorem exists_last {l : List Byte} {c : Byte} (h : c ∈ l) : ∃ a b, l = a ++ c :: b ∧ c ∉ b := by
  obtain ⟨b, a, he, hb⟩ := List.eq_append_cons_of_mem (List.mem_reverse.mpr h)
  refine ⟨a.reverse, b.reverse, ?_, fun h => hb (List.mem_reverse.mp h)⟩
  rw [← List.reverse_reverse l, he]
  simp

theorem startsWith_eq {s p : List Byte} (h : 0 ∉ p) : startsWith s p = p.isPrefixOf s := by
  rw [startsWith, Bool.eq_iff_iff, List.isPrefixOf_iff_prefix, List.isPrefixOf_iff_prefix]
  constructor
  · exact fun hp => hp.trans (List.takeWhile_prefix _)
  · rintro ⟨t, rfl⟩
    rw [cstr_append h]
    exact List.prefix_append _ _

/-! ### Numbers -/

/-- `isspace`: a blank, or one of tab, newline, vertical tab, form feed, carriage return. -/
def isSpace (b : Byte) : Bool := b = 32 ∨ (9 ≤ b ∧ b ≤ 13)

/-- `isdigit`. -/
def isDigit (b : Byte) : Bool := 48 ≤ b ∧ b ≤ 57

/-- The value of a run of decimal digits. -/
def digitsVal (ds : List Byte) : ℕ := ds.foldl (fun v b => 10 * v + (b.toNat - 48)) 0

/-- The nearest `long` (64 bits). -/
def clampLong (z : ℤ) : ℤ := max (-2 ^ 63) (min z (2 ^ 63 - 1))

/-- Past the sign, if there is one. -/
def skipSign (s : List Byte) : List Byte :=
  if deref s = ch '-' ∨ deref s = ch '+' then s.drop 1 else s

/-- `strtol(s, &end, 10)`: the number and `end`. Without digits the number is zero and `end` is
`s`. -/
def strtol (s : List Byte) : ℤ × List Byte :=
  let t := s.dropWhile isSpace
  let u := skipSign t
  let v : ℤ := digitsVal (u.takeWhile isDigit)
  if u.takeWhile isDigit = [] then (0, s)
  else (clampLong (if deref t = ch '-' then -v else v), u.dropWhile isDigit)

/-- The conversion of a number to a 32-bit `int`. -/
def toInt32 (z : ℤ) : ℤ := z.bmod (2 ^ 32)

/-- The conversion of a number to a 32-bit `unsigned int`. -/
def toUInt32 (z : ℤ) : ℕ := (z % 2 ^ 32).toNat

example : strtol (ascii [' ', '-', '4', '2', 'x']) = (-42, ascii ['x']) := by decide

example : fgetsLines 4 (ascii ['a', 'b', 'c', 'd', '\n', 'e']) =
    [ascii ['a', 'b', 'c'], ascii ['d', '\n'], ascii ['e']] := by decide

end Serie.Lib.CText
