import Serie.Json.Layout
import Serie.Json.RoundTrip

/-! # What the parser accepts

Whatever the bytes are, an item that the parser builds has C strings and is nested no deeper than
the limit (`parse_accepts`). So if its numbers are whole with at most 15 digits, which is what
`print_number` prints in full, the parser accepts the text that is printed from it, and makes the
same item of it (`parse_print_parse`). -/

namespace Serie.Json.Accept

open Serie.Lib.CText Serie.Model.CJson Serie.Model.JsonParse Serie.Json.Item Serie.Json.Reads
open Serie.Json.Scalars Serie.Json.Layout Serie.Json.RoundTrip

variable {ν μ α β : Type} {content : List Byte} {alloc : ℕ → Bool} {round : ℚ → ν}

/-- Whatever a call finds has the property. -/
def Finds (P : α → Prop) (x : Parsed α) : Prop := ∀ v s, x = .ok (some v, s) → P v

section Finds
variable {P : α → Prop} {Q : β → Prop}

theorem finds_none {s : ParseBuffer} : Finds P (.ok (none, s)) := fun _ _ h => by cases h

theorem finds_some {s : ParseBuffer} {v : α} (h : P v) : Finds P (.ok (some v, s)) :=
  fun _ _ he => by
    cases he
    exact h

theorem finds_error {e : Fault} : Finds P (.error e) := fun _ _ h => by cases h

theorem Finds.bind {x : Parsed β} {f : Option β × ParseBuffer → Parsed α} (hx : Finds Q x)
    (hnone : ∀ s, Finds P (f (none, s))) (hsome : ∀ v s, Q v → Finds P (f (some v, s))) :
    Finds P (Except.bind x f) := by
  rcases x with e | ⟨_ | v, s⟩
  · exact finds_error
  · exact hnone s
  · exact hsome v s (hx v s rfl)

theorem Finds.map {x : Parsed β} {f : β → α} (hx : Finds Q x) (hf : ∀ v, Q v → P (f v)) :
    Finds P (x.map fun y => (y.1.map f, y.2)) := by
  rcases x with e | ⟨_ | v, s⟩
  · exact finds_error
  · exact finds_none
  · exact finds_some (hf v (hx v s rfl))

end Finds

/-! ### The parts -/

/-- A value of so many levels. -/
def Good (n : ℕ) (x : Item ν) : Prop := Clean x ∧ depth x ≤ n

theorem parseString_finds (s : ParseBuffer) :
    Finds (fun t : List Byte => 0 ∉ t) (parseString content alloc s) := by
  unfold parseString
  rcases byteAt content s.offset with e | quote
  · exact finds_error
  rw [ok_bind]
  by_cases hq : quote ≠ 34
  · rw [if_pos hq]
    exact finds_none
  rw [if_neg hq]
  rcases scanString (content.drop (s.offset + 1)) with _ | ⟨length, skipped⟩
  · exact finds_none
  dsimp only
  by_cases ha : alloc s.allocs = false
  · rw [if_pos ha]
    exact finds_none
  rw [if_neg ha]
  rcases stringLoop content (s.offset + 1 + length)
    (s.offset + 1 + length - s.offset - skipped + 1) length (s.offset + 1) [] with e | ⟨_ | out, q⟩
  · exact finds_error
  · exact finds_none
  · rw [ok_bind]
    dsimp only
    rcases put (s.offset + 1 + length - s.offset - skipped + 1) out [0] with e | out
    · exact finds_error
    · exact finds_some (notMem_cstr out)

theorem parseNumber_finds (n : ℕ) (s : ParseBuffer) :
    Finds (Good n) (parseNumber content alloc round s) := by
  unfold parseNumber
  dsimp only
  split
  · exact finds_none
  · split
    · exact finds_none
    · exact finds_some ⟨fun _ h => (by cases h), Nat.zero_le n⟩

theorem afterElement_finds {P : α → Prop} {close : Byte} {next : ParseBuffer → Parsed α} {done : α}
    (hnext : ∀ s, Finds P (next s)) (hdone : P done) (s : ParseBuffer) :
    Finds P (afterElement content close next done s) := by
  unfold afterElement
  dsimp only
  split
  · exact hnext _
  · split
    · exact finds_some hdone
    · exact finds_none

section Nested
variable {parseValue : ParseBuffer → Parsed (Item ν)} {n : ℕ}
  (hv : ∀ s, Finds (Good n) (parseValue s))
include hv

theorem arrayLoop_finds : ∀ {fuel : ℕ} {child : List (Item ν)} {s : ParseBuffer},
    (∀ x ∈ child, Good n x) →
    Finds (fun l => ∀ x ∈ l, Good n x) (arrayLoop content alloc parseValue fuel child s)
  | 0, _, _, _ => finds_error
  | fuel + 1, child, s, hchild => by
    rw [arrayLoop]
    by_cases ha : alloc s.allocs = false
    · rw [if_pos ha]
      exact finds_none
    rw [if_neg ha]
    refine (hv _).bind (fun s => finds_none) fun x s hx => ?_
    have hall : ∀ y ∈ child ++ [x], Good n y :=
      List.forall_mem_append.mpr ⟨hchild, List.forall_mem_singleton.mpr hx⟩
    exact afterElement_finds (fun s => arrayLoop_finds hall) hall s

theorem objectLoop_finds : ∀ {fuel : ℕ} {child : List (List Byte × Item ν)} {s : ParseBuffer},
    (∀ m ∈ child, 0 ∉ m.1 ∧ Good n m.2) →
    Finds (fun l => ∀ m ∈ l, 0 ∉ m.1 ∧ Good n m.2)
      (objectLoop content alloc parseValue fuel child s)
  | 0, _, _, _ => finds_error
  | fuel + 1, child, s, hchild => by
    rw [objectLoop]
    by_cases ha : alloc s.allocs = false
    · rw [if_pos ha]
      exact finds_none
    rw [if_neg ha]
    by_cases hend : content.length ≤ s.offset + 1
    · rw [if_pos hend]
      exact finds_none
    rw [if_neg hend]
    refine (parseString_finds _).bind (fun s => finds_none) fun name s hname => ?_
    dsimp only
    by_cases hcolon : at? content (skip content 0 s).offset (ch ':') = false
    · rw [if_pos hcolon]
      exact finds_none
    rw [if_neg hcolon]
    refine (hv _).bind (fun s => finds_none) fun x s hx => ?_
    have hall : ∀ m ∈ child ++ [(name, x)], 0 ∉ m.1 ∧ Good n m.2 :=
      List.forall_mem_append.mpr ⟨hchild, List.forall_mem_singleton.mpr ⟨hname, hx⟩⟩
    exact afterElement_finds (fun s => objectLoop_finds hall) hall s

end Nested

theorem parseNested_finds {P : List α → Prop} {close : Byte} {loop : ParseBuffer → Parsed (List α)}
    (hnil : P []) (hloop : ∀ s, Finds P (loop s)) (s : ParseBuffer) :
    Finds P (parseNested content close loop s) := by
  unfold parseNested
  dsimp only
  split
  · exact finds_some hnil
  · split
    · exact finds_none
    · exact hloop _

/-! ### Values -/

theorem good_array {n : ℕ} {l : List (Item ν)} (h : ∀ x ∈ l, Good n x) : Good (n + 1) (.array l) :=
  ⟨clean_array.mpr fun x hx => (h x hx).1,
    Nat.succ_le_succ (depths_le_iff.mpr fun x hx => (h x hx).2)⟩

theorem good_object {n : ℕ} {l : List (List Byte × Item ν)} (h : ∀ m ∈ l, 0 ∉ m.1 ∧ Good n m.2) :
    Good (n + 1) (.object l) :=
  ⟨clean_object.mpr fun m hm => ⟨(h m hm).1, (h m hm).2.1⟩,
    Nat.succ_le_succ (memberDepths_le_iff.mpr fun m hm => (h m hm).2.2)⟩

/-- **A value**, if there are `n` levels, those of the next level having one less. -/
theorem parseValueWith_finds {n : ℕ} {deeper : Option (ParseBuffer → Parsed (Item ν))}
    (hd : ∀ f, deeper = some f → ∃ m, n = m + 1 ∧ ∀ s, Finds (Good m) (f s)) (s : ParseBuffer) :
    Finds (Good n) (parseValueWith content alloc round deeper s) := by
  have hword : ∀ {x : Item ν} {s : ParseBuffer}, strings x = [] → depth x = 0 →
      Finds (Good n) (.ok (some x, s)) := fun hs h0 =>
    finds_some ⟨fun t ht => absurd (hs ▸ ht) List.not_mem_nil, h0 ▸ Nat.zero_le n⟩
  unfold parseValueWith
  dsimp only
  split
  · exact hword rfl rfl
  split
  · exact hword rfl rfl
  split
  · exact hword rfl rfl
  split
  · exact finds_none
  split
  · refine (parseString_finds s).map fun t ht => ⟨fun u hu => ?_, Nat.zero_le n⟩
    rw [List.mem_singleton.mp hu]
    exact ht
  split
  · exact parseNumber_finds n s
  split
  · rcases deeper with _ | f
    · exact finds_none
    · obtain ⟨m, rfl, hf⟩ := hd f rfl
      have hnil : ∀ x ∈ ([] : List (Item ν)), Good m x := fun _ h => by cases h
      exact (parseNested_finds hnil (fun s => arrayLoop_finds hf hnil) s).map
        fun l hl => good_array hl
  split
  · rcases deeper with _ | f
    · exact finds_none
    · obtain ⟨m, rfl, hf⟩ := hd f rfl
      have hnil : ∀ m' ∈ ([] : List (List Byte × Item ν)), 0 ∉ m'.1 ∧ Good m m'.2 :=
        fun _ h => by cases h
      exact (parseNested_finds hnil (fun s => objectLoop_finds hf hnil) s).map
        fun l hl => good_object hl
  · exact finds_none

theorem parseValue_finds : ∀ (n : ℕ) (s : ParseBuffer),
    Finds (Good n) (parseValue content alloc round n s)
  | 0, s => parseValueWith_finds (fun _ h => by cases h) s
  | n + 1, s => parseValueWith_finds (fun f h => by
      cases h
      exact ⟨n, rfl, parseValue_finds n⟩) s

/-- **An accepted item** has C strings and is nested no deeper than the limit. -/
theorem parse_accepts {value : List Byte} {x : Item ν}
    (h : parse alloc round value = .ok (some x)) : Clean x ∧ depth x ≤ cjsonNestingLimit := by
  set content := cstr value ++ [0] with hcontent
  set start : ParseBuffer := ⟨bufferSkipWhitespace content (skipUtf8Bom content), 1⟩ with hstart
  have hv : Finds (Good cjsonNestingLimit)
      (parseValue content alloc round cjsonNestingLimit start) := parseValue_finds _ _
  unfold parse parseWithLengthOpts at h
  rw [← hcontent, ← hstart] at h
  dsimp only at h
  by_cases h0 : content.length = 0
  · rw [if_pos h0] at h
    cases h
  rw [if_neg h0] at h
  by_cases ha : alloc 0 = false
  · rw [if_pos ha] at h
    cases h
  rw [if_neg ha] at h
  rcases hp : parseValue content alloc round cjsonNestingLimit start with e | ⟨_ | item, s⟩ <;>
    rw [hp] at h <;> cases h
  exact hv _ _ hp

/-- **What is accepted is a fixed point.** An accepted item has C strings and is nested no deeper
than the limit. If its numbers are whole with at most 15 digits, it is printable, its text is
accepted in turn, and the parser makes the same item of it. -/
theorem parse_print_parse {value : List Byte} {x : Item ν}
    (h : parse alloc round value = .ok (some x)) :
    (Clean x ∧ depth x ≤ cjsonNestingLimit) ∧
      ∀ y : Item ℤ, x = mapNumbers (fun n : ℤ => round n) y →
        (∀ n ∈ numbers y, n.natAbs < 10 ^ 15) →
          Printable y ∧ parse (fun _ => true) round (text y) = .ok (some x) := by
  obtain ⟨hclean, hdepth⟩ := parse_accepts h
  refine ⟨⟨hclean, hdepth⟩, fun y hxy hn => ?_⟩
  rw [hxy, clean_mapNumbers] at hclean
  rw [hxy, depth_mapNumbers] at hdepth
  exact ⟨⟨hclean, hn⟩, by rw [(gives_parse round hclean).1 hdepth, hxy]⟩

/-- `[-12e1 ,{"\u0061": "b"}]`, which the printer writes in another way. -/
def blanked : List Byte :=
  ascii ['[', '-', '1', '2', 'e', '1', ' ', ',', '{', '\x22', '\x5c', 'u', '0', '0', '6', '1',
    '\x22', ':', ' ', '\x22', 'b', '\x22', '}', ']']

theorem parse_print_parse_blanked :
    let x : Item ℚ := .array [.number (-120 : ℤ), .object [([97], .string [98])]]
    let y : Item ℤ := .array [.number (-120), .object [([97], .string [98])]]
    parse (fun _ => true) id blanked = .ok (some x) ∧ (Clean x ∧ depth x ≤ cjsonNestingLimit) ∧
      Printable y ∧ parse (fun _ => true) id (text y) = .ok (some x) := by
  intro x y
  have hnum : -(((12 : ℕ) : ℚ) * 10 ^ ((1 : ℤ) - (0 : ℕ))) = (-120 : ℤ) := by
    rw [show (1 : ℤ) - (0 : ℕ) = 1 from rfl, Rat.zpow_one]
    simp only [Rat.natCast_ofNat, Rat.intCast_neg, Rat.intCast_ofNat]
    grind
  have h : parse (fun _ => true) id blanked = .ok (some (.array
      [.number (-(((12 : ℕ) : ℚ) * 10 ^ ((1 : ℤ) - (0 : ℕ)))),
        .object [([97], .string [98])]])) := by
    rfl
  rw [hnum] at h
  obtain ⟨hx, hy⟩ := parse_print_parse h
  exact ⟨h, hx, hy y rfl (by decide)⟩

end Serie.Json.Accept
