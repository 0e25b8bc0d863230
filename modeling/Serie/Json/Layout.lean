import Serie.Json.Item

/-! # The text with format

What the printer makes of an item (`layout`), with or without format: with it, every member is in a
line of its own, behind as many tabs as it is nested. Without it the text is that of `text`. -/

namespace Serie.Json.Layout

open Serie.Lib.CText Serie.Lib.Lines Serie.Model.CJson Serie.Json.Item
open Serie.Model.JsonParse (Item)

mutual

/-- The text of an item at a depth of nesting. -/
def layout (format : Bool) (d : ℕ) : Item ℤ → List Byte
  | .array l => ch '[' :: (elementsLayout format (d + 1) l ++ [ch ']'])
  | .object l => ch '{' :: ((if format then [ch '\n'] else []) ++ (membersLayout format (d + 1) l ++
      ((if format then List.replicate d (ch '\t') else []) ++ [ch '}'])))
  | x => text x

def elementsLayout (format : Bool) (d : ℕ) : List (Item ℤ) → List Byte
  | [] => []
  | x :: l => layout format d x ++ ((if l.isEmpty then [] else
      ch ',' :: if format then [ch ' '] else []) ++ elementsLayout format d l)

def membersLayout (format : Bool) (d : ℕ) : List (List Byte × Item ℤ) → List Byte
  | [] => []
  | (name, x) :: l => (if format then List.replicate d (ch '\t') else []) ++ (printString name ++
      ((ch ':' :: if format then [ch '\t'] else []) ++ (layout format d x ++
        (((if l.isEmpty then [] else [ch ',']) ++ (if format then [ch '\n'] else [])) ++
          membersLayout format d l))))

end

/-! ### What can be printed -/

mutual

/-- The numbers of an item. -/
def numbers : Item ℤ → List ℤ
  | .number n => [n]
  | .array l => elementNumbers l
  | .object l => memberNumbers l
  | _ => []

def elementNumbers : List (Item ℤ) → List ℤ
  | [] => []
  | x :: l => numbers x ++ elementNumbers l

def memberNumbers : List (List Byte × Item ℤ) → List ℤ
  | [] => []
  | (_, x) :: l => numbers x ++ memberNumbers l

end

/-- Its strings are C strings, and its numbers have at most 15 digits. -/
def Printable (x : Item ℤ) : Prop := Clean x ∧ ∀ n ∈ numbers x, n.natAbs < 10 ^ 15

theorem mem_elementNumbers {n : ℤ} : ∀ {l : List (Item ℤ)},
    n ∈ elementNumbers l ↔ ∃ x ∈ l, n ∈ numbers x
  | [] => by simp [elementNumbers]
  | x :: l => by simp [elementNumbers, mem_elementNumbers (l := l)]

theorem mem_memberNumbers {n : ℤ} : ∀ {l : List (List Byte × Item ℤ)},
    n ∈ memberNumbers l ↔ ∃ m ∈ l, n ∈ numbers m.2
  | [] => by simp [memberNumbers]
  | (name, x) :: l => by simp [memberNumbers, mem_memberNumbers (l := l)]

theorem Printable.array {l : List (Item ℤ)} (h : Printable (.array l)) : ∀ x ∈ l, Printable x :=
  fun x hx => ⟨clean_array.mp h.1 x hx,
    fun n hn => h.2 n (by rw [numbers]; exact mem_elementNumbers.mpr ⟨x, hx, hn⟩)⟩

theorem Printable.object {l : List (List Byte × Item ℤ)} (h : Printable (.object l)) :
    ∀ m ∈ l, 0 ∉ m.1 ∧ Printable m.2 :=
  fun m hm => ⟨(clean_object.mp h.1 m hm).1, (clean_object.mp h.1 m hm).2,
    fun n hn => h.2 n (by rw [numbers]; exact mem_memberNumbers.mpr ⟨m, hm, hn⟩)⟩

/-! ### The bytes of the text -/

section Layout
variable {format : Bool}

theorem layout_eq_text {x : Item ℤ} (harray : ∀ l, x ≠ .array l) (hobject : ∀ l, x ≠ .object l)
    (d : ℕ) : layout format d x = text x := by
  cases x with
  | array l => exact absurd rfl (harray l)
  | object l => exact absurd rfl (hobject l)
  | _ => rfl

theorem notMem_elementsLayout {d : ℕ} : ∀ {l : List (Item ℤ)}, (∀ x ∈ l, 0 ∉ layout format d x) →
    0 ∉ elementsLayout format d l
  | [], _ => by simp [elementsLayout]
  | x :: l, h => by
    obtain ⟨hx, hl⟩ := List.forall_mem_cons.mp h
    have ih := notMem_elementsLayout hl
    rw [elementsLayout, List.mem_append, List.mem_append, not_or, not_or]
    refine ⟨hx, ?_, ih⟩
    split_ifs <;> decide

theorem notMem_membersLayout {d : ℕ} : ∀ {l : List (List Byte × Item ℤ)},
    (∀ m ∈ l, 0 ∉ layout format d m.2) → 0 ∉ membersLayout format d l
  | [], _ => by simp [membersLayout]
  | (name, x) :: l, h => by
    obtain ⟨hx, hl⟩ := List.forall_mem_cons.mp h
    have ih := notMem_membersLayout hl
    have hname : 0 ∉ printString name := fun hm => absurd (printString_gt hm) (by decide)
    have htabs : 0 ∉ List.replicate d (ch '\t') := fun hm =>
      absurd (List.eq_of_mem_replicate hm) (by decide)
    rw [membersLayout]
    simp only [List.mem_append, not_or]
    refine ⟨?_, hname, ?_, hx, ⟨?_, ?_⟩, ih⟩
    · split_ifs
      · exact htabs
      · exact List.not_mem_nil
    · split_ifs <;> decide
    · split_ifs <;> decide
    · split_ifs <;> decide

/-- **No null byte** is in the text. -/
theorem notMem_layout (x : Item ℤ) : ∀ d, 0 ∉ layout format d x := by
  have hscalar : ∀ x : Item ℤ, 0 ∉ text x := fun x h => absurd (text_gt x 0 h) (by decide)
  induction x using item_induct with
  | array l ih =>
    intro d
    rw [layout, List.mem_cons, List.mem_append, not_or, not_or]
    exact ⟨by decide, notMem_elementsLayout fun x hx => ih x hx (d + 1), by decide⟩
  | object l ih =>
    intro d
    have htabs : 0 ∉ List.replicate d (ch '\t') := fun hm =>
      absurd (List.eq_of_mem_replicate hm) (by decide)
    rw [layout]
    simp only [List.mem_cons, List.mem_append, not_or]
    refine ⟨by decide, ?_, notMem_membersLayout fun m hm => ih m hm (d + 1), ?_, by decide⟩
    · split_ifs <;> decide
    · split_ifs
      · exact htabs
      · exact List.not_mem_nil
  | null => exact fun d => hscalar .null
  | bool b => exact fun d => hscalar (.bool b)
  | number n => exact fun d => hscalar (.number n)
  | string s => exact fun d => hscalar (.string s)

theorem elementsLayout_eq {d : ℕ} : ∀ {l : List (Item ℤ)},
    (∀ x ∈ l, layout false d x = text x) →
    elementsLayout false d l = [ch ','].intercalate (l.map text)
  | [], _ => rfl
  | [x], h => by
    rw [elementsLayout, h x List.mem_cons_self]
    simp [elementsLayout, List.intercalate]
  | x :: y :: l, h => by
    obtain ⟨hx, hl⟩ := List.forall_mem_cons.mp h
    rw [elementsLayout, hx, elementsLayout_eq hl, List.map_cons, intercalate_cons, List.map_cons,
      intercalate_cons]
    simp

theorem membersLayout_eq {d : ℕ} : ∀ {l : List (List Byte × Item ℤ)},
    (∀ m ∈ l, layout false d m.2 = text m.2) → membersLayout false d l =
      [ch ','].intercalate (l.map fun m => printString m.1 ++ ch ':' :: text m.2)
  | [], _ => rfl
  | [(name, x)], h => by
    have hx : layout false d x = text x := h (name, x) List.mem_cons_self
    rw [membersLayout, hx]
    simp [membersLayout, List.intercalate]
  | (name, x) :: m :: l, h => by
    obtain ⟨hx, hl⟩ := List.forall_mem_cons.mp h
    have hx : layout false d x = text x := hx
    rw [membersLayout, hx, membersLayout_eq hl, List.map_cons, intercalate_cons, List.map_cons,
      intercalate_cons]
    simp

/-- **Without format the text is that of `text`.** -/
theorem layout_false (x : Item ℤ) : ∀ d, layout false d x = text x := by
  induction x using item_induct with
  | array l ih =>
    intro d
    rw [layout, text, texts_eq, elementsLayout_eq fun x hx => ih x hx (d + 1)]
  | object l ih =>
    intro d
    rw [layout, text, members_eq, membersLayout_eq fun m hm => ih m hm (d + 1)]
    rfl
  | _ => exact fun d => rfl

end Layout

end Serie.Json.Layout
