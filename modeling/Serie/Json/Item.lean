import Serie.Model.JsonParse
import Serie.Lib.Decimal

/-! # The text of an item

What `cJSON_PrintUnformatted` makes of an item whose numbers fit an `int` or an `unsigned int`, as a
function of the item alone (`text`): no space is used, and the children are separated by commas. The
text begins with a byte that is no blank, and none of its bytes is a control character. -/

namespace Serie.Json.Item

open Serie.Lib.CText Serie.Lib.Lines Serie.Lib.Decimal Serie.Model.CJson Serie.Model.JsonParse

/-- **Induction over items**: an array or an object comes after its children. -/
theorem item_induct {ν : Type} {P : Item ν → Prop} (null : P .null) (bool : ∀ b, P (.bool b))
    (number : ∀ n, P (.number n)) (string : ∀ s, P (.string s))
    (array : ∀ l, (∀ x ∈ l, P x) → P (.array l))
    (object : ∀ l, (∀ m ∈ l, P m.2) → P (.object l)) (x : Item ν) : P x :=
  Item.rec (motive_1 := P) (motive_2 := fun l => ∀ x ∈ l, P x) (motive_3 := fun l => ∀ m ∈ l, P m.2)
    (motive_4 := fun m => P m.2) null bool number string array object (fun _ h => by cases h)
    (fun _ _ hx hl => List.forall_mem_cons.mpr ⟨hx, hl⟩) (fun _ h => by cases h)
    (fun _ _ hm hl => List.forall_mem_cons.mpr ⟨hm, hl⟩) (fun _ _ h => h) x

/-! ### Functions of an item -/

mutual

/-- `print_value`. -/
def text : Item ℤ → List Byte
  | .null => ascii ['n', 'u', 'l', 'l']
  | .bool b => printValue (.bool b)
  | .number n => printNumber n
  | .string s => printString s
  | .array l => ch '[' :: ([ch ','].intercalate (texts l) ++ [ch ']'])
  | .object l => ch '{' :: ([ch ','].intercalate (members l) ++ [ch '}'])

/-- The texts of the elements of an array. -/
def texts : List (Item ℤ) → List (List Byte)
  | [] => []
  | x :: l => text x :: texts l

/-- The texts of the members of an object. -/
def members : List (List Byte × Item ℤ) → List (List Byte)
  | [] => []
  | (name, x) :: l => (printString name ++ ch ':' :: text x) :: members l

end

section
variable {ν μ : Type}

mutual

/-- How deep arrays and objects are nested. -/
def depth : Item ν → ℕ
  | .array l => depths l + 1
  | .object l => memberDepths l + 1
  | _ => 0

/-- The greatest depth of the elements. -/
def depths : List (Item ν) → ℕ
  | [] => 0
  | x :: l => max (depth x) (depths l)

/-- The greatest depth of the members. -/
def memberDepths : List (List Byte × Item ν) → ℕ
  | [] => 0
  | (_, x) :: l => max (depth x) (memberDepths l)

end

mutual

/-- The item with other numbers. -/
def mapNumbers (f : ν → μ) : Item ν → Item μ
  | .null => .null
  | .bool b => .bool b
  | .number n => .number (f n)
  | .string s => .string s
  | .array l => .array (mapElements f l)
  | .object l => .object (mapMembers f l)

def mapElements (f : ν → μ) : List (Item ν) → List (Item μ)
  | [] => []
  | x :: l => mapNumbers f x :: mapElements f l

def mapMembers (f : ν → μ) : List (List Byte × Item ν) → List (List Byte × Item μ)
  | [] => []
  | (name, x) :: l => (name, mapNumbers f x) :: mapMembers f l

end

mutual

/-- The strings of an item, the names of its members included. -/
def strings : Item ν → List (List Byte)
  | .string s => [s]
  | .array l => elementStrings l
  | .object l => memberStrings l
  | _ => []

def elementStrings : List (Item ν) → List (List Byte)
  | [] => []
  | x :: l => strings x ++ elementStrings l

def memberStrings : List (List Byte × Item ν) → List (List Byte)
  | [] => []
  | (name, x) :: l => name :: (strings x ++ memberStrings l)

end

/-- Its strings are C strings: they hold no null byte. -/
def Clean (x : Item ν) : Prop := ∀ s ∈ strings x, 0 ∉ s

/-! ### The children -/

theorem texts_eq : ∀ l : List (Item ℤ), texts l = l.map text
  | [] => rfl
  | x :: l => by rw [texts, texts_eq l, List.map_cons]

theorem members_eq : ∀ l : List (List Byte × Item ℤ),
    members l = l.map fun m => printString m.1 ++ ch ':' :: text m.2
  | [] => rfl
  | (name, x) :: l => by rw [members, members_eq l, List.map_cons]

theorem mapElements_eq (f : ν → μ) : ∀ l, mapElements f l = l.map (mapNumbers f)
  | [] => rfl
  | x :: l => by rw [mapElements, mapElements_eq f l, List.map_cons]

theorem mapMembers_eq (f : ν → μ) : ∀ l, mapMembers f l = l.map fun m => (m.1, mapNumbers f m.2)
  | [] => rfl
  | (name, x) :: l => by rw [mapMembers, mapMembers_eq f l, List.map_cons]

theorem depths_le_iff {n : ℕ} : ∀ {l : List (Item ν)}, depths l ≤ n ↔ ∀ x ∈ l, depth x ≤ n
  | [] => by simp [depths]
  | x :: l => by rw [depths, Nat.max_le, depths_le_iff, List.forall_mem_cons]

theorem memberDepths_le_iff {n : ℕ} : ∀ {l : List (List Byte × Item ν)},
    memberDepths l ≤ n ↔ ∀ m ∈ l, depth m.2 ≤ n
  | [] => by simp [memberDepths]
  | (name, x) :: l => by
    rw [memberDepths, Nat.max_le, memberDepths_le_iff, List.forall_mem_cons]

theorem mem_elementStrings {s : List Byte} : ∀ {l : List (Item ν)},
    s ∈ elementStrings l ↔ ∃ x ∈ l, s ∈ strings x
  | [] => by simp [elementStrings]
  | x :: l => by simp [elementStrings, mem_elementStrings (l := l)]

theorem mem_memberStrings {s : List Byte} : ∀ {l : List (List Byte × Item ν)},
    s ∈ memberStrings l ↔ ∃ m ∈ l, s = m.1 ∨ s ∈ strings m.2
  | [] => by simp [memberStrings]
  | (name, x) :: l => by
    simp only [memberStrings, List.mem_cons, List.mem_append, mem_memberStrings (l := l),
      exists_eq_or_imp, or_assoc]

theorem clean_array {l : List (Item ν)} : Clean (.array l) ↔ ∀ x ∈ l, Clean x := by
  simp only [Clean, strings, mem_elementStrings]
  constructor
  · exact fun h x hx s hs => h s ⟨x, hx, hs⟩
  · rintro h s ⟨x, hx, hs⟩
    exact h x hx s hs

theorem clean_object {l : List (List Byte × Item ν)} :
    Clean (.object l) ↔ ∀ m ∈ l, 0 ∉ m.1 ∧ Clean m.2 := by
  simp only [Clean, strings, mem_memberStrings]
  constructor
  · exact fun h m hm => ⟨h _ ⟨m, hm, Or.inl rfl⟩, fun s hs => h s ⟨m, hm, Or.inr hs⟩⟩
  · rintro h s ⟨m, hm, rfl | hs⟩
    · exact (h m hm).1
    · exact (h m hm).2 s hs

/-! ### Other numbers -/

theorem depths_congr {l : List (Item ν)} {f : Item ν → Item μ}
    (h : ∀ x ∈ l, depth (f x) = depth x) : depths (l.map f) = depths l := by
  induction l with
  | nil => rfl
  | cons x l ih =>
    obtain ⟨hx, hl⟩ := List.forall_mem_cons.mp h
    rw [List.map_cons, depths, depths, hx, ih hl]

theorem memberDepths_congr {l : List (List Byte × Item ν)} {f : Item ν → Item μ}
    (h : ∀ m ∈ l, depth (f m.2) = depth m.2) :
    memberDepths (l.map fun m => (m.1, f m.2)) = memberDepths l := by
  induction l with
  | nil => rfl
  | cons m l ih =>
    obtain ⟨hm, hl⟩ := List.forall_mem_cons.mp h
    rw [List.map_cons, memberDepths, memberDepths, hm, ih hl]

@[simp] theorem depth_mapNumbers (f : ν → μ) (x : Item ν) : depth (mapNumbers f x) = depth x := by
  induction x using item_induct with
  | null => rfl
  | bool b => rfl
  | number n => rfl
  | string s => rfl
  | array l ih => rw [mapNumbers, mapElements_eq, depth, depth, depths_congr ih]
  | object l ih => rw [mapNumbers, mapMembers_eq, depth, depth, memberDepths_congr ih]

@[simp] theorem clean_mapNumbers (f : ν → μ) (x : Item ν) : Clean (mapNumbers f x) ↔ Clean x := by
  induction x using item_induct with
  | null => exact Iff.rfl
  | bool b => exact Iff.rfl
  | number n => exact Iff.rfl
  | string s => exact Iff.rfl
  | array l ih =>
    rw [mapNumbers, mapElements_eq, clean_array, clean_array, List.forall_mem_map]
    exact forall₂_congr ih
  | object l ih =>
    rw [mapNumbers, mapMembers_eq, clean_object, clean_object, List.forall_mem_map]
    exact forall₂_congr fun m hm => and_congr_right' (ih m hm)

end

/-! ### The bytes of the text -/

theorem printNumber_eq (n : ℤ) : printNumber n = signed n := rfl

/-- **No control character** is in the text. -/
theorem text_gt (x : Item ℤ) : ∀ b ∈ text x, 31 < b := by
  induction x using item_induct with
  | null =>
    have hall : (text .null).all (31 < ·) = true := by decide
    exact fun b hb => of_decide_eq_true (List.all_eq_true.mp hall b hb)
  | bool b => exact fun c hc => printValue_gt (v := .bool b) hc
  | number n => exact fun c hc => printValue_gt (v := .number n) hc
  | string s => exact fun c hc => printString_gt hc
  | array l ih =>
    have hall : ∀ t ∈ texts l, ∀ b ∈ t, 31 < b := by
      rw [texts_eq]
      intro t ht
      obtain ⟨x, hx, rfl⟩ := List.mem_map.mp ht
      exact ih x hx
    intro b hb
    rw [text, List.mem_cons, List.mem_append, List.mem_singleton] at hb
    rcases hb with rfl | hb | rfl
    · decide
    · exact forall_mem_intercalate (by decide) hall b hb
    · decide
  | object l ih =>
    have hall : ∀ t ∈ members l, ∀ b ∈ t, 31 < b := by
      rw [members_eq]
      intro t ht
      obtain ⟨m, hm, rfl⟩ := List.mem_map.mp ht
      intro b hb
      rw [List.mem_append, List.mem_cons] at hb
      rcases hb with hb | rfl | hb
      · exact printString_gt hb
      · decide
      · exact ih m hm b hb
    intro b hb
    rw [text, List.mem_cons, List.mem_append, List.mem_singleton] at hb
    rcases hb with rfl | hb | rfl
    · decide
    · exact forall_mem_intercalate (by decide) hall b hb
    · decide

theorem exists_printNumber (n : ℤ) : ∃ b t, printNumber n = b :: t ∧
    (b = ch '-' ∨ isDigit b = true) := by
  rw [printNumber_eq, signed]
  split_ifs
  · exact ⟨_, _, rfl, Or.inl rfl⟩
  · obtain ⟨b, t, ht⟩ := List.exists_cons_of_ne_nil (decimal_ne_nil n.natAbs)
    exact ⟨b, t, ht, Or.inr (isDigit_of_mem (n := n.natAbs) (by rw [ht]; exact List.mem_cons_self))⟩

theorem exists_text (x : Item ℤ) : ∃ b t, text x = b :: t ∧ 32 < b ∧ b < 127 ∧ b ≠ ch ']' := by
  cases x with
  | null => exact ⟨_, _, rfl, by decide⟩
  | bool b => cases b <;> exact ⟨_, _, rfl, by decide⟩
  | number n =>
    obtain ⟨b, t, hb, hd⟩ := exists_printNumber n
    refine ⟨b, t, hb, ?_⟩
    rcases hd with rfl | hd
    · decide
    · obtain ⟨h48, h57⟩ := isDigit_iff.mp hd
      have h32 : (32 : Byte).toNat = 32 ∧ (127 : Byte).toNat = 127 := by decide
      have h93 : (ch ']').toNat = 93 := by decide
      rw [UInt8.lt_iff_toNat_lt, UInt8.lt_iff_toNat_lt, h32.1, h32.2]
      refine ⟨by omega, by omega, fun he => ?_⟩
      rw [he, h93] at h57
      omega
  | string s => exact ⟨_, _, rfl, by decide⟩
  | array l => exact ⟨_, _, rfl, by decide⟩
  | object l => exact ⟨_, _, rfl, by decide⟩

/-! ### The objects of the logger -/

/-- The item of a value. -/
def ofValue : Value → Item ℤ
  | .number n => .number n
  | .string s => .string s
  | .bool b => .bool b

/-- The item of an object. -/
def ofObject (j : Object) : Item ℤ := .object (j.map fun m => (m.1.toList.map ch, ofValue m.2))

/-- **The printer of the logger's objects** prints items. -/
theorem printObject_eq (j : Object) : printObject j = text (ofObject j) := by
  have hvalue : ∀ v, printValue v = text (ofValue v) := fun v => by cases v <;> rfl
  have hmembers : j.map printItem = members (j.map fun m => (m.1.toList.map ch, ofValue m.2)) := by
    rw [members_eq, List.map_map]
    refine List.map_congr_left fun m _ => ?_
    rw [printItem, hvalue]
    rfl
  rw [printObject, hmembers, ofObject, text]

theorem printArray_eq (l : List (List Byte)) :
    printArray l = text (.array (l.map .string)) := by
  have helements : l.map printString = texts (l.map .string) := by
    rw [texts_eq, List.map_map]
    rfl
  rw [printArray, helements, text]

end Serie.Json.Item
