import Serie.Lib.Lines
import Serie.Model.Record

/-! # Building and printing JSON

The functions of `cJSON.c` that the logger calls. An object is the list of its items, in the order
in which they were added. Whether the allocations of a call succeed is an argument of it; a call
that fails adds nothing, and nobody looks at its result. The numbers are the 32-bit numbers of a
record, which `print_number` writes as decimals. -/

namespace Serie.Model.CJson

open Serie.Lib.CText Serie.Lib.Lines Serie.Model.Record

/-- The value of an item. -/
inductive Value where
  | number (n : ℤ)
  | string (s : List Byte)
  | bool (b : Bool)
deriving DecidableEq, Repr

/-- The items of an object. -/
abbrev Object := List (String × Value)

/-- `cJSON_AddNumberToObject`. -/
def addNumberToObject (alloc : Bool) (object : Object) (name : String) (number : ℤ) : Object :=
  if alloc then object ++ [(name, .number number)] else object

/-- `cJSON_AddStringToObject`; a `NULL` string is not added. -/
def addStringToObject (alloc : Bool) (object : Object) (name : String)
    (string : Option (List Byte)) : Object :=
  match string with
  | none => object
  | some s => if alloc then object ++ [(name, .string (cstr s))] else object

/-- `cJSON_AddBoolToObject`. -/
def addBoolToObject (alloc : Bool) (object : Object) (name : String) (boolean : Bool) : Object :=
  if alloc then object ++ [(name, .bool boolean)] else object

/-- The loop of `cJSON_CreateStringArray` over the slots from `i` on, of which `n` are left: the
strings, `none` when a string is `NULL` or cannot be copied, or the wrong access of a slot. -/
def stringItems (strings : List Slot) (alloc : ℕ → Bool) :
    ℕ → ℕ → Except FdFault (Option (List (List Byte)))
  | 0, _ => .ok (some [])
  | n + 1, i =>
    match strings[i]? with
    | none => .error .outside
    | some .unset => .error .unset
    | some .null => .ok none
    | some (.str _ target) =>
      if alloc i = false then .ok none
      else
        match stringItems strings alloc n (i + 1) with
        | .error e => .error e
        | .ok none => .ok none
        | .ok (some items) => .ok (some (cstr target :: items))

/-- `cJSON_CreateStringArray`; `array` says whether the array itself is allocated. -/
def createStringArray (array : Bool) (alloc : ℕ → Bool) (strings : Option (List Slot)) (count : ℤ) :
    Except FdFault (Option (List (List Byte))) :=
  match strings with
  | none => .ok none
  | some a =>
    if count < 0 then .ok none
    else if array = false then .ok none
    else stringItems a alloc count.toNat 0

/-! ### Printing -/

/-- A hexadecimal digit. -/
def hexDigit (n : ℕ) : Byte := if n < 10 then (48 + n).toUInt8 else (87 + n).toUInt8

/-- A byte of a string as `print_string_ptr` writes it: `\x5c` is `92`, the quote is `34`. -/
def printByte (b : Byte) : List Byte :=
  if 31 < b ∧ b ≠ 34 ∧ b ≠ 92 then [b]
  else if b = 92 then [92, 92]
  else if b = 34 then [92, 34]
  else if b = 8 then [92, ch 'b']
  else if b = 12 then [92, ch 'f']
  else if b = 10 then [92, ch 'n']
  else if b = 13 then [92, ch 'r']
  else if b = 9 then [92, ch 't']
  else [92, ch 'u', ch '0', ch '0', hexDigit (b.toNat / 16), hexDigit (b.toNat % 16)]

/-- `print_string_ptr`. -/
def printString (s : List Byte) : List Byte := 34 :: (s.flatMap printByte ++ [34])

/-- The decimal digits of a number. -/
def printNat (n : ℕ) : List Byte := (Nat.toDigits 10 n).map ch

/-- `print_number`, for a whole number of at most 15 digits: of more digits `%1.15g` may print only
the first. -/
def printNumber (n : ℤ) : List Byte :=
  if n < 0 then ch '-' :: printNat n.natAbs else printNat n.natAbs

/-- `print_value`. -/
def printValue : Value → List Byte
  | .number n => printNumber n
  | .string s => printString s
  | .bool true => ascii ['t', 'r', 'u', 'e']
  | .bool false => ascii ['f', 'a', 'l', 's', 'e']

/-- An item with its name. -/
def printItem (item : String × Value) : List Byte :=
  printString (item.1.toList.map ch) ++ ch ':' :: printValue item.2

/-- `print_object`. -/
def printObject (object : Object) : List Byte :=
  ch '{' :: ([ch ','].intercalate (object.map printItem) ++ [ch '}'])

/-- `print_array`. -/
def printArray (strings : List (List Byte)) : List Byte :=
  ch '[' :: ([ch ','].intercalate (strings.map printString) ++ [ch ']'])

/-! ### What is printed

Control characters are escaped, so the text of an object holds neither a newline nor a null byte. -/

theorem hexDigit_gt {n : ℕ} (h : n < 16) : 31 < hexDigit n := by
  have hall : ∀ n < 16, 31 < hexDigit n := by decide
  exact hall n h

theorem printByte_gt {b c : Byte} (h : c ∈ printByte b) : 31 < c := by
  have hb : b.toNat < 256 := b.toNat_lt
  have h1 : 31 < hexDigit (b.toNat / 16) := hexDigit_gt (by omega)
  have h2 : 31 < hexDigit (b.toNat % 16) := hexDigit_gt (by omega)
  unfold printByte at h
  split_ifs at h with hc
  · rw [List.mem_singleton.mp h]; exact hc.1
  all_goals
    simp only [List.mem_cons, List.not_mem_nil, or_false] at h
    rcases h with rfl | h
    · decide
  all_goals
    first
    | rw [h]; decide
    | rcases h with rfl | rfl | rfl | rfl | rfl <;> first | decide | assumption

theorem printString_gt {s : List Byte} {c : Byte} (h : c ∈ printString s) : 31 < c := by
  rcases List.mem_cons.mp h with rfl | h
  · decide
  rcases List.mem_append.mp h with h | h
  · obtain ⟨b, -, hb⟩ := List.mem_flatMap.mp h
    exact printByte_gt hb
  · rw [List.mem_singleton.mp h]; decide

theorem printNat_gt {n : ℕ} {c : Byte} (h : c ∈ printNat n) : 31 < c := by
  obtain ⟨d, hd, rfl⟩ := List.mem_map.mp h
  have hdig : d.isDigit := Nat.isDigit_of_mem_toDigits (by decide) (by decide) hd
  have hrange : 48 ≤ d.toNat ∧ d.toNat ≤ 57 := by
    simpa [Char.isDigit, UInt32.le_iff_toNat_le] using hdig
  rw [UInt8.lt_iff_toNat_lt]
  show (31 : ℕ) < d.toNat.toUInt8.toNat
  rw [Nat.toUInt8, UInt8.toNat_ofNat']
  omega

theorem printValue_gt {v : Value} {c : Byte} (h : c ∈ printValue v) : 31 < c := by
  cases v with
  | number n =>
    have h : c ∈ printNumber n := h
    unfold printNumber at h
    split_ifs at h
    · rcases List.mem_cons.mp h with rfl | h
      · decide
      · exact printNat_gt h
    · exact printNat_gt h
  | string s => exact printString_gt h
  | bool b =>
    have hall : ∀ b, (printValue (.bool b)).all (31 < ·) = true := by decide
    exact of_decide_eq_true (List.all_eq_true.mp (hall b) c h)

/-- **An object is printed on one line.** -/
theorem printObject_gt {j : Object} {c : Byte} (h : c ∈ printObject j) : 31 < c := by
  have hitem : ∀ l ∈ j.map printItem, ∀ c ∈ l, 31 < c := by
    rintro l hl c hc
    obtain ⟨x, -, rfl⟩ := List.mem_map.mp hl
    rcases List.mem_append.mp hc with hc | hc
    · exact printString_gt hc
    rcases List.mem_cons.mp hc with rfl | hc
    · decide
    · exact printValue_gt hc
  rcases List.mem_cons.mp h with rfl | h
  · decide
  rcases List.mem_append.mp h with h | h
  · exact forall_mem_intercalate (by decide) hitem c h
  · rw [List.mem_singleton.mp h]; decide

example : printObject [("pid", .number (-7)), ("name", .string [97, 10, 34])] =
    ascii ['{', '\x22', 'p', 'i', 'd', '\x22', ':', '-', '7', ',', '\x22', 'n', 'a', 'm', 'e',
      '\x22', ':', '\x22', 'a', '\x5c', 'n', '\x5c', '\x22', '\x22', '}'] := by decide

end Serie.Model.CJson
