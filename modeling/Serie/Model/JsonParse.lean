import Serie.Model.CJson
import Mathlib.Data.Rat.Defs

/-! # Parsing JSON

The parser of `cJSON.c`, and the access to the members of an object. The input is a block of bytes,
which need not end with a null byte; reading another byte than these is a fault, and so is a write
behind the end of an allocated string and a loop that never ends. A function that returns `false`
has no value (`none`); the offset that it leaves is where the error is reported.

The nesting of a value is limited, so the functions recur on the number of levels that are left of
`CJSON_NESTING_LIMIT`. The value of a number is the nearest `double` of the decimal that `strtod`
reads; `double` is left open (`ν`, with the rounding `round`), up to the sign of a zero, which a
decimal does not have. `valueint`, which is a function of the value, is left out. -/

namespace Serie.Model.JsonParse

open Serie.Lib.CText Serie.Model.CJson

/-- An item with its children, those of an object with their names. -/
inductive Item (ν : Type) where
  | null
  | bool (b : Bool)
  | number (n : ν)
  | string (s : List Byte)
  | array (child : List (Item ν))
  | object (child : List (List Byte × Item ν))
deriving Repr

/-- `CJSON_NESTING_LIMIT`. -/
def cjsonNestingLimit : ℕ := 1000

/-- What goes wrong in a call. -/
inductive Fault where
  | read
  | write
  | spin
deriving DecidableEq, Repr

/-- What changes of a `parse_buffer`, and the number of allocations attempted so far. -/
structure ParseBuffer where
  offset : ℕ
  allocs : ℕ
deriving DecidableEq, Repr

/-- What a function of the parser returns. -/
abbrev Parsed (α : Type) := Except Fault (Option α × ParseBuffer)

/-- A byte of the input. -/
def byteAt (content : List Byte) (i : ℕ) : Except Fault Byte :=
  match content[i]? with
  | some b => .ok b
  | none => .error .read

section Scan
variable (content : List Byte)

/-- `can_access_at_index(buffer, 0)` and the byte there is `b`. -/
def at? (offset : ℕ) (b : Byte) : Bool := content[offset]? = some b

/-- `can_read` and `strncmp`. -/
def reads (offset : ℕ) (word : List Byte) : Bool := word.isPrefixOf (content.drop offset)

/-- `buffer_skip_whitespace`. At the end of the input it steps back to the last blank. -/
def bufferSkipWhitespace (offset : ℕ) : ℕ :=
  if content.length ≤ offset then offset
  else
    let stop := offset + ((content.drop offset).takeWhile (· ≤ 32)).length
    if stop = content.length then stop - 1 else stop

/-- `skip_utf8_bom`, at the beginning. -/
def skipUtf8Bom : ℕ := if 4 < content.length ∧ reads content 0 [0xEF, 0xBB, 0xBF] then 3 else 0

end Scan

/-! ### Numbers -/

/-- The characters of a number. -/
def isNumberChar (b : Byte) : Bool :=
  isDigit b ∨ b = ch '+' ∨ b = ch '-' ∨ b = ch 'e' ∨ b = ch 'E' ∨ b = ch '.'

/-- The exponent behind the digits, and what is left. -/
def strtodExponent (s : List Byte) : ℤ × List Byte :=
  if deref s = ch 'e' ∨ deref s = ch 'E' then
    let u := skipSign (s.drop 1)
    let v : ℤ := digitsVal (u.takeWhile isDigit)
    if u.takeWhile isDigit = [] then (0, s)
    else (if deref (s.drop 1) = ch '-' then -v else v, u.dropWhile isDigit)
  else (0, s)

/-- `strtod`, on the characters of a number: the decimal at the head of the text, and what is
left. The decimal of `-0` is that of `0`. -/
def strtod (s : List Byte) : Option (ℚ × List Byte) :=
  let t := skipSign s
  let whole := t.takeWhile isDigit
  let u := t.dropWhile isDigit
  let frac := if deref u = ch '.' then (u.drop 1).takeWhile isDigit else []
  let v := if deref u = ch '.' then (u.drop 1).dropWhile isDigit else u
  if whole = [] ∧ frac = [] then none
  else
    let e := strtodExponent v
    let q : ℚ := digitsVal (whole ++ frac) * (10 : ℚ) ^ (e.1 - frac.length)
    some (if deref s = ch '-' then -q else q, e.2)

/-! ### Strings -/

/-- The value of a hexadecimal digit. -/
def hexVal (b : Byte) : Option ℕ :=
  if ch '0' ≤ b ∧ b ≤ ch '9' then some (b.toNat - 48)
  else if ch 'A' ≤ b ∧ b ≤ ch 'F' then some (b.toNat - 55)
  else if ch 'a' ≤ b ∧ b ≤ ch 'f' then some (b.toNat - 87)
  else none

/-- The loop of `parse_hex4`: `n` digits are left. Anything else makes it zero. -/
def parseHexLoop (content : List Byte) : ℕ → ℕ → ℕ → Except Fault ℕ
  | 0, _, h => .ok h
  | n + 1, i, h => do
    let b ← byteAt content i
    match hexVal b with
    | some v => parseHexLoop content n (i + 1) (h * 16 + v)
    | none => .ok 0

/-- `parse_hex4`. -/
def parseHex4 (content : List Byte) (input : ℕ) : Except Fault ℕ := parseHexLoop content 4 input 0

/-- The bytes of a code point. -/
def utf8Bytes (codepoint : ℕ) : List Byte :=
  if codepoint < 0x80 then [codepoint.toUInt8]
  else if codepoint < 0x800 then
    [(0xC0 + codepoint / 64).toUInt8, (0x80 + codepoint % 64).toUInt8]
  else if codepoint < 0x10000 then
    [(0xE0 + codepoint / 4096).toUInt8, (0x80 + codepoint / 64 % 64).toUInt8,
      (0x80 + codepoint % 64).toUInt8]
  else
    [(0xF0 + codepoint / 262144).toUInt8, (0x80 + codepoint / 4096 % 64).toUInt8,
      (0x80 + codepoint / 64 % 64).toUInt8, (0x80 + codepoint % 64).toUInt8]

/-- `utf16_literal_to_utf8`: the bytes written and the length of the literal. -/
def utf16LiteralToUtf8 (content : List Byte) (inputPointer inputEnd : ℕ) :
    Except Fault (Option (List Byte × ℕ)) :=
  if inputEnd < inputPointer + 6 then .ok none
  else do
    let firstCode ← parseHex4 content (inputPointer + 2)
    if 0xDC00 ≤ firstCode ∧ firstCode ≤ 0xDFFF then .ok none
    else if 0xD800 ≤ firstCode ∧ firstCode ≤ 0xDBFF then
      if inputEnd < inputPointer + 12 then .ok none
      else
        let b ← byteAt content (inputPointer + 6)
        if b ≠ 92 then .ok none
        else
          let u ← byteAt content (inputPointer + 7)
          if u ≠ ch 'u' then .ok none
          else
            let secondCode ← parseHex4 content (inputPointer + 8)
            if secondCode < 0xDC00 ∨ 0xDFFF < secondCode then .ok none
            else .ok (some (utf8Bytes (0x10000 + firstCode % 1024 * 1024 + secondCode % 1024), 12))
    else .ok (some (utf8Bytes firstCode, 6))

/-- The first loop of `parse_string`, behind the opening quote: the number of bytes before the
closing one and the number of escapes. -/
def scanString : List Byte → Option (ℕ × ℕ)
  | [] => none
  | b :: t =>
    if b = 34 then some (0, 0)
    else if b = 92 then
      match t with
      | [] => none
      | _ :: t => (scanString t).map fun x => (x.1 + 2, x.2 + 1)
    else (scanString t).map fun x => (x.1 + 1, x.2)

/-- The byte that a two-character escape stands for. -/
def unescape (b : Byte) : Option Byte :=
  if b = ch 'b' then some 8
  else if b = ch 'f' then some 12
  else if b = ch 'n' then some 10
  else if b = ch 'r' then some 13
  else if b = ch 't' then some 9
  else if b = 34 ∨ b = 92 ∨ b = ch '/' then some b
  else none

/-- A write to the output, of which `size` bytes were allocated. -/
def put (size : ℕ) (output bytes : List Byte) : Except Fault (List Byte) :=
  if output.length + bytes.length ≤ size then .ok (output ++ bytes) else .error .write

/-- The second loop of `parse_string`; `fuel` bounds its turns. The output, if the escapes are
right, and `input_pointer`. The test `input_end - input_pointer < 1` of the source is always
false. -/
def stringLoop (content : List Byte) (inputEnd size : ℕ) :
    ℕ → ℕ → List Byte → Except Fault (Option (List Byte) × ℕ)
  | fuel, inputPointer, output =>
    if inputEnd ≤ inputPointer then .ok (some output, inputPointer)
    else
      match fuel with
      | 0 => .error .spin
      | fuel + 1 => do
        let b ← byteAt content inputPointer
        if b ≠ 92 then
          let output ← put size output [b]
          stringLoop content inputEnd size fuel (inputPointer + 1) output
        else
          let x ← byteAt content (inputPointer + 1)
          match unescape x with
          | some c =>
            let output ← put size output [c]
            stringLoop content inputEnd size fuel (inputPointer + 2) output
          | none =>
            if x ≠ ch 'u' then .ok (none, inputPointer)
            else
              match ← utf16LiteralToUtf8 content inputPointer inputEnd with
              | none => .ok (none, inputPointer)
              | some (bytes, sequenceLength) =>
                let output ← put size output bytes
                stringLoop content inputEnd size fuel (inputPointer + sequenceLength) output

section Parse
variable {ν : Type} (content : List Byte) (alloc : ℕ → Bool) (round : ℚ → ν)

/-- `parse_string`: the string that `valuestring` points to. -/
def parseString (s : ParseBuffer) : Except Fault (Option (List Byte) × ParseBuffer) := do
  let quote ← byteAt content s.offset
  if quote ≠ 34 then .ok (none, { s with offset := s.offset + 1 })
  else
    match scanString (content.drop (s.offset + 1)) with
    | none => .ok (none, { s with offset := s.offset + 1 })
    | some (length, skippedBytes) =>
      let inputEnd := s.offset + 1 + length
      let allocationLength := inputEnd - s.offset - skippedBytes
      if alloc s.allocs = false then .ok (none, ⟨s.offset + 1, s.allocs + 1⟩)
      else
        match ← stringLoop content inputEnd (allocationLength + 1) length (s.offset + 1) [] with
        | (none, inputPointer) => .ok (none, ⟨inputPointer, s.allocs + 1⟩)
        | (some output, _) =>
          let output ← put (allocationLength + 1) output [0]
          .ok (some (cstr output), ⟨inputEnd + 1, s.allocs + 1⟩)

/-- `parse_number`. -/
def parseNumber (s : ParseBuffer) : Parsed (Item ν) :=
  let numberCString := (content.drop s.offset).takeWhile isNumberChar
  if alloc s.allocs = false then .ok (none, { s with allocs := s.allocs + 1 })
  else
    match strtod numberCString with
    | none => .ok (none, { s with allocs := s.allocs + 1 })
    | some (number, afterEnd) =>
      .ok (some (.number (round number)),
        ⟨s.offset + (numberCString.length - afterEnd.length), s.allocs + 1⟩)

/-- `buffer_skip_whitespace`, `step` bytes on. -/
def skip (step : ℕ) (s : ParseBuffer) : ParseBuffer :=
  { s with offset := bufferSkipWhitespace content (s.offset + step) }

/-- What follows an element of an array or an object: a comma and the next one, or the end. -/
def afterElement {α : Type} (close : Byte) (next : ParseBuffer → Parsed α) (done : α)
    (s : ParseBuffer) : Parsed α :=
  let s := skip content 0 s
  if at? content s.offset (ch ',') then next s
  else if at? content s.offset close then .ok (some done, { s with offset := s.offset + 1 })
  else .ok (none, s)

/-- The loop of `parse_array`; the offset is in front of the next element, `child` are the elements
so far. -/
def arrayLoop (parseValue : ParseBuffer → Parsed (Item ν)) :
    ℕ → List (Item ν) → ParseBuffer → Except Fault (Option (List (Item ν)) × ParseBuffer)
  | 0, _, _ => .error .spin
  | fuel + 1, child, s =>
    if alloc s.allocs = false then .ok (none, { s with allocs := s.allocs + 1 })
    else do
      match ← parseValue (skip content 1 { s with allocs := s.allocs + 1 }) with
      | (none, s) => .ok (none, s)
      | (some x, s) =>
        afterElement content (ch ']') (arrayLoop parseValue fuel (child ++ [x])) (child ++ [x]) s

/-- The loop of `parse_object`. -/
def objectLoop (parseValue : ParseBuffer → Parsed (Item ν)) :
    ℕ → List (List Byte × Item ν) → ParseBuffer →
      Except Fault (Option (List (List Byte × Item ν)) × ParseBuffer)
  | 0, _, _ => .error .spin
  | fuel + 1, child, s =>
    if alloc s.allocs = false then .ok (none, { s with allocs := s.allocs + 1 })
    else if content.length ≤ s.offset + 1 then .ok (none, { s with allocs := s.allocs + 1 })
    else do
      match ← parseString content alloc (skip content 1 { s with allocs := s.allocs + 1 }) with
      | (none, s) => .ok (none, s)
      | (some name, s) =>
        let s := skip content 0 s
        if at? content s.offset (ch ':') = false then .ok (none, s)
        else
          match ← parseValue (skip content 1 s) with
          | (none, s) => .ok (none, s)
          | (some x, s) =>
            afterElement content (ch '}') (objectLoop parseValue fuel (child ++ [(name, x)]))
              (child ++ [(name, x)]) s

/-- What `parse_array` and `parse_object` share: behind the opening bracket an end, or elements. -/
def parseNested {α : Type} (close : Byte) (loop : ParseBuffer → Parsed (List α)) (s : ParseBuffer) :
    Parsed (List α) :=
  let s := skip content 1 s
  if at? content s.offset close then .ok (some [], { s with offset := s.offset + 1 })
  else if content.length ≤ s.offset then .ok (none, { s with offset := s.offset - 1 })
  else loop { s with offset := s.offset - 1 }

/-- A value is an array or an object with these children. -/
def wrap {α : Type} (f : List α → Item ν) (x : Parsed (List α)) : Parsed (Item ν) :=
  x.map fun y => (y.1.map f, y.2)

/-- `parse_value`; `deeper` parses the values of the next level, if the limit allows one. -/
def parseValueWith (deeper : Option (ParseBuffer → Parsed (Item ν))) (s : ParseBuffer) :
    Parsed (Item ν) :=
  let go (n : ℕ) : ParseBuffer := { s with offset := s.offset + n }
  if reads content s.offset (ascii ['n', 'u', 'l', 'l']) then .ok (some .null, go 4)
  else if reads content s.offset (ascii ['f', 'a', 'l', 's', 'e']) then
    .ok (some (.bool false), go 5)
  else if reads content s.offset (ascii ['t', 'r', 'u', 'e']) then .ok (some (.bool true), go 4)
  else
    match content[s.offset]? with
    | none => .ok (none, s)
    | some b =>
      if b = 34 then
        (parseString content alloc s).map fun x => (x.1.map .string, x.2)
      else if b = ch '-' ∨ isDigit b then parseNumber content alloc round s
      else if b = ch '[' then
        match deeper with
        | none => .ok (none, s)
        | some parseValue => wrap .array
            (parseNested content (ch ']') (arrayLoop content alloc parseValue content.length []) s)
      else if b = ch '{' then
        match deeper with
        | none => .ok (none, s)
        | some parseValue => wrap .object
            (parseNested content (ch '}') (objectLoop content alloc parseValue content.length []) s)
      else .ok (none, s)

/-- `parse_value`, with so many levels left. -/
def parseValue : ℕ → ParseBuffer → Parsed (Item ν)
  | 0 => parseValueWith content alloc round none
  | n + 1 => parseValueWith content alloc round (some (parseValue n))

/-- `cJSON_ParseWithLengthOpts`: the item, and `return_parse_end` as an offset. -/
def parseWithLengthOpts (requireNullTerminated : Bool) : Except Fault (Option (Item ν) × ℕ) :=
  let fail (offset : ℕ) : Option (Item ν) × ℕ := (none, min offset (content.length - 1))
  if content.length = 0 then .ok (none, 0)
  else if alloc 0 = false then .ok (fail 0)
  else do
    match ← parseValue content alloc round cjsonNestingLimit
        ⟨bufferSkipWhitespace content (skipUtf8Bom content), 1⟩ with
    | (none, s) => .ok (fail s.offset)
    | (some item, s) =>
      if requireNullTerminated then
        let s := skip content 0 s
        if at? content s.offset 0 then .ok (some item, s.offset) else .ok (fail s.offset)
      else .ok (some item, s.offset)

/-- `cJSON_Parse`, of the string `value`. -/
def parse (value : List Byte) : Except Fault (Option (Item ν)) :=
  (parseWithLengthOpts (cstr value ++ [0]) alloc round false).map Prod.fst

end Parse

/-! ### Members -/

/-- `tolower`, of a byte. -/
def tolower (b : Byte) : Byte := if ch 'A' ≤ b ∧ b ≤ ch 'Z' then b + 32 else b

/-- `case_insensitive_strcmp` is zero. -/
def caseInsensitiveEq : List Byte → List Byte → Bool
  | [], [] => true
  | a :: s, b :: t => tolower a = tolower b ∧ caseInsensitiveEq s t
  | _, _ => false

/-- `get_object_item`. The elements of an array have no name. -/
def getObjectItem {ν : Type} (object : Item ν) (name : List Byte) (caseSensitive : Bool) :
    Option (Item ν) :=
  match object with
  | .object child =>
    (child.find? fun m =>
      if caseSensitive then name = m.1 else caseInsensitiveEq name m.1).map Prod.snd
  | _ => none

end Serie.Model.JsonParse
