import Serie.Model.JsonParse
import Serie.Model.Logg

/-! # Printing into memory

The printer of `cJSON.c` with its `printbuffer`: `ensure` makes room, what is written goes to the
block, and `update_offset` looks for the null byte behind it. A write behind the end of the block,
or a search that finds no null byte in it, is a fault. Whether an allocation succeeds and what new
memory holds is told by its number. The numbers are whole and have at most 15 digits, so that every
branch of `print_number` writes the digits. -/

namespace Serie.Model.JsonPrint

open Serie.Lib.CText Serie.Model.CJson Serie.Model.JsonParse Serie.Model.Logg

/-- `INT_MAX`. -/
def intMax : ℕ := 2147483647

/-- What is fixed while an item is printed: the answers of the allocator, what new memory holds,
whether the hooks have `reallocate`, and `noalloc` and `format` of the buffer. -/
structure Printer where
  alloc : ℕ → Bool
  fill : ℕ → ℕ → Byte
  reallocate : Bool
  noalloc : Bool
  format : Bool

/-- `printbuffer`; `buffer` is the block, `calls` counts the calls of the allocator and `live` the
blocks that were not freed. -/
structure PrintBuffer where
  buffer : Option (List Byte)
  length : ℕ
  offset : ℕ
  depth : ℕ
  calls : ℕ
  live : ℤ

/-- What must not happen: a write or a read outside the block. -/
inductive PrintFault where
  | write
  | read
deriving DecidableEq, Repr

/-- A call of the printer: whether it succeeds, and the buffer behind it. -/
abbrev Printed := Except PrintFault (Bool × PrintBuffer)

section Buffer
variable (e : Printer)

/-- `ensure`: the place to write to, if there is room. -/
def ensure (needed : ℕ) (p : PrintBuffer) : Except PrintFault (Option ℕ × PrintBuffer) :=
  match p.buffer with
  | none => .ok (none, p)
  | some mem =>
    if 0 < p.length ∧ p.length ≤ p.offset then .ok (none, p)
    else if intMax < needed then .ok (none, p)
    else
      let needed := needed + (p.offset + 1)
      if needed ≤ p.length then .ok (some p.offset, p)
      else if e.noalloc then .ok (none, p)
      else if intMax < needed then .ok (none, p)
      else
        let newsize := if intMax / 2 < needed then intMax else needed * 2
        if e.alloc p.calls = false then
          .ok (none, { p with
            buffer := none
            length := 0
            calls := p.calls + 1
            live := p.live - 1 })
        else if e.reallocate then
          .ok (some p.offset, { p with
            buffer := some (grow mem newsize (e.fill p.calls))
            length := newsize
            calls := p.calls + 1 })
        -- `memcpy` of what was written so far
        else if mem.length < p.offset + 1 then .error .read
        else
          .ok (some p.offset, { p with
            buffer := some (grow (mem.take (p.offset + 1)) newsize (e.fill p.calls))
            length := newsize
            calls := p.calls + 1 })

/-- A write to the block. -/
def poke (pos : ℕ) (bytes : List Byte) (p : PrintBuffer) : Except PrintFault PrintBuffer :=
  match p.buffer with
  | none => .error .write
  | some mem =>
    if mem.length < pos + bytes.length then .error .write
    else .ok { p with buffer := some (store mem pos bytes) }

/-- The writes `writes`, from the place `pos` on. -/
def pokes (pos : ℕ) : List (ℕ × List Byte) → PrintBuffer → Except PrintFault PrintBuffer
  | [], p => .ok p
  | (i, bytes) :: writes, p =>
    match poke (pos + i) bytes p with
    | .error f => .error f
    | .ok p => pokes pos writes p

/-- The pattern of the printer: `ensure`, a return without room, the writes, and a new offset. -/
def put (needed : ℕ) (writes : List (ℕ × List Byte)) (advance : ℕ) (p : PrintBuffer) : Printed :=
  match ensure e needed p with
  | .error f => .error f
  | .ok (none, p) => .ok (false, p)
  | .ok (some pos, p) =>
    match pokes pos writes p with
    | .error f => .error f
    | .ok p => .ok (true, { p with offset := p.offset + advance })

end Buffer

/-- `update_offset`. -/
def updateOffset (p : PrintBuffer) : Printed :=
  match p.buffer with
  | none => .ok (true, p)
  | some mem =>
    if 0 ∈ mem.drop p.offset then
      .ok (true, { p with offset := p.offset + (cstr (mem.drop p.offset)).length })
    else .error .read

/-- One call after the other, unless the first one fails. -/
def seq (first next : PrintBuffer → Printed) (p : PrintBuffer) : Printed :=
  match first p with
  | .error f => .error f
  | .ok (false, p) => .ok (false, p)
  | .ok (true, p) => next p

/-- Nothing is printed. -/
def skipped (p : PrintBuffer) : Printed := .ok (true, p)

/-- `depth++`, unless nesting is too deep; `print` is the call before it. -/
def enter (print : PrintBuffer → Printed) (p : PrintBuffer) : Printed :=
  if cjsonNestingLimit ≤ p.depth then .ok (false, p)
  else seq print (fun p => .ok (true, { p with depth := p.depth + 1 })) p

/-- `depth--`. -/
def leave (p : PrintBuffer) : Printed := .ok (true, { p with depth := p.depth - 1 })

section Values
variable (e : Printer)

/-- `print_number`, on the text that `sprintf` leaves in `number_buffer`. -/
def printNumber (n : ℤ) (p : PrintBuffer) : Printed :=
  let numberBuffer := CJson.printNumber n
  let length := numberBuffer.length
  if 25 < length then .ok (false, p)
  else put e (length + 1) [(0, numberBuffer ++ [0])] length p

/-- The characters that an escape adds to a byte. -/
def escapeCharacters (b : Byte) : ℕ :=
  if b = 34 ∨ b = 92 ∨ b = 8 ∨ b = 12 ∨ b = 10 ∨ b = 13 ∨ b = 9 then 1
  else if b < 32 then 5
  else 0

/-- `print_string_ptr`. -/
def printStringPtr (s : List Byte) (p : PrintBuffer) : Printed :=
  let input := cstr s
  let escapes := (input.map escapeCharacters).sum
  let outputLength := input.length + escapes
  if escapes = 0 then
    put e (outputLength + 3) [(0, [34]), (1, input), (outputLength + 1, [34, 0])] 0 p
  else
    put e (outputLength + 3) [(0, [34]), (1, input.flatMap printByte),
      (outputLength + 1, [34, 0])] 0 p

/-- The comma behind an element. -/
def comma : PrintBuffer → Printed :=
  let length := if e.format then 2 else 1
  put e (length + 1) [(0, ch ',' :: ((if e.format then [ch ' '] else []) ++ [0]))] length

/-- The tabs before a name. -/
def tabs (p : PrintBuffer) : Printed :=
  if e.format then put e p.depth [(0, List.replicate p.depth (ch '\t'))] p.depth p else skipped p

/-- The colon behind a name. -/
def colon : PrintBuffer → Printed :=
  let length := if e.format then 2 else 1
  put e length [(0, ch ':' :: if e.format then [ch '\t'] else [])] length

/-- What comes behind a member; `next` says whether there is another one. -/
def memberEnd (next : Bool) : PrintBuffer → Printed :=
  let length := (if e.format then 1 else 0) + if next then 1 else 0
  put e (length + 1) [(0, (if next then [ch ','] else []) ++
    ((if e.format then [ch '\n'] else []) ++ [0]))] length

/-- The bracket in front of the members. -/
def objectBegin : PrintBuffer → Printed :=
  let length := if e.format then 2 else 1
  put e (length + 1) [(0, ch '{' :: if e.format then [ch '\n'] else [])] length

/-- The bracket behind the members. -/
def objectEnd (p : PrintBuffer) : Printed :=
  put e (if e.format then p.depth + 1 else 2)
    [(0, (if e.format then List.replicate (p.depth - 1) (ch '\t') else []) ++ [ch '}', 0])] 0 p

/-- `print_array`, around the loop over the elements. -/
def printArray (elements : PrintBuffer → Printed) : PrintBuffer → Printed :=
  seq (enter (put e 1 [(0, [ch '['])] 1))
    (seq elements (seq (put e 2 [(0, [ch ']', 0])] 0) leave))

/-- `print_object`, around the loop over the members. -/
def printObject (members : PrintBuffer → Printed) : PrintBuffer → Printed :=
  seq (enter (objectBegin e)) (seq members (seq (objectEnd e) leave))

mutual

/-- `print_value`. -/
def printValue : Item ℤ → PrintBuffer → Printed
  | .null => put e 5 [(0, ascii ['n', 'u', 'l', 'l'] ++ [0])] 0
  | .bool false => put e 6 [(0, ascii ['f', 'a', 'l', 's', 'e'] ++ [0])] 0
  | .bool true => put e 5 [(0, ascii ['t', 'r', 'u', 'e'] ++ [0])] 0
  | .number n => printNumber e n
  | .string s => printStringPtr e s
  | .array l => printArray e (printElements l)
  | .object l => printObject e (printMembers l)

/-- The loop over the elements. -/
def printElements : List (Item ℤ) → PrintBuffer → Printed
  | [] => skipped
  | x :: l => seq (printValue x) (seq updateOffset
      (seq (if l.isEmpty then skipped else comma e) (printElements l)))

/-- The loop over the members. -/
def printMembers : List (List Byte × Item ℤ) → PrintBuffer → Printed
  | [] => skipped
  | (name, x) :: l => seq (tabs e) (seq (printStringPtr e name) (seq updateOffset
      (seq (colon e) (seq (printValue x) (seq updateOffset
        (seq (memberEnd e (!l.isEmpty)) (printMembers l)))))))

end

/-- The buffer around a block. -/
def bufferOf (mem : List Byte) (calls : ℕ) : PrintBuffer := ⟨some mem, mem.length, 0, 0, calls, 1⟩

/-- The failure of `print`: the block is freed, if there is still one. -/
def printFail (p : PrintBuffer) : Option (List Byte) × ℤ :=
  (none, if p.buffer = none then p.live else p.live - 1)

/-- `print`: the block that it returns, and the number of blocks that were not freed. -/
def print (x : Item ℤ) : Except PrintFault (Option (List Byte) × ℤ) :=
  if e.alloc 0 = false then .ok (none, 0)
  else
    match seq (printValue e x) updateOffset (bufferOf (grow [] 256 (e.fill 0)) 1) with
    | .error f => .error f
    | .ok (false, p) => .ok (printFail p)
    | .ok (true, p) =>
      match p.buffer with
      | none => .error .read
      | some mem =>
        if e.alloc p.calls = false then .ok (printFail p)
        else if e.reallocate then
          .ok (some (grow mem (p.offset + 1) (e.fill p.calls)), p.live)
        else
          let printed := grow (mem.take (min p.length (p.offset + 1))) (p.offset + 1)
            (e.fill p.calls)
          -- the new block is there, and the old one is freed
          .ok (some (store printed p.offset [0]), p.live + 1 - 1)

/-- `cJSON_PrintBuffered`, on a block of `prebuffer` bytes. -/
def printBuffered (prebuffer : ℤ) (x : Item ℤ) : Except PrintFault (Option (List Byte) × ℤ) :=
  if prebuffer < 0 then .ok (none, 0)
  else if e.alloc 0 = false then .ok (none, 0)
  else
    match printValue e x (bufferOf (grow [] prebuffer.toNat (e.fill 0)) 1) with
    | .error f => .error f
    | .ok (false, p) => .ok (printFail p)
    | .ok (true, p) => .ok (p.buffer, p.live)

/-- `cJSON_PrintPreallocated`, on the block of the caller. -/
def printPreallocated (buffer : List Byte) (x : Item ℤ) : Printed :=
  printValue { e with noalloc := true } x (bufferOf buffer 0)

end Values

end Serie.Model.JsonPrint
