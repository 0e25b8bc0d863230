import Serie.Json.Item
import Serie.Lib.Separation
import Serie.Model.Logg

/-! # Items in memory

The functions of `cJSON.c` that the logger calls and the logger itself, on blocks of memory: an item
is a node with its links, its strings are blocks of their own. `ok` says what the allocator answers
to its calls, one after the other. A block that was freed is never used again, so every use of it is
a fault, and so is a second `free`. While `cJSON_PrintUnformatted` prints, its buffer is a block of
its own (`Model.JsonPrint`); here it reads the item and returns the text, or fails. -/

namespace Serie.Model.JsonHeap

open Serie.Lib.CText Serie.Lib.Separation Serie.Model.Record Serie.Model.Table Serie.Model.CJson
open Serie.Model.JsonParse Serie.Model.Logg

/-- A pointer; `NULL` is `none`. -/
abbrev Ptr := Option ℕ

/-- The type of an item, without its flags. -/
inductive Kind where
  | invalid
  | null
  | bool (b : Bool)
  | number
  | string
  | array
  | object
deriving DecidableEq, Repr

/-- `cJSON`. The numbers are whole, and `number` is the value of `valueint` and `valuedouble`. -/
structure Node where
  next : Ptr
  prev : Ptr
  child : Ptr
  kind : Kind
  isReference : Bool
  stringIsConst : Bool
  valuestring : Ptr
  number : ℤ
  string : Ptr
deriving DecidableEq, Repr

/-- The node that `memset` leaves. -/
def Node.zero : Node := ⟨none, none, none, .invalid, false, false, none, 0, none⟩

/-- A block: an item, or bytes. -/
inductive Cell where
  | item (n : Node)
  | text (s : List Byte)
deriving DecidableEq, Repr

/-- What goes wrong apart from the use of a block that was freed: a `NULL` pointer is followed, a
block is used as what it is not, a write leaves its block, an item without a type is printed, a slot
is read that must not be, or the fuel ends. -/
inductive Wrong where
  | null
  | mixed
  | outside
  | invalid
  | slot (e : FdFault)
  | fuel
deriving DecidableEq, Repr

/-- Programs over these blocks. -/
abbrev Code := Prog Cell Wrong

/-! ### Blocks -/

/-- The item at an address. -/
def loadItem (a : ℕ) : Code Node := do
  match ← load a with
  | .item n => pure n
  | .text _ => raise .mixed

/-- The bytes at an address. -/
def loadText (a : ℕ) : Code (List Byte) := do
  match ← load a with
  | .text s => pure s
  | .item _ => raise .mixed

/-- The item at an address is changed. -/
def storeItem (a : ℕ) (n : Node) : Code Unit := store a (.item n)

/-- `free`. -/
def freePtr (p : Ptr) : Code Unit :=
  match p with
  | none => pure ()
  | some a => free a

/-- Bytes are written into a block. -/
def writeText (a pos : ℕ) (bytes : List Byte) : Code Unit := do
  let mem ← loadText a
  if mem.length < pos + bytes.length then raise .outside
  else store a (.text (Logg.store mem pos bytes))

/-! ### `cJSON.c` -/

/-- The end of `valuestring` in `cJSON_Delete`. -/
def deleteValuestring (a : ℕ) (item : Node) : Code Node :=
  match item.isReference, item.valuestring with
  | false, some s => do
    free s
    storeItem a { item with valuestring := none }
    pure { item with valuestring := none }
  | _, _ => pure item

/-- The end of `string` in `cJSON_Delete`. -/
def deleteString (a : ℕ) (item : Node) : Code Node :=
  match item.stringIsConst, item.string with
  | false, some s => do
    free s
    storeItem a { item with string := none }
    pure { item with string := none }
  | _, _ => pure item

/-- `cJSON_Delete`. -/
def delete : ℕ → Ptr → Code Unit
  | _, none => pure ()
  | 0, some _ => raise .fuel
  | fuel + 1, some a => do
    let item ← loadItem a
    let next := item.next
    delete fuel (if item.isReference then none else item.child)
    let item ← deleteValuestring a item
    let _ ← deleteString a item
    free a
    delete fuel next

/-- `suffix_object`. -/
def suffixObject (prev item : ℕ) : Code Unit := do
  let p ← loadItem prev
  storeItem prev { p with next := some item }
  let i ← loadItem item
  storeItem item { i with prev := some prev }

/-- `add_item_to_array`. -/
def addItemToArray (array item : Ptr) : Code Bool :=
  match array, item with
  | some array, some item =>
    if array = item then pure false
    else do
      let arr ← loadItem array
      match arr.child with
      | none =>
        storeItem array { arr with child := some item }
        let i ← loadItem item
        storeItem item { i with prev := some item, next := none }
        pure true
      | some child =>
        let c ← loadItem child
        match c.prev with
        | none => pure true
        | some prev =>
          suffixObject prev item
          let c ← loadItem child
          storeItem child { c with prev := some item }
          pure true
  | _, _ => pure false

section Answers
variable (ok : ℕ → Bool) (fuel : ℕ)

/-- `cJSON_New_Item`. -/
def newItem : Code Ptr := alloc ok fun _ => .item Node.zero

/-- `cJSON_strdup`. -/
def strdup (string : Option (List Byte)) : Code Ptr :=
  match string with
  | none => pure none
  | some s => alloc ok fun _ => .text (cstr s ++ [0])

/-- `add_item_to_object`, with a key that is copied. -/
def addItemToObject (object : Ptr) (string : List Byte) (item : Ptr) : Code Bool :=
  match object, item with
  | some object, some item =>
    if object = item then pure false
    else do
      match ← strdup ok (some string) with
      | none => pure false
      | some newKey =>
        let i ← loadItem item
        freePtr (if i.stringIsConst then none else i.string)
        storeItem item { i with string := some newKey, stringIsConst := false }
        addItemToArray (some object) (some item)
  | _, _ => pure false

/-- The pattern of the functions that create an item. -/
def createItem (n : Node) : Code Ptr := do
  match ← newItem ok with
  | none => pure none
  | some a =>
    storeItem a n
    pure (some a)

/-- `cJSON_CreateNumber`. -/
def createNumber (num : ℤ) : Code Ptr :=
  createItem ok { Node.zero with kind := .number, number := num }

/-- `cJSON_CreateBool`. -/
def createBool (boolean : Bool) : Code Ptr := createItem ok { Node.zero with kind := .bool boolean }

/-- `cJSON_CreateArray`. -/
def createArray : Code Ptr := createItem ok { Node.zero with kind := .array }

/-- `cJSON_CreateObject`. -/
def createObject : Code Ptr := createItem ok { Node.zero with kind := .object }

/-- `cJSON_CreateString`. -/
def createString (string : Option (List Byte)) : Code Ptr := do
  match ← createItem ok { Node.zero with kind := .string } with
  | none => pure none
  | some item =>
    match ← strdup ok string with
    | none =>
      delete fuel (some item)
      pure none
    | some s =>
      storeItem item { Node.zero with kind := .string, valuestring := some s }
      pure (some item)

/-- The pattern of the functions that create an item and add it to an object. -/
def addToObject (object : Ptr) (name : String) (create : Code Ptr) : Code Ptr := do
  let item ← create
  if ← addItemToObject ok object (name.toList.map ch) item then pure item
  else
    delete fuel item
    pure none

/-- `cJSON_AddNumberToObject`. -/
def addNumberToObject (object : Ptr) (name : String) (number : ℤ) : Code Ptr :=
  addToObject ok fuel object name (createNumber ok number)

/-- `cJSON_AddBoolToObject`. -/
def addBoolToObject (object : Ptr) (name : String) (boolean : Bool) : Code Ptr :=
  addToObject ok fuel object name (createBool ok boolean)

/-- `cJSON_AddStringToObject`. -/
def addStringToObject (object : Ptr) (name : String) (string : Option (List Byte)) : Code Ptr :=
  addToObject ok fuel object name (createString ok fuel string)

/-- The string in a slot, or `NULL`. -/
def slotString (strings : List Slot) (i : ℕ) : Code (Option (List Byte)) :=
  match strings[i]? with
  | none => raise (.slot .outside)
  | some .unset => raise (.slot .unset)
  | some .null => pure none
  | some (.str _ target) => pure (some target)

/-- The item `x` gets its place in the array `a`, behind the item `p`. -/
def linkString (a x : ℕ) (p : Ptr) : Code Unit :=
  match p with
  | none => do
    let arr ← loadItem a
    storeItem a { arr with child := some x }
  | some p => suffixObject p x

/-- The loop of `cJSON_CreateStringArray` from slot `i` on, of which `n` are left; `p` is the item
before. It returns the last item, if it did not fail. -/
def stringItems (strings : List Slot) (a : ℕ) : ℕ → ℕ → Ptr → Code (Option Ptr)
  | 0, _, p => pure (some p)
  | n + 1, i, p => do
    let string ← slotString strings i
    match ← createString ok fuel string with
    | none =>
      delete fuel (some a)
      pure none
    | some x =>
      linkString a x p
      stringItems strings a n (i + 1) (some x)

/-- `a->child->prev = n`, where `a->child` is not `NULL`. -/
def linkLast (a : ℕ) (n : Ptr) : Code Unit := do
  let arr ← loadItem a
  match arr.child with
  | none => pure ()
  | some c =>
    let first ← loadItem c
    storeItem c { first with prev := n }

/-- `cJSON_CreateStringArray`. -/
def createStringArray (strings : Option (List Slot)) (count : ℤ) : Code Ptr :=
  match strings with
  | none => pure none
  | some strings =>
    if count < 0 then pure none
    else do
      match ← createArray ok with
      | none => pure none
      | some a =>
        match ← stringItems ok fuel strings a count.toNat 0 none with
        | none => pure none
        | some n =>
          linkLast a n
          pure (some a)

/-- A string as the printer reads it: `NULL` is the empty string. -/
def readText (p : Ptr) : Code (List Byte) :=
  match p with
  | none => pure []
  | some a => do
    let s ← loadText a
    pure (cstr s)

mutual

/-- What `print_value` reads of an item. -/
def readValue : ℕ → ℕ → Code (Item ℤ)
  | 0, _ => raise .fuel
  | fuel + 1, a => do
    let n ← loadItem a
    match n.kind with
    | .invalid => raise .invalid
    | .null => pure .null
    | .bool b => pure (.bool b)
    | .number => pure (.number n.number)
    | .string =>
      let s ← readText n.valuestring
      pure (.string s)
    | .array =>
      let l ← readChildren fuel false n.child
      pure (.array (l.map Prod.snd))
    | .object =>
      let l ← readChildren fuel true n.child
      pure (.object l)

/-- What `print_array` and `print_object` read of the children; the names are read in an object. -/
def readChildren : ℕ → Bool → Ptr → Code (List (List Byte × Item ℤ))
  | _, _, none => pure []
  | 0, _, some _ => raise .fuel
  | fuel + 1, named, some a => do
    let n ← loadItem a
    let name ← readText (if named then n.string else none)
    let x ← readValue fuel a
    let l ← readChildren fuel named n.next
    pure ((name, x) :: l)

end

/-- `cJSON_PrintUnformatted`; it fails for `NULL`. -/
def printUnformatted (item : Ptr) : Code Ptr :=
  match item with
  | none => pure none
  | some a => do
    let x ← readValue fuel a
    alloc ok fun _ => .text (Json.Item.text x ++ [0])

/-! ### `ser_logg.c` -/

/-- The text at a pointer, unless it is `NULL`. -/
def textAt (p : Ptr) : Code (Option (List Byte)) :=
  match p with
  | none => pure none
  | some a => do
    let s ← loadText a
    pure (some s)

/-- `logg_fd_paths_2_json`. -/
def loggFdPaths2Json (json : ℕ) (p : Proc) : Code Unit := do
  let arr ← createStringArray ok fuel p.fdPaths p.fdCoun
  let fdpa ← printUnformatted ok fuel arr
  let s ← textAt fdpa
  let _ ← addStringToObject ok fuel (some json) "fd_paths" s
  freePtr fdpa
  delete fuel arr

/-- The items before the paths, in the order of the calls. -/
def headItems (birth death : Clocks) (p : Proc) : List (String × Value) :=
  let btBuff := (loggTimeReso p.birthTime birth 64).2
  let dtBuff := if p.deathTime.tvSec ≠ 0 then (loggTimeReso p.deathTime death 64).2 else []
  [("pid", .number p.pid), ("real-uid", .number p.ruid), ("effective-uid", .number p.euid),
    ("read-gid", .number p.rgid), ("effective-gid", .number p.egid), ("name", .string p.name),
    ("parent-pid", .number p.ppid), ("birth-parent-pid", .number p.birthPpid),
    ("state", .string [p.state]), ("thread-gid", .number p.tgid), ("FD-count", .number p.fdCoun),
    ("birth-time", .string btBuff),
    ("death-time", .string (if deref dtBuff ≠ 0 then dtBuff else ascii "not dead".toList))]

/-- A link to another record. -/
def linkItem (s : State) (name : String) (link : Option Ref) : List (String × Value) :=
  match link with
  | none => []
  | some c => [(name, .number (s.heap c).pid)]

/-- The items behind the paths. -/
def tailItems (s : State) (p : Proc) : List (String × Value) :=
  ("alive", .bool p.alive) :: ("exit-code", .number p.exitCode) ::
    (linkItem s "first-child-pid" p.firsChil ++ linkItem s "next-sibling-pid" p.nextSibl)

/-- The call that adds an item. -/
def addItem (json : ℕ) (item : String × Value) : Code Ptr :=
  match item.2 with
  | .number n => addNumberToObject ok fuel (some json) item.1 n
  | .bool b => addBoolToObject ok fuel (some json) item.1 b
  | .string s => addStringToObject ok fuel (some json) item.1 (some s)

/-- The calls that add the items `items`. -/
def addItems (json : ℕ) : List (String × Value) → Code Unit
  | [] => pure ()
  | item :: items => do
    let _ ← addItem ok fuel json item
    addItems json items

/-- `logg_proc_2_json`. -/
def loggProc2Json (s : State) (birth death : Clocks) (p : Proc) (json : ℕ) : Code Unit := do
  addItems ok fuel json (headItems birth death p)
  loggFdPaths2Json ok fuel json p
  addItems ok fuel json (tailItems s p)

variable (fill : ℕ → ℕ → Byte)

/-- `realloc`: the new block, or `none`, and then the old one is still there. -/
def realloc (a size : ℕ) : Code Ptr := do
  let mem ← loadText a
  match ← alloc ok fun n => .text (grow mem size (fill n)) with
  | none => pure none
  | some t =>
    free a
    pure (some t)

/-- `logg_mem_writ`, with `json_buff` and `curr_len` behind the call. -/
def loggMemWrit (json jsonBuff currLen : ℕ) : Code (ℕ × ℕ) := do
  match ← printUnformatted ok fuel (some json) with
  | none => pure (jsonBuff, currLen)
  | some b =>
    let text ← loadText b
    let blen := (cstr text).length
    match ← realloc ok fill jsonBuff (currLen + blen + 2) with
    | none =>
      free b
      pure (jsonBuff, currLen)
    | some tmp =>
      writeText tmp currLen (cstr text ++ [0])
      writeText tmp (currLen + blen) [ch '\n']
      writeText tmp (currLen + blen + 1) [0]
      free b
      pure (tmp, currLen + (blen + 1))

/-- One record of a chain. -/
def loggProc (s : State) (birth death : Ref → Clocks) (r : Ref) (buff : ℕ × ℕ) : Code (ℕ × ℕ) := do
  match ← createObject ok with
  | none => pure buff
  | some j =>
    loggProc2Json ok fuel s (birth r) (death r) (s.heap r) j
    let buff ← loggMemWrit ok fuel fill j buff.1 buff.2
    delete fuel (some j)
    pure buff

/-- The loop over one chain. -/
def loggChain (s : State) (birth death : Ref → Clocks) : List Ref → ℕ × ℕ → Code (ℕ × ℕ)
  | [], buff => pure buff
  | curr :: next, buff => do
    let buff ← loggProc ok fuel fill s birth death curr buff
    loggChain s birth death next buff

/-- The loop over the buckets. -/
def loggBuckets (s : State) (birth death : Ref → Clocks) : List ℕ → ℕ × ℕ → Code (ℕ × ℕ)
  | [], buff => pure buff
  | i :: is, buff => do
    let buff ← loggChain ok fuel fill s birth death (s.buckets i) buff
    loggBuckets s birth death is buff

/-- `logg_proc_parse`: the text that `fputs` appends to the file, if the file can be opened. -/
def loggProcParse (s : State) (birth death : Ref → Clocks) (fopen : Bool) :
    Code (Option (List Byte)) := do
  match ← alloc ok fun n => .text [fill n 0] with
  | none => raise .null
  | some jsonBuff =>
    writeText jsonBuff 0 [0]
    let buff ← loggBuckets ok fuel fill s birth death (List.range 4096) (jsonBuff, 0)
    if fopen then
      let mem ← loadText buff.1
      free buff.1
      pure (some (cstr mem))
    else
      free buff.1
      pure none

end Answers

end Serie.Model.JsonHeap
