import Serie.Json.RoundTrip
import Serie.Model.Conn
import Serie.Model.Logg

/-! # A line of the log, read back

Whichever items fail to be added, the object of a record has its members under different names, even
if the case of letters is ignored, and its strings are C strings (`made_loggProc2Json`). So
`cJSON_Parse` makes the same object of its line, and every member is found again under its name
(`line_read`). The text under `fd_paths` is itself an array of JSON, which parses to the paths. -/

namespace Serie.Log.Line

open Serie.Lib.CText Serie.Model.Record Serie.Model.Table Serie.Model.Conn Serie.Model.CJson
open Serie.Model.JsonParse Serie.Model.Logg Serie.Json.Item Serie.Json.Scalars
open Serie.Json.RoundTrip

/-- The bytes of a name. -/
def nameBytes (name : String) : List Byte := name.toList.map ch

/-- The names of `logg_proc_2_json`, in the order of the calls. -/
def keys : List String :=
  ["pid", "real-uid", "effective-uid", "read-gid", "effective-gid", "name", "parent-pid",
    "birth-parent-pid", "state", "thread-gid", "FD-count", "birth-time", "death-time", "fd_paths",
    "alive", "exit-code", "first-child-pid", "next-sibling-pid"]

/-- The value holds a C string, if any. -/
def Stringy (v : Value) : Prop := ∀ t, v = .string t → 0 ∉ t

/-- The object was made by adding members under some of the names, in their order. -/
inductive Made : List String → Object → Prop
  | nil : Made [] []
  | skip {names : List String} {j : Object} (h : Made names j) (name : String) :
      Made (names ++ [name]) j
  | add {names : List String} {j : Object} {name : String} {v : Value} : Made names j →
      Stringy v → Made (names ++ [name]) (j ++ [(name, v)])

section Made
variable {names : List String} {j : Object} {name : String}

theorem Made.sublist (h : Made names j) : (j.map Prod.fst).Sublist names := by
  induction h with
  | nil => exact .slnil
  | skip _ _ ih => exact ih.trans (List.sublist_append_left _ _)
  | add _ _ ih =>
    rw [List.map_append]
    exact ih.append (List.Sublist.refl _)

theorem Made.stringy (h : Made names j) : ∀ m ∈ j, Stringy m.2 := by
  induction h with
  | nil => exact fun _ hm => by cases hm
  | skip _ _ ih => exact ih
  | add _ hv ih => exact List.forall_mem_append.mpr ⟨ih, List.forall_mem_singleton.mpr hv⟩

theorem Made.addNumber (h : Made names j) (name : String) (a : Bool) (n : ℤ) :
    Made (names ++ [name]) (addNumberToObject a j name n) := by
  unfold addNumberToObject
  split_ifs
  · exact h.add fun t ht => by cases ht
  · exact h.skip name

theorem Made.addBool (h : Made names j) (name : String) (a b : Bool) :
    Made (names ++ [name]) (addBoolToObject a j name b) := by
  unfold addBoolToObject
  split_ifs
  · exact h.add fun t ht => by cases ht
  · exact h.skip name

theorem Made.addString (h : Made names j) (name : String) (a : Bool) (s : Option (List Byte)) :
    Made (names ++ [name]) (addStringToObject a j name s) := by
  unfold addStringToObject
  rcases s with _ | s
  · exact h.skip name
  dsimp only
  split_ifs
  · refine h.add fun t ht => ?_
    cases ht
    exact notMem_cstr s
  · exact h.skip name

theorem made_loggHead (v : Visit) (p : Proc) : Made (keys.take 13) (loggHead v p) := by
  have hbirth := Made.nil
    |>.addNumber "pid" (v.item "pid") p.pid
    |>.addNumber "real-uid" (v.item "real-uid") p.ruid
    |>.addNumber "effective-uid" (v.item "effective-uid") p.euid
    |>.addNumber "read-gid" (v.item "read-gid") p.rgid
    |>.addNumber "effective-gid" (v.item "effective-gid") p.egid
    |>.addString "name" (v.item "name") (some p.name)
    |>.addNumber "parent-pid" (v.item "parent-pid") p.ppid
    |>.addNumber "birth-parent-pid" (v.item "birth-parent-pid") p.birthPpid
    |>.addString "state" (v.item "state") (some [p.state])
    |>.addNumber "thread-gid" (v.item "thread-gid") p.tgid
    |>.addNumber "FD-count" (v.item "FD-count") p.fdCoun
    |>.addString "birth-time" (v.item "birth-time") (some (loggTimeReso p.birthTime v.birth 64).2)
  unfold loggHead
  dsimp only
  split_ifs <;> exact hbirth.addString "death-time" _ _

theorem made_loggTail (h : Made (keys.take 14) j) (s : State) (v : Visit) (p : Proc) :
    Made keys (loggTail s v p j) := by
  have hexit := (h.addBool "alive" (v.item "alive") p.alive).addNumber "exit-code"
    (v.item "exit-code") p.exitCode
  unfold loggTail
  rcases p.firsChil with _ | c <;> rcases p.nextSibl with _ | d
  · exact (hexit.skip "first-child-pid").skip "next-sibling-pid"
  · exact (hexit.skip "first-child-pid").addNumber "next-sibling-pid" _ _
  · exact (hexit.addNumber "first-child-pid" _ _).skip "next-sibling-pid"
  · exact (hexit.addNumber "first-child-pid" _ _).addNumber "next-sibling-pid" _ _

/-- **The object of a record**, whichever items fail. -/
theorem made_loggProc2Json {s : State} {v : Visit} {p : Proc}
    (h : loggProc2Json s v p = .ok j) : Made keys j := by
  unfold loggProc2Json loggFdPaths2Json at h
  rcases hc : createStringArray v.array v.entry p.fdPaths p.fdCoun with e | arr <;> rw [hc] at h <;>
    cases h
  exact made_loggTail ((made_loggHead v p).addString "fd_paths" _ _) s v p

end Made

/-! ### Reading the line -/

/-- The names differ, even if the case of letters is ignored. -/
theorem keys_apart : keys.Nodup ∧ ∀ a ∈ keys, ∀ b ∈ keys,
    caseInsensitiveEq (nameBytes a) (nameBytes b) = true → a = b := by
  constructor <;> decide

theorem keys_clean : ∀ a ∈ keys, 0 ∉ nameBytes a := by decide

theorem caseInsensitiveEq_refl : ∀ s : List Byte, caseInsensitiveEq s s = true
  | [] => rfl
  | b :: s => by
    unfold caseInsensitiveEq
    simp [caseInsensitiveEq_refl s]

theorem find?_of_unique {α : Type} {l : List α} {P : α → Bool} {m : α} (hm : m ∈ l)
    (hP : P m = true) (h : ∀ x ∈ l, P x = true → x = m) : l.find? P = some m := by
  rcases hf : l.find? P with _ | x
  · exact absurd hP (List.find?_eq_none.mp hf m hm)
  · rw [h x (List.mem_of_find?_eq_some hf) (List.find?_some hf)]

section Read
variable {ν : Type} {j : Object} {s : State} {v : Visit} {p : Proc}

theorem clean_ofObject (h : Made keys j) : Clean (ofObject j) := by
  refine clean_object.mpr fun m hm => ?_
  obtain ⟨⟨name, v⟩, hn, rfl⟩ := List.mem_map.mp hm
  refine ⟨keys_clean name (h.sublist.subset (List.mem_map_of_mem hn)), fun t ht => ?_⟩
  cases v with
  | string u =>
    rw [List.mem_singleton.mp ht]
    exact h.stringy _ hn u rfl
  | number => cases ht
  | bool => cases ht

theorem depth_ofObject (j : Object) : depth (ofObject j) ≤ cjsonNestingLimit := by
  have hzero : ∀ v : Value, depth (ofValue v) = 0 := fun v => by cases v <;> rfl
  have hle : memberDepths (j.map fun m => (m.1.toList.map ch, ofValue m.2)) ≤ 0 := by
    refine memberDepths_le_iff.mpr fun m hm => ?_
    obtain ⟨m, -, rfl⟩ := List.mem_map.mp hm
    exact (hzero m.2).le
  rw [ofObject, depth]
  unfold cjsonNestingLimit
  omega

/-- **A member is found under its name**, whether the case of letters counts or not. -/
theorem getObjectItem_of_mem (h : Made keys j) (f : ℤ → ν) {name : String} {value : Value}
    (hm : (name, value) ∈ j) (caseSensitive : Bool) :
    getObjectItem (mapNumbers f (ofObject j)) (nameBytes name) caseSensitive =
      some (mapNumbers f (ofValue value)) := by
  have hkey : ∀ m ∈ j, m.1 ∈ keys := fun m hm => h.sublist.subset (List.mem_map_of_mem hm)
  have hnodup : (j.map Prod.fst).Nodup := h.sublist.nodup keys_apart.1
  have hsame : ∀ m ∈ j, (if caseSensitive then decide (nameBytes name = nameBytes m.1)
      else caseInsensitiveEq (nameBytes name) (nameBytes m.1)) = true → m = (name, value) := by
    intro m hmj hc
    have heq : caseInsensitiveEq (nameBytes name) (nameBytes m.1) = true := by
      cases caseSensitive with
      | true => rw [← of_decide_eq_true hc]; exact caseInsensitiveEq_refl _
      | false => exact hc
    have hname : name = m.1 := keys_apart.2 _ (hkey _ hm) _ (hkey _ hmj) heq
    exact List.inj_on_of_nodup_map hnodup hmj hm hname.symm
  have hself : (if caseSensitive then decide (nameBytes name = nameBytes name)
      else caseInsensitiveEq (nameBytes name) (nameBytes name)) = true := by
    cases caseSensitive with
    | true => simp
    | false => exact caseInsensitiveEq_refl _
  have hfind := find?_of_unique (P := fun m : String × Value => if caseSensitive
    then decide (nameBytes name = nameBytes m.1)
    else caseInsensitiveEq (nameBytes name) (nameBytes m.1)) hm hself hsame
  rw [ofObject, mapNumbers, mapMembers_eq, List.map_map, getObjectItem, List.find?_map,
    Option.map_map]
  exact congrArg (Option.map fun m : String × Value => mapNumbers f (ofValue m.2)) hfind

theorem mem_addNumber {a : Bool} {name : String} {n : ℤ} {m : String × Value}
    (h : m ∈ addNumberToObject a j name n) : m ∈ j ∨ m.1 = name := by
  unfold addNumberToObject at h
  split_ifs at h
  · exact (List.mem_append.mp h).imp_right fun hm => by rw [List.mem_singleton.mp hm]
  · exact Or.inl h

theorem mem_loggTail {m : String × Value} (h : m ∈ loggTail s v p j) :
    m ∈ j ∨ m.1 ≠ "fd_paths" := by
  have hnumber : ∀ {a : Bool} {name : String} {n : ℤ} {j' : Object}, name ≠ "fd_paths" →
      m ∈ addNumberToObject a j' name n → m ∈ j' ∨ m.1 ≠ "fd_paths" := by
    intro a name n j' hne hm
    refine (mem_addNumber hm).imp_right fun he => ?_
    rw [he]
    exact hne
  have hexit : ∀ {a b : Bool}, m ∈ addNumberToObject a (addBoolToObject b j "alive" p.alive)
      "exit-code" p.exitCode → m ∈ j ∨ m.1 ≠ "fd_paths" := fun hm => by
    rcases hnumber (by decide) hm with hm | hne
    · unfold addBoolToObject at hm
      split_ifs at hm
      · refine (List.mem_append.mp hm).imp_right fun hm => ?_
        have hname : "alive" ≠ "fd_paths" := by decide
        rw [List.mem_singleton.mp hm]
        exact hname
      · exact Or.inl hm
    · exact Or.inr hne
  unfold loggTail at h
  rcases hc : p.firsChil with _ | c <;> rcases hd : p.nextSibl with _ | d <;> rw [hc, hd] at h
  · exact hexit h
  · exact (hnumber (by decide) h).elim hexit Or.inr
  · exact (hnumber (by decide) h).elim hexit Or.inr
  · exact (hnumber (by decide) h).elim (fun h => (hnumber (by decide) h).elim hexit Or.inr) Or.inr

/-- The text under `fd_paths` is that of an array. -/
theorem paths_of_mem (h : loggProc2Json s v p = .ok j) {t : List Byte}
    (hm : ("fd_paths", .string t) ∈ j) : ∃ paths,
      createStringArray v.array v.entry p.fdPaths p.fdCoun = .ok (some paths) ∧
        t = printArray paths := by
  have hnew : "fd_paths" ∉ keys.take 13 := by decide
  have hhead : ("fd_paths", Value.string t) ∉ loggHead v p := fun hm =>
    hnew ((made_loggHead v p).sublist.subset (List.mem_map_of_mem hm))
  unfold loggProc2Json loggFdPaths2Json at h
  rcases hc : createStringArray v.array v.entry p.fdPaths p.fdCoun with e | arr <;> rw [hc] at h <;>
    cases h
  have hm := (mem_loggTail hm).resolve_right fun hne => hne rfl
  unfold addStringToObject at hm
  rcases ha : v.arrayText with _ | _ <;> rw [ha] at hm
  · exact absurd hm hhead
  rcases arr with _ | paths
  · exact absurd hm hhead
  rw [if_pos rfl, Option.map_some] at hm
  dsimp only at hm
  split_ifs at hm
  · have ht := List.mem_singleton.mp ((List.mem_append.mp hm).resolve_left hhead)
    cases ht
    have h0 : 0 ∉ printArray paths := fun h0 => by
      rw [printArray_eq] at h0
      exact absurd (text_gt _ 0 h0) (by decide)
    exact ⟨paths, rfl, cstr_of_notMem h0⟩
  · exact absurd hm hhead

theorem notMem_stringItems {a : List Slot} {alloc : ℕ → Bool} :
    ∀ {n i : ℕ} {paths : List (List Byte)}, stringItems a alloc n i = .ok (some paths) →
      ∀ q ∈ paths, 0 ∉ q
  | 0, i, paths, h => by
    cases h
    exact fun q hq => by cases hq
  | n + 1, i, paths, h => by
    unfold stringItems at h
    rcases ha : a[i]? with _ | _ | _ | ⟨id, target⟩ <;> rw [ha] at h
    · cases h
    · cases h
    · cases h
    dsimp only at h
    by_cases he : alloc i = false
    · rw [if_pos he] at h
      cases h
    rw [if_neg he] at h
    rcases hr : stringItems a alloc n (i + 1) with e | _ | items <;> rw [hr] at h <;> cases h
    exact List.forall_mem_cons.mpr ⟨notMem_cstr target, notMem_stringItems hr⟩

theorem notMem_createStringArray {array : Bool} {alloc : ℕ → Bool} {strings : Option (List Slot)}
    {count : ℤ} {paths : List (List Byte)}
    (h : createStringArray array alloc strings count = .ok (some paths)) : ∀ q ∈ paths, 0 ∉ q := by
  unfold createStringArray at h
  rcases strings with _ | a
  · cases h
  dsimp only at h
  split_ifs at h
  · cases h
  · cases h
  · exact notMem_stringItems h

theorem parse_printObject (round : ℚ → ν) (h : Made keys j) :
    parse (fun _ => true) round (printObject j) =
      .ok (some (mapNumbers (fun n : ℤ => round n) (ofObject j))) := by
  rw [printObject_eq]
  exact (gives_parse round (clean_ofObject h)).1 (depth_ofObject j)

/-- **A line of the log, read back**: the object is the one that was printed, every member is found
under its name, and the text under `fd_paths` parses to the paths. -/
theorem line_read (round : ℚ → ν) (h : loggProc2Json s v p = .ok j) :
    ∃ x, parse (fun _ => true) round (printObject j) = .ok (some x) ∧
      x = mapNumbers (fun n : ℤ => round n) (ofObject j) ∧
      (∀ name value, (name, value) ∈ j → ∀ caseSensitive, getObjectItem x (nameBytes name)
        caseSensitive = some (mapNumbers (fun n : ℤ => round n) (ofValue value))) ∧
      ∀ t, ("fd_paths", .string t) ∈ j → ∃ paths,
        createStringArray v.array v.entry p.fdPaths p.fdCoun = .ok (some paths) ∧
          parse (fun _ => true) round t = .ok (some (.array (paths.map .string))) := by
  have hmade := made_loggProc2Json h
  refine ⟨_, parse_printObject round hmade, rfl,
    fun name value hm b => getObjectItem_of_mem hmade _ hm b, fun t ht => ?_⟩
  obtain ⟨paths, hp, rfl⟩ := paths_of_mem h ht
  have hclean : Clean (.array (paths.map .string) : Item ℤ) := by
    refine clean_array.mpr fun x hx => ?_
    obtain ⟨q, hq, rfl⟩ := List.mem_map.mp hx
    intro u hu
    rw [List.mem_singleton.mp hu]
    exact notMem_createStringArray hp q hq
  have hdepth : depth (.array (paths.map .string) : Item ℤ) ≤ cjsonNestingLimit := by
    have hle : depths (paths.map .string : List (Item ℤ)) ≤ 0 := by
      refine depths_le_iff.mpr fun x hx => ?_
      obtain ⟨q, -, rfl⟩ := List.mem_map.mp hx
      exact le_rfl
    rw [depth]
    unfold cjsonNestingLimit
    omega
  have hpaths := (gives_parse round hclean).1 hdepth
  rw [← printArray_eq, mapNumbers, mapElements_eq, List.map_map] at hpaths
  exact ⟨paths, hp, hpaths⟩

/-- A visit at which no clock can be read. -/
def timeless : Visit :=
  ⟨true, fun _ => true, true, fun _ => true, true, true, true, fun _ => 0,
    ⟨none, none, fun _ => none, []⟩, ⟨none, none, fun _ => none, []⟩⟩

/-- A process with two open files and a child, whose name is `a"` and a line break. -/
def parent : Proc :=
  { Proc.zero with
    pid := 7
    name := [97, 34, 10]
    state := ch 'S'
    fdCoun := 2
    fdPaths := some [.str 0 (ascii ['/', 'a']), .str 1 (ascii ['/', '\x22'])]
    alive := true
    firsChil := some 1 }

/-- A visit at which the state cannot be added. -/
def stateless : Visit := { timeless with item := fun name => name ≠ "state" }

/-- The line of a record with paths, a child and a name that is escaped, without one item. -/
theorem line_read_parent :
    let s := init.upd 1 fun p => { p with pid := 8 }
    let paths := [ascii ['/', 'a'], ascii ['/', '\x22']]
    ∃ j x, loggProc2Json s stateless parent = .ok j ∧ "state" ∉ j.map Prod.fst ∧
      [("name", Value.string [97, 34, 10]), ("fd_paths", .string (printArray paths)),
        ("first-child-pid", .number 8)] ⊆ j ∧
      parse (fun _ => true) id (printObject j) = .ok (some x) ∧
      x = mapNumbers (fun n : ℤ => id (n : ℚ)) (ofObject j) ∧
      (∀ name value, (name, value) ∈ j → ∀ caseSensitive, getObjectItem x (nameBytes name)
        caseSensitive = some (mapNumbers (fun n : ℤ => id (n : ℚ)) (ofValue value))) ∧
      parse (fun _ => true) (id : ℚ → ℚ) (printArray paths) =
        .ok (some (.array (paths.map .string))) := by
  intro s paths
  have h : loggProc2Json s stateless parent = .ok [("pid", .number 7), ("real-uid", .number 0),
      ("effective-uid", .number 0), ("read-gid", .number 0), ("effective-gid", .number 0),
      ("name", .string [97, 34, 10]), ("parent-pid", .number 0), ("birth-parent-pid", .number 0),
      ("thread-gid", .number 0), ("FD-count", .number 2), ("birth-time", .string []),
      ("death-time", .string (ascii "not dead".toList)), ("fd_paths", .string (printArray paths)),
      ("alive", .bool true), ("exit-code", .number 0), ("first-child-pid", .number 8)] := by
    rfl
  obtain ⟨x, hparse, hx, hmember, hpaths⟩ := line_read id h
  obtain ⟨paths', hp, hparse'⟩ := hpaths (printArray paths) (by decide)
  obtain rfl : paths = paths' := by
    have hp' : createStringArray true (fun _ => true) parent.fdPaths 2 = .ok (some paths) := rfl
    have := hp'.symm.trans hp
    cases this
    rfl
  exact ⟨_, x, h, by decide, by decide, hparse, hx, hmember, hparse'⟩

end Read

end Serie.Log.Line
