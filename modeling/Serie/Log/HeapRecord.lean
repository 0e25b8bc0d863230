import Serie.Json.HeapBuild
import Serie.Json.HeapRead
import Serie.Log.Line

/-! # One record in memory

The object of a record on blocks of memory against the object of the list model. Each call that adds
an item adds it or changes nothing, whatever the allocator answers, and the array of the paths is
gone at the end. So `logg_proc_2_json` leaves the object that the list model builds for some
answers, and nothing else (`loggProc2Json_spec`); with an allocator that always has a block, no
answer is a failure (`Succeeds`). -/

namespace Serie.Log.HeapRecord

open Serie.Lib.CText Serie.Lib.Separation Serie.Model.Record Serie.Model.Table Serie.Model.JsonHeap
open Serie.Json.Item Serie.Json.Heap Serie.Json.HeapBuild Serie.Json.HeapRead Serie.Log.Line
open Serie.Model.CJson (Value Object printObject printArray)
open Serie.Model.Logg (Clocks Visit)

/-! ### The items of an object -/

/-- A value of the list model. -/
def contentOf : Value → Content
  | .number n => .number n
  | .string s => .string (some s)
  | .bool b => .bool b

/-- An object of the list model. -/
def itemsOf : Object → Items
  | [] => .nil
  | m :: j => .cons (some (nameBytes m.1)) (contentOf m.2) .nil (itemsOf j)

theorem itemsOf_append : ∀ j k : Object, itemsOf (j ++ k) = (itemsOf j).append (itemsOf k)
  | [], _ => rfl
  | m :: j, k => by rw [List.cons_append, itemsOf, itemsOf, Items.append, itemsOf_append j k]

theorem size_itemsOf : ∀ j : Object, (itemsOf j).size = j.length
  | [] => rfl
  | m :: j => by rw [itemsOf, Items.size, Items.size, size_itemsOf j, List.length_cons]; omega

theorem membersOf_itemsOf : ∀ j : Object,
    membersOf (itemsOf j) true = j.map fun m => (nameBytes m.1, ofValue m.2)
  | [] => rfl
  | (name, value) :: j => by
    rw [itemsOf, membersOf, membersOf_itemsOf j, List.map_cons]
    cases value <;> rfl

theorem text_itemsOf (j : Object) :
    text (itemOf .object (membersOf (itemsOf j))) = printObject j := by
  rw [printObject_eq, itemOf, membersOf_itemsOf]
  rfl

theorem size_ofStrings : ∀ l : List (List Byte), (ofStrings l).size = l.length
  | [] => rfl
  | s :: l => by rw [ofStrings, Items.size, Items.size, size_ofStrings l, List.length_cons]; omega

theorem membersOf_ofStrings : ∀ l : List (List Byte),
    (membersOf (ofStrings l) false).map Prod.snd = l.map .string
  | [] => rfl
  | s :: l => by rw [ofStrings, membersOf, List.map_cons, membersOf_ofStrings l]; rfl

theorem text_ofStrings (l : List (List Byte)) :
    text (itemOf .array (membersOf (ofStrings l))) = printArray l := by
  rw [printArray_eq, itemOf, membersOf_ofStrings]

/-! ### Members -/

/-- A value as it is stored. -/
def stored : Value → Value
  | .string s => .string (cstr s)
  | value => value

/-- One member, if it can be added. -/
def addOne (added : Bool) (j : Object) (m : String × Value) : Object :=
  if added then j ++ [(m.1, stored m.2)] else j

/-- The members that can be added. -/
def addAll (item : String → Bool) : List (String × Value) → Object → Object
  | [], j => j
  | m :: items, j => addAll item items (addOne (item m.1) j m)

theorem addAll_congr {item item' : String → Bool} : ∀ {items : List (String × Value)} {j : Object},
    (∀ m ∈ items, item m.1 = item' m.1) → addAll item items j = addAll item' items j
  | [], _, _ => rfl
  | m :: items, j, h => by
    rw [addAll, addAll, h m List.mem_cons_self,
      addAll_congr fun m' hm => h m' (List.mem_cons_of_mem m hm)]

theorem headItems_keys (birth death : Clocks) (p : Proc) :
    (headItems birth death p).map Prod.fst = keys.take 13 := rfl

theorem tailItems_keys (s : State) (p : Proc) :
    ((tailItems s p).map Prod.fst).Sublist (keys.drop 14) := by
  unfold tailItems
  rcases p.firsChil with _ | c <;> rcases p.nextSibl with _ | d <;> simp [linkItem, keys]

theorem loggHead_eq (v : Visit) (p : Proc) :
    Model.Logg.loggHead v p = addAll v.item (headItems v.birth v.death p) [] := by
  unfold Model.Logg.loggHead headItems
  dsimp only
  split_ifs <;> rfl

theorem loggTail_eq (s : State) (v : Visit) (p : Proc) (j : Object) :
    Model.Logg.loggTail s v p j = addAll v.item (tailItems s p) j := by
  unfold Model.Logg.loggTail tailItems
  rcases p.firsChil with _ | c <;> rcases p.nextSibl with _ | d <;> rfl

section Record
variable {E : Wrong → Prop} {ok : ℕ → Bool} {fuel o : ℕ} {j : Object} {p : Proc}

theorem lone_append {h : Heap Cell} {m : String × Value} :
    lone o none .object ((itemsOf j).append
      (.cons (some (nameBytes m.1)) (contentOf m.2) .nil .nil)) h →
    lone o none .object (itemsOf (j ++ [m])) h :=
  holds_of_eq (by rw [itemsOf_append, itemsOf, itemsOf])

/-- **One call** adds its item, or changes nothing. -/
theorem addItem_spec (hf : 1 ≤ fuel) {m : String × Value} (h0 : 0 ∉ nameBytes m.1) :
    Triple (lone o none .object (itemsOf j)) (addItem ok fuel o m)
      (fun _ => ex fun added : Bool => star (fact (Serves ok → added = true))
        (lone o none .object (itemsOf (addOne added j m)))) E := by
  have hadd : ∀ {create : Code Ptr} {φ : Ptr → Prop}, Triple emp create
      (fun r => star (fact (φ r)) (opt (fun i => lone i none (contentOf (stored m.2)) .nil) r)) E →
      (Serves ok → ¬ φ none) →
      Triple (lone o none .object (itemsOf j)) (addToObject ok fuel (some o) m.1 create)
        (fun _ => ex fun added : Bool => star (fact (Serves ok → added = true))
          (lone o none .object (itemsOf (addOne added j m)))) E := by
    intro create φ hc hφ
    refine (addToObject_spec hc h0 hf).post ?_
    rintro _ h ⟨added, hh⟩
    obtain ⟨⟨-, hadded⟩, hl⟩ := fact_star_iff.mp hh
    cases added
    · exact ⟨false, fact_star_iff.mpr ⟨fun hs => absurd (hadded hs rfl) (hφ hs), hl⟩⟩
    · exact ⟨true, fact_star_iff.mpr ⟨fun _ => rfl, lone_append (m := (m.1, stored m.2)) hl⟩⟩
  obtain ⟨name, value⟩ := m
  cases value with
  | number n => exact hadd (createNumber_spec n) fun hs h => h hs rfl
  | bool b => exact hadd (createBool_spec b) fun hs h => h hs rfl
  | string s => exact hadd (createString_spec hf (some s)) fun hs h => h.2 hs (by simp) rfl

theorem addNull_spec (hf : 1 ≤ fuel) {name : String} (h0 : 0 ∉ nameBytes name) :
    Triple (lone o none .object (itemsOf j)) (addStringToObject ok fuel (some o) name none)
      (fun _ => lone o none .object (itemsOf j)) E := by
  refine (addToObject_spec (createString_spec hf none) h0 hf).post ?_
  rintro _ h ⟨added, hh⟩
  obtain ⟨⟨hnone, -⟩, hh⟩ := fact_star_iff.mp hh
  cases added
  · exact hh
  · obtain ⟨i, hi, -⟩ := hnone rfl
    cases hi rfl

theorem addItems_spec (hf : 1 ≤ fuel) : ∀ {items : List (String × Value)} {j : Object},
    (∀ name ∈ items.map Prod.fst, 0 ∉ nameBytes name) → (items.map Prod.fst).Nodup →
    Triple (lone o none .object (itemsOf j)) (addItems ok fuel o items)
      (fun _ => ex fun item => star (fact (Serves ok → ∀ name, item name = true))
        (lone o none .object (itemsOf (addAll item items j)))) E
  | [], j, _, _ => Triple.ret fun h hh => ⟨fun _ => true, fact_star_iff.mpr ⟨fun _ _ => rfl, hh⟩⟩
  | m :: items, j, h0, hnd => by
    rw [List.map_cons, List.nodup_cons] at hnd
    rw [addItems]
    refine (addItem_spec hf (h0 m.1 List.mem_cons_self)).bind fun _ =>
      Triple.of_ex fun added => Triple.of_fact fun hadded => ?_
    refine (addItems_spec hf (fun name hn => h0 name (List.mem_cons_of_mem m.1 hn)) hnd.2).post ?_
    rintro _ h ⟨item, hh⟩
    obtain ⟨hall, hh⟩ := fact_star_iff.mp hh
    refine ⟨Function.update item m.1 added, fact_star_iff.mpr ⟨fun hs name => ?_, ?_⟩⟩
    · by_cases hn : name = m.1
      · rw [hn, Function.update_self]
        exact hadded hs
      · rw [Function.update_of_ne hn]
        exact hall hs name
    have hrest : ∀ m' ∈ items, Function.update item m.1 added m'.1 = item m'.1 := fun m' hm =>
      Function.update_of_ne (fun he => hnd.1 (List.mem_map.mpr ⟨m', hm, he⟩)) _ _
    rw [addAll, Function.update_self, addAll_congr hrest]
    exact hh

/-! ### The paths -/

theorem length_stringItems {strings : List Slot} {alloc : ℕ → Bool} : ∀ {n i : ℕ}
    {l : List (List Byte)}, Model.CJson.stringItems strings alloc n i = .ok (some l) → l.length = n
  | 0, i, l, h => by
    rw [Model.CJson.stringItems] at h
    cases h
    rfl
  | n + 1, i, l, h => by
    rw [Model.CJson.stringItems] at h
    rcases hi : strings[i]? with _ | _ | _ | ⟨id, target⟩ <;> simp only [hi] at h
    · cases h
    · cases h
    · cases h
    · rcases ha : alloc i with _ | _ <;> simp only [ha, Bool.true_eq_false, if_true, if_false] at h
      · cases h
      · rcases hr : Model.CJson.stringItems strings alloc n (i + 1) with e | _ | l' <;>
          simp only [hr] at h <;> cases h
        rw [List.length_cons, length_stringItems hr]

theorem length_createStringArray {array : Bool} {alloc : ℕ → Bool} {strings : Option (List Slot)}
    {count : ℤ} {l : List (List Byte)}
    (h : Model.CJson.createStringArray array alloc strings count = .ok (some l)) :
    l.length = count.toNat := by
  unfold Model.CJson.createStringArray at h
  rcases strings with _ | a
  · cases h
  dsimp only at h
  split_ifs at h
  · cases h
  · cases h
  · exact length_stringItems h

theorem addPaths_spec (hf : 1 ≤ fuel) (l : List (List Byte)) :
    Triple (lone o none .object (itemsOf j))
      (addStringToObject ok fuel (some o) "fd_paths" (some (printArray l ++ [0])))
      (fun _ => ex fun added : Bool => star (fact (Serves ok → added = true))
        (lone o none .object (itemsOf
          (Model.CJson.addStringToObject added j "fd_paths" (some (printArray l)))))) E := by
  have hadd : Triple (lone o none .object (itemsOf j))
      (addItem ok fuel o ("fd_paths", .string (printArray l ++ [0])))
      (fun _ => ex fun added : Bool => star (fact (Serves ok → added = true))
        (lone o none .object (itemsOf
          (addOne added j ("fd_paths", .string (printArray l ++ [0])))))) E :=
    addItem_spec hf (keys_clean "fd_paths" (by decide))
  refine hadd.post ?_
  rintro _ h ⟨added, hh⟩
  refine ⟨added, ?_⟩
  rw [addOne, stored, cstr_append_nul] at hh
  exact hh

/-- No answer of the visit is a failure. -/
structure Succeeds (v : Visit) : Prop where
  object : v.object = true
  item : ∀ name, v.item name = true
  array : v.array = true
  entry : ∀ k, v.entry k = true
  arrayText : v.arrayText = true
  text : v.text = true
  realloc : v.realloc = true

theorem succeeds_timeless : Succeeds timeless :=
  ⟨rfl, fun _ => rfl, rfl, fun _ => rfl, rfl, rfl, rfl⟩

/-- **`logg_fd_paths_2_json`** leaves the object with the paths, or without them, and nothing of the
array and its text. -/
theorem loggFdPaths2Json_spec (hf : 2 * p.fdCoun.toNat + 1 ≤ fuel)
    (hE : ∀ array alloc e, (Serves ok → array = true ∧ ∀ k, alloc k = true) →
      Model.CJson.createStringArray array alloc p.fdPaths p.fdCoun = .error e → E (.slot e)) :
    Triple (lone o none .object (itemsOf j)) (loggFdPaths2Json ok fuel o p)
      (fun _ => ex fun w : Visit => ex fun k =>
        star (fact ((Serves ok → Succeeds w) ∧ Model.Logg.loggFdPaths2Json w j p = .ok k))
          (lone o none .object (itemsOf k))) E := by
  have hlist : ∀ {w : Visit} {arr : Option (List (List Byte))},
      Model.CJson.createStringArray w.array w.entry p.fdPaths p.fdCoun = .ok arr →
      Model.Logg.loggFdPaths2Json w j p = .ok (Model.CJson.addStringToObject (w.item "fd_paths") j
        "fd_paths" (if w.arrayText then arr.map printArray else none)) := by
    intro w arr h
    rw [Model.Logg.loggFdPaths2Json, h]
  unfold loggFdPaths2Json
  refine (createStringArray_spec (by omega) hE).step (emp_star _).symm fun r => ?_
  simp only [ex_star, star_assoc]
  refine Triple.of_ex fun array => Triple.of_ex fun alloc => Triple.of_ex fun arr =>
    Triple.of_fact fun hfact => ?_
  obtain ⟨hall, harr⟩ := hfact
  rcases r with _ | a <;> rcases arr with _ | l
  · -- there is no array
    dsimp only [printUnformatted, textAt, arrayOf]
    rw [pure_bind, pure_bind, emp_star]
    refine (addNull_spec (by omega) (by decide)).bind fun _ => ?_
    dsimp only [freePtr]
    rw [pure_bind, delete_none]
    exact Triple.ret fun h hh => ⟨{ timeless with array := array, entry := alloc }, j,
      fact_star_iff.mpr ⟨⟨fun hs => { succeeds_timeless with
        array := (hall hs).1
        entry := (hall hs).2 }, by rw [hlist harr, Option.map_none, ite_self]; rfl⟩, hh⟩⟩
  · exact Triple.of_fact (φ := False) False.elim
  · exact Triple.of_fact (φ := False) False.elim
  · have hsize : (ofStrings l).size ≤ p.fdCoun.toNat := by
      rw [size_ofStrings, length_createStringArray harr]
    have hdelete : Triple (lone a none .array (ofStrings l)) (delete fuel (some a))
        (fun _ => emp) E := delete_lone (by omega)
    have hprint : Triple (lone a none .array (ofStrings l)) (printUnformatted ok fuel (some a))
        (fun q => star (lone a none .array (ofStrings l))
          (made ok (fun b => pts b (.text (printArray l ++ [0]))) q)) E := by
      rw [← text_ofStrings]
      exact printUnformatted_spec (by omega)
    dsimp only [arrayOf]
    refine hprint.step rfl fun q => of_made fun hq => ?_
    rcases q with _ | b
    · -- the text of the array cannot be made
      dsimp only [textAt, opt]
      rw [pure_bind, star_emp]
      refine (addNull_spec (by omega) (by decide)).step (star_comm ..) fun _ => ?_
      dsimp only [freePtr]
      rw [pure_bind]
      refine Triple.last (hdelete.step (star_comm ..) fun _ => ?_)
      rw [emp_star]
      exact Triple.ret fun h hh => ⟨{ timeless with
        array := array, entry := alloc, arrayText := false }, j,
        fact_star_iff.mpr ⟨⟨fun hs => absurd rfl (hq hs), by rw [hlist harr]; rfl⟩, hh⟩⟩
    · dsimp only [textAt, opt]
      rw [bind_assoc]
      refine loadText_bind (R := star (lone a none .array (ofStrings l))
        (lone o none .object (itemsOf j))) (by ac_rfl) ?_
      rw [pure_bind]
      refine (addPaths_spec (by omega) l).step (R := star (lone a none .array (ofStrings l))
        (pts b (.text (printArray l ++ [0])))) (by ac_rfl) fun _ => ?_
      rw [ex_star]
      refine Triple.of_ex fun added => ?_
      rw [star_assoc]
      refine Triple.of_fact fun hadded => ?_
      dsimp only [freePtr]
      refine Triple.free_bind (star_tail (star_comm ..)) ?_
      refine Triple.last (hdelete.step (star_comm ..) fun _ => ?_)
      rw [emp_star]
      exact Triple.ret fun h hh => ⟨{ timeless with
        array := array, entry := alloc, item := fun _ => added }, _,
        fact_star_iff.mpr ⟨⟨fun hs => { succeeds_timeless with
          array := (hall hs).1
          entry := (hall hs).2
          item := fun _ => hadded hs }, hlist harr⟩, hh⟩⟩

/-! ### The whole object -/

/-- The answers of a visit: those of `w`, but of the items each from the calls that add it. -/
def answered (w : Visit) (birth death : Clocks) (head tail : String → Bool) : Visit :=
  { w with
    object := true
    item := fun name => if name ∈ keys.take 13 then head name
      else if name = "fd_paths" then w.item name else tail name
    birth := birth
    death := death }

/-- The answers of a visit with these clocks; none is a failure if the allocator always has a
block. -/
structure Fits (ok : ℕ → Bool) (v : Visit) (birth death : Clocks) : Prop where
  birth : v.birth = birth
  death : v.death = death
  succeeds : Serves ok → Succeeds v

theorem fits_timeless (ok : ℕ → Bool) (birth death : Clocks) :
    Fits ok { timeless with birth := birth, death := death } birth death :=
  ⟨rfl, rfl, fun _ => { succeeds_timeless with }⟩

theorem succeeds_answered {w : Visit} {birth death : Clocks} {head tail : String → Bool}
    (hw : Succeeds w) (hhead : ∀ name, head name = true) (htail : ∀ name, tail name = true) :
    Succeeds (answered w birth death head tail) := by
  refine { hw with object := rfl, item := fun name => ?_ }
  show (if name ∈ keys.take 13 then head name
    else if name = "fd_paths" then w.item name else tail name) = true
  split_ifs
  · exact hhead name
  · exact hw.item name
  · exact htail name

theorem loggHead_answered (w : Visit) (birth death : Clocks) (head tail : String → Bool)
    (p : Proc) : Model.Logg.loggHead (answered w birth death head tail) p =
      addAll head (headItems birth death p) [] := by
  rw [loggHead_eq]
  refine addAll_congr fun m hm => if_pos ?_
  rw [← headItems_keys birth death p]
  exact List.mem_map_of_mem hm

theorem loggTail_answered (w : Visit) (birth death : Clocks) (head tail : String → Bool)
    (s : State) (p : Proc) (j : Object) :
    Model.Logg.loggTail s (answered w birth death head tail) p j =
      addAll tail (tailItems s p) j := by
  have hout : ∀ name ∈ keys.drop 14, name ∉ keys.take 13 ∧ name ≠ "fd_paths" := by decide
  rw [loggTail_eq]
  refine addAll_congr fun m hm => ?_
  obtain ⟨hhead, hpaths⟩ := hout m.1 ((tailItems_keys s p).subset (List.mem_map_of_mem hm))
  exact (if_neg hhead).trans (if_neg hpaths)

/-- **`logg_proc_2_json`**, on a new object, builds the one of the list model for some answers. -/
theorem loggProc2Json_spec {s : State} {birth death : Clocks} (hf : 2 * p.fdCoun.toNat + 1 ≤ fuel)
    (hE : ∀ v e, v.object = true → Fits ok v birth death →
      Model.Logg.loggProc2Json s v p = .error e → E (.slot e)) :
    Triple (lone o none .object .nil) (loggProc2Json ok fuel s birth death p o)
      (fun _ => ex fun v : Visit => ex fun k =>
        star (fact (v.object = true ∧ Fits ok v birth death ∧
          Model.Logg.loggProc2Json s v p = .ok k)) (lone o none .object (itemsOf k))) E := by
  have hclean : ∀ {names : List String}, names.Sublist keys → ∀ name ∈ names, 0 ∉ nameBytes name :=
    fun hsub name hn => keys_clean name (hsub.subset hn)
  have hhead : (keys.take 13).Sublist keys := List.take_sublist ..
  have htail : ((tailItems s p).map Prod.fst).Sublist keys :=
    (tailItems_keys s p).trans (List.drop_sublist ..)
  have hslot : ∀ array alloc e, (Serves ok → array = true ∧ ∀ k, alloc k = true) →
      Model.CJson.createStringArray array alloc p.fdPaths p.fdCoun = .error e → E (.slot e) := by
    intro array alloc e hall he
    refine hE { timeless with array := array, entry := alloc, birth := birth, death := death } e rfl
      ⟨rfl, rfl, fun hs => { succeeds_timeless with
        array := (hall hs).1
        entry := (hall hs).2 }⟩ ?_
    rw [Model.Logg.loggProc2Json, Model.Logg.loggFdPaths2Json, he]
  unfold loggProc2Json
  refine (addItems_spec (j := []) (by omega) (by rw [headItems_keys]; exact hclean hhead)
    (by rw [headItems_keys]; exact keys_apart.1.sublist hhead)).bind fun _ =>
      Triple.of_ex fun head => Triple.of_fact fun hhead' => ?_
  refine (loggFdPaths2Json_spec hf hslot).bind fun _ => Triple.of_ex fun w =>
    Triple.of_ex fun k => Triple.of_fact fun hfact => ?_
  obtain ⟨hw, hk⟩ := hfact
  refine (addItems_spec (by omega) (hclean htail) (keys_apart.1.sublist htail)).post ?_
  rintro _ h ⟨tail, hh⟩
  obtain ⟨htail', hh⟩ := fact_star_iff.mp hh
  refine ⟨answered w birth death head tail, _, fact_star_iff.mpr ⟨⟨rfl, ⟨rfl, rfl, fun hs =>
    succeeds_answered (hw hs) (hhead' hs) (htail' hs)⟩, ?_⟩, hh⟩⟩
  have hpaths : Model.Logg.loggFdPaths2Json (answered w birth death head tail)
      (addAll head (headItems birth death p) []) p = .ok k := by
    rw [← hk]
    rfl
  rw [Model.Logg.loggProc2Json, loggHead_answered, hpaths]
  dsimp only
  rw [loggTail_answered]

end Record

end Serie.Log.HeapRecord
