import Serie.Json.Heap

/-! # Reading items in memory

The printer reads an item through its links. It finds the children in their order with their names
and values, down to the last level, and changes nothing (`readChildren_spec`), and so
`cJSON_PrintUnformatted` returns the text of what is there, or `NULL` (`printUnformatted_spec`). -/

namespace Serie.Json.HeapRead

open Serie.Lib.CText Serie.Lib.Separation Serie.Model.JsonParse Serie.Model.JsonHeap
open Serie.Json.Heap

/-- The item with the value `value`, whose children are read with or without their names. -/
def itemOf (value : Content) (child : Bool → List (List Byte × Item ℤ)) : Item ℤ :=
  match value with
  | .null => .null
  | .bool b => .bool b
  | .number n => .number n
  | .string s => .string (s.getD [])
  | .array => .array ((child false).map Prod.snd)
  | .object => .object (child true)

/-- The items of a list. -/
def membersOf : Items → Bool → List (List Byte × Item ℤ)
  | .nil, _ => []
  | .cons name value child rest, named =>
    (if named then name.getD [] else [], itemOf value (membersOf child)) :: membersOf rest named

section Read
variable {E : Wrong → Prop} {ok : ℕ → Bool} {fuel : ℕ} {n : Node} {name : Option (List Byte)}
  {value : Content} {child : Items} {r : ℕ}

theorem readText_spec {p : Ptr} {s : Option (List Byte)} :
    Triple (ownsText p s) (readText p) (fun x => star (fact (x = s.getD [])) (ownsText p s)) E := by
  rcases p with _ | a <;> rcases s with _ | s
  · exact Triple.ret fun h hh => fact_star_iff.mpr ⟨rfl, hh⟩
  · exact Triple.of_false
  · exact Triple.of_false
  · refine Triple.of_fact fun h0 => loadText_bind star_end (Triple.ret fun h hh => ?_)
    have hs : cstr (s ++ [0]) = s := cstr_append_zero h0
    exact fact_star_iff.mpr ⟨hs, fact_star_iff.mpr ⟨h0, hh⟩⟩

/-- The name of an item is read in an object only. -/
theorem readName_spec (named : Bool) :
    Triple (ownsText n.string name) (readText (if named then n.string else none))
      (fun x => star (fact (x = if named then name.getD [] else []))
        (ownsText n.string name)) E := by
  rcases named with _ | _
  · exact Triple.ret fun h hh => fact_star_iff.mpr ⟨rfl, hh⟩
  · exact readText_spec

/-- **One item**, given that its children are read. -/
theorem readValue_spec (hn : Shows n value)
    (hchild : ∀ named, Triple (list child n.child) (readChildren fuel named n.child)
      (fun x => star (fact (x = membersOf child named)) (list child n.child)) E) :
    Triple (star (pts r (.item n)) (body n name value child)) (readValue (fuel + 1) r)
      (fun x => star (fact (x = itemOf value (membersOf child)))
        (star (pts r (.item n)) (body n name value child))) E := by
  rw [readValue]
  refine loadItem_bind rfl ?_
  rw [hn.kind]
  cases value with
  | null => exact Triple.ret fun h hh => fact_star_iff.mpr ⟨rfl, hh⟩
  | bool b => exact Triple.ret fun h hh => fact_star_iff.mpr ⟨rfl, hh⟩
  | number m =>
    have hm : n.number = m := hn.number
    exact Triple.ret fun h hh => fact_star_iff.mpr ⟨congrArg Item.number hm, hh⟩
  | string s =>
    refine Triple.step (R := star (pts r (.item n)) (star (ownsText n.string name)
      (list child n.child))) (readText_spec (s := s)) (by unfold body; ac_rfl) fun x => ?_
    rw [star_assoc]
    refine Triple.of_fact fun hx => Triple.ret fun h hh => fact_star_iff.mpr ⟨?_, ?_⟩
    · rw [hx]
      rfl
    · exact holds_of_eq (by unfold body; ac_rfl) hh
  | array =>
    refine Triple.step (R := star (pts r (.item n)) (star (ownsText n.string name)
      (ownsText n.valuestring none))) (hchild false) (by unfold body; ac_rfl) fun x => ?_
    rw [star_assoc]
    refine Triple.of_fact fun hx => Triple.ret fun h hh => fact_star_iff.mpr ⟨?_, ?_⟩
    · rw [hx]
      rfl
    · exact holds_of_eq (by unfold body; ac_rfl) hh
  | object =>
    refine Triple.step (R := star (pts r (.item n)) (star (ownsText n.string name)
      (ownsText n.valuestring none))) (hchild true) (by unfold body; ac_rfl) fun x => ?_
    rw [star_assoc]
    refine Triple.of_fact fun hx => Triple.ret fun h hh => fact_star_iff.mpr ⟨?_, ?_⟩
    · rw [hx]
      rfl
    · exact holds_of_eq (by unfold body; ac_rfl) hh

theorem readChildren_none (fuel : ℕ) (named : Bool) :
    readChildren fuel named none = pure [] := by cases fuel <;> rfl

/-- **A list is read** from its first item to its last one, and what is below them. -/
theorem readChildren_spec : ∀ (l : Items) {fuel : ℕ} {named : Bool} {a p z : Ptr},
    2 * l.size ≤ fuel → Triple (owns l a p none z) (readChildren fuel named a)
      (fun x => star (fact (x = membersOf l named)) (owns l a p none z)) E
  | .nil, fuel, named, a, p, z, _ => by
    intro F μ h
    obtain ⟨⟨rfl, hz⟩, -⟩ := fact_star_iff.mp h
    rw [readChildren_none]
    refine Or.inl ⟨[], μ, rfl, ?_⟩
    dsimp only
    rw [fact_true (show ([] : List (List Byte × Item ℤ)) = membersOf .nil named from rfl), emp_star]
    exact h
  | .cons name value child rest, 0, named, a, p, z, h => absurd h (by simp [Items.size])
  | .cons name value child rest, 1, named, a, p, z, h => by
    rw [Items.size] at h
    omega
  | .cons name value child rest, fuel + 2, named, a, p, z, h => by
    rw [Items.size] at h
    have hchild : ∀ {n : Node} (named : Bool), Triple (list child n.child)
        (readChildren fuel named n.child)
        (fun x => star (fact (x = membersOf child named)) (list child n.child)) E := by
      intro n named
      refine Triple.of_ex fun y => (readChildren_spec child (by omega)).post fun x h hh => ?_
      obtain ⟨hx, hh⟩ := fact_star_iff.mp hh
      exact fact_star_iff.mpr ⟨hx, y, hh⟩
    rw [owns_cons]
    refine Triple.of_ex fun r => Triple.of_ex fun n => Triple.of_fact ?_
    rintro ⟨rfl, hp, hn⟩
    rw [readChildren]
    refine loadItem_bind rfl ?_
    refine Triple.step (R := star (pts r (.item n)) (star (star (ownsText n.valuestring value.text)
      (list child n.child)) (owns rest n.next (some r) none z))) (readName_spec named)
      (by unfold body; ac_rfl) fun x => ?_
    rw [star_assoc]
    refine Triple.of_fact fun hx => ?_
    have hvalue : Triple (star (pts r (.item n)) (body n name value child))
        (readValue (fuel + 1) r) (fun x => star (fact (x = itemOf value (membersOf child)))
          (star (pts r (.item n)) (body n name value child))) E := readValue_spec hn hchild
    refine Triple.step (R := owns rest n.next (some r) none z) hvalue (by unfold body; ac_rfl)
      fun y => ?_
    rw [star_assoc]
    refine Triple.of_fact fun hy => ?_
    refine Triple.step (R := star (pts r (.item n)) (body n name value child))
      (readChildren_spec rest (by omega)) (by ac_rfl) fun k => ?_
    rw [star_assoc]
    refine Triple.of_fact fun hk => Triple.ret fun h hh => fact_star_iff.mpr ⟨?_, ?_⟩
    · rw [hx, hy, hk, membersOf]
    · exact ⟨r, n, fact_star_iff.mpr ⟨⟨rfl, hp, hn⟩, holds_of_eq (by ac_rfl) hh⟩⟩

/-- **`cJSON_PrintUnformatted`** returns a block with the text of the item, or `NULL`. -/
theorem printUnformatted_spec (hf : 2 * child.size + 1 ≤ fuel) :
    Triple (lone r name value child) (printUnformatted ok fuel (some r))
      (fun p => star (lone r name value child) (made ok (fun b =>
        pts b (.text (Json.Item.text (itemOf value (membersOf child)) ++ [0]))) p)) E := by
  obtain ⟨k, rfl⟩ : ∃ k, fuel = k + 1 := ⟨fuel - 1, by omega⟩
  refine of_lone star_end fun n hn hne hnp => ?_
  rw [star_emp]
  have hlone : ∀ h, star (pts r (.item n)) (body n name value child) h →
      lone r name value child h := fun h hh => ⟨n, fact_star_iff.mpr ⟨⟨hn, hne, hnp⟩, hh⟩⟩
  unfold printUnformatted
  refine (readValue_spec hn fun named => Triple.of_ex fun y =>
    (readChildren_spec child (by omega)).post fun x h hh => ?_).bind fun x => ?_
  · obtain ⟨hx, hh⟩ := fact_star_iff.mp hh
    exact fact_star_iff.mpr ⟨hx, y, hh⟩
  · refine Triple.of_fact fun hx => Triple.last (Triple.alloc_bind (fun hno => ?_) fun b _ => ?_)
    · refine Triple.ret fun h hh => ?_
      rw [← star_emp (star _ _)] at hh
      exact star_mono hlone (fun _ => made_none hno) hh
    · refine Triple.ret fun h hh => ?_
      rw [star_comm, hx] at hh
      exact star_mono hlone (fun _ => made_some) hh

end Read

end Serie.Json.HeapRead
