import Serie.Json.Heap
import Serie.Json.Scalars

/-! # Building items

The functions that create an item own what they return, or nothing; those that add it to an object
make the list longer by it, or leave the list as it was, and nothing else (`addToObject_spec`).
`cJSON_CreateStringArray` owns an array of its strings, or nothing (`createStringArray_spec`). With
an allocator that always has a block, they fail for a `NULL` string only. -/

namespace Serie.Json.HeapBuild

open Serie.Lib.CText Serie.Lib.Separation Serie.Model.Record Serie.Model.JsonHeap
open Serie.Json.Scalars Serie.Json.Heap

/-! ### Creating and adding -/

section Create
variable {E : Wrong → Prop} {ok : ℕ → Bool} {fuel : ℕ} {name : Option (List Byte)}
  {value w : Content} {child l : Items} {i o : ℕ} {string : List Byte}

theorem createItem_spec (n : Node) :
    Triple emp (createItem ok n) (made ok fun i => pts i (.item n)) E := by
  unfold createItem newItem
  refine Triple.alloc_bind (fun hno => Triple.ret fun _ => made_none hno) fun a _ => ?_
  refine storeItem_bind star_head (Triple.ret fun h hh => made_some ?_)
  rwa [star_emp] at hh

theorem lone_bare {n : Node} {h : Heap Cell} (hn : Shows n value) (hnext : n.next = none)
    (hprev : n.prev = none) (hchild : n.child = none) (hs : n.string = none)
    (hv : n.valuestring = none) (ht : value.text = none) :
    pts i (.item n) h → lone i none value .nil h := by
  intro hh
  refine ⟨n, fact_star_iff.mpr ⟨⟨hn, hnext, hprev⟩, ?_⟩⟩
  rw [body, hchild, hs, hv, ht, list_nil, fact_true rfl]
  simpa only [ownsText, star_emp] using hh

theorem createNumber_spec (num : ℤ) :
    Triple emp (createNumber ok num) (made ok fun i => lone i none (.number num) .nil) E :=
  (createItem_spec _).post (made_mono fun _ _ =>
    lone_bare ⟨rfl, rfl, rfl, rfl⟩ rfl rfl rfl rfl rfl rfl)

theorem createBool_spec (b : Bool) :
    Triple emp (createBool ok b) (made ok fun i => lone i none (.bool b) .nil) E :=
  (createItem_spec _).post (made_mono fun _ _ =>
    lone_bare ⟨rfl, trivial, rfl, rfl⟩ rfl rfl rfl rfl rfl rfl)

theorem createObject_spec :
    Triple emp (createObject ok) (made ok fun i => lone i none .object .nil) E :=
  (createItem_spec _).post (made_mono fun _ _ =>
    lone_bare ⟨rfl, trivial, rfl, rfl⟩ rfl rfl rfl rfl rfl rfl)

theorem createString_spec (hf : 1 ≤ fuel) (s : Option (List Byte)) :
    Triple emp (createString ok fuel s) (fun r => star
      (fact ((s = none → r = none) ∧ (Serves ok → s ≠ none → r ≠ none)))
      (opt (fun i => lone i none (.string (s.map cstr)) .nil) r)) E := by
  have hfail : (Serves ok → s = none) → ∀ a,
      Triple (pts a (.item { Node.zero with kind := .string }))
      (do delete fuel (some a); pure none) (fun r => star
        (fact ((s = none → r = none) ∧ (Serves ok → s ≠ none → r ≠ none)))
        (opt (fun i => lone i none (.string (s.map cstr)) .nil) r)) E := by
    intro hno a
    have hdelete : Triple (lone a none (.string none) .nil) (delete fuel (some a)) (fun _ => emp)
      E := delete_lone (by rwa [Items.size, Nat.zero_add])
    refine Triple.bind (hdelete.pre fun _ =>
      lone_bare ⟨rfl, trivial, rfl, rfl⟩ rfl rfl rfl rfl rfl rfl) fun _ => ?_
    exact Triple.ret fun h hh => fact_star_iff.mpr
      ⟨⟨fun _ => rfl, fun hs hne => absurd (hno hs) hne⟩, hh⟩
  unfold createString
  refine (createItem_spec _).bind fun r => Triple.of_fact fun hr => ?_
  rcases r with _ | a
  · exact Triple.ret fun h hh => fact_star_iff.mpr
      ⟨⟨fun _ => rfl, fun hs => absurd rfl (hr hs)⟩, hh⟩
  rcases s with _ | s
  · exact hfail (fun _ => rfl) a
  dsimp only [opt, strdup]
  refine Triple.alloc_bind (fun hno => hfail (fun hs => absurd hs hno) a) fun q _ => ?_
  refine storeItem_bind (star_tail star_end) (Triple.ret fun h hh => fact_star_iff.mpr
    ⟨⟨fun he => (by cases he), fun _ _ he => (by cases he)⟩,
      { Node.zero with kind := .string, valuestring := some q },
      fact_star_iff.mpr ⟨⟨⟨rfl, trivial, rfl, rfl⟩, rfl, rfl⟩, ?_⟩⟩)
  have hclean : 0 ∉ cstr s := notMem_cstr s
  have hbody : body { Node.zero with kind := .string, valuestring := some q } none
      (.string ((some s).map cstr)) .nil = pts q (.text (cstr s ++ [0])) := by
    rw [body, list_nil]
    simp only [ownsText, Node.zero, Content.text, Option.map_some, fact_true hclean, fact_true,
      emp_star, star_emp]
  rw [hbody]
  simpa only [star_emp] using hh

theorem freePtr_spec {p : Ptr} {t : Option (List Byte)} :
    Triple (ownsText p t) (freePtr p) (fun _ => emp) E := by
  rcases p with _ | a <;> rcases t with _ | t
  · exact Triple.ret fun _ => id
  · exact Triple.of_false
  · exact Triple.of_false
  · exact Triple.of_fact fun _ => Triple.last (Triple.free_bind star_end (Triple.ret fun _ => id))

/-- **`add_item_to_object`** puts the item at the end under its new name, or leaves both as they
are. -/
theorem addItemToObject_spec {name' : Option (List Byte)} (h0 : 0 ∉ string) :
    Triple (star (lone o name value l) (lone i name' w child))
      (addItemToObject ok (some o) string (some i))
      (fun b => star (fact (Serves ok → b = true))
        (if b then lone o name value (l.append (.cons (some string) w child .nil))
          else star (lone o name value l) (lone i name' w child))) E := by
  rw [← star_emp (lone i name' w child)]
  refine lone_ne fun hne => ?_
  rw [star_emp]
  unfold addItemToObject
  dsimp only [strdup]
  rw [if_neg hne]
  refine Triple.alloc_bind (fun hno => Triple.ret fun _ hh =>
    fact_star_iff.mpr ⟨fun hs => absurd hs hno, hh⟩) fun q _ => ?_
  dsimp only
  rw [cstr_of_notMem h0]
  refine of_lone (star_tail (star_tail star_end)) fun m hm hmn hmp => ?_
  refine loadItem_bind star_head ?_
  rw [hm.stringIsConst]
  have hfree : Triple (ownsText m.string name') (freePtr m.string) (fun _ => emp) E := freePtr_spec
  obtain ⟨B, hB⟩ : ∃ B, B = star (ownsText m.valuestring w.text) (list child m.child) := ⟨_, rfl⟩
  have hbody : body m name' w child = star (ownsText m.string name') B := by rw [hB, body]
  rw [hbody]
  refine hfree.step (R := star (pts i (.item m)) (star B (star (pts q (.text (string ++ [0])))
    (lone o name value l)))) (by simp only [star_emp]; ac_rfl) fun _ => ?_
  rw [emp_star]
  refine storeItem_bind star_head ?_
  have hnew : ∀ h, star (pts i (.item { m with string := some q, stringIsConst := false }))
      (star B (star (pts q (.text (string ++ [0]))) (lone o name value l))) h →
        star (lone o name value l) (lone i (some string) w child) h := by
    intro h hh
    have hsplit : star (lone o name value l)
        (star (pts i (.item { m with string := some q, stringIsConst := false }))
          (star (pts q (.text (string ++ [0]))) B)) h := holds_of_eq (by ac_rfl) hh
    refine star_mono (fun _ => id) (fun h hh => ?_) hsplit
    refine ⟨{ m with string := some q, stringIsConst := false }, fact_star_iff.mpr
      ⟨⟨⟨hm.kind, hm.number, hm.isReference, rfl⟩, hmn, hmp⟩, ?_⟩⟩
    have hbody : body { m with string := some q, stringIsConst := false } (some string) w child =
        star (pts q (.text (string ++ [0]))) B := by
      show star (star (fact _) _) _ = _
      rw [fact_true h0, emp_star, hB]
    rw [hbody]
    exact hh
  refine addItemToArray_spec.conseq hnew (fun b h hh => ?_) fun _ => id
  obtain ⟨hb, hl⟩ := fact_star_iff.mp hh
  refine fact_star_iff.mpr ⟨fun _ => hb, ?_⟩
  rwa [if_pos hb]

/-- **The functions that create an item and add it**: the list has one more item, or is as before,
and nothing else is left. A `NULL` string is not added. -/
theorem addToObject_spec {nm : String} {create : Code Ptr} {φ : Ptr → Prop}
    (hc : Triple emp create (fun r => star (fact (φ r)) (opt (fun i => lone i none w .nil) r)) E)
    (h0 : 0 ∉ nm.toList.map ch) (hf : 1 ≤ fuel) :
    Triple (lone o name value l) (addToObject ok fuel (some o) nm create) (fun _ =>
      ex fun b : Bool =>
        star (fact ((b = true → ∃ i, φ (some i)) ∧ (Serves ok → b = false → φ none)))
          (lone o name value
            (if b then l.append (.cons (some (nm.toList.map ch)) w .nil .nil) else l))) E := by
  have hnone : (Serves ok → φ none) → ∀ h, lone o name value l h → (ex fun b : Bool =>
      star (fact ((b = true → ∃ i, φ (some i)) ∧ (Serves ok → b = false → φ none)))
        (lone o name value
          (if b then l.append (.cons (some (nm.toList.map ch)) w .nil .nil) else l))) h :=
    fun hno h hh => ⟨false, fact_star_iff.mpr ⟨⟨fun he => (by cases he), fun hs _ => hno hs⟩, hh⟩⟩
  unfold addToObject
  refine hc.step (emp_star _).symm fun r => ?_
  rw [star_assoc]
  refine Triple.of_fact fun hφ => ?_
  rcases r with _ | i
  · dsimp only [addItemToObject, opt]
    rw [pure_bind, if_neg Bool.false_ne_true, delete_none, pure_bind, emp_star]
    exact Triple.ret (hnone fun _ => hφ)
  · dsimp only [opt]
    rw [star_comm]
    refine (addItemToObject_spec h0).bind fun b => Triple.of_fact fun hb => ?_
    rcases b with _ | _
    · rw [if_neg Bool.false_ne_true, if_neg Bool.false_ne_true]
      refine (delete_lone (by rwa [Items.size, Nat.zero_add])).step (star_comm ..) fun _ => ?_
      rw [emp_star]
      exact Triple.ret (hnone fun hs => absurd (hb hs) Bool.false_ne_true)
    · exact Triple.ret fun h hh => ⟨true, fact_star_iff.mpr
        ⟨⟨fun _ => ⟨i, hφ⟩, fun _ he => (by cases he)⟩, hh⟩⟩

end Create

/-! ### Arrays of strings -/

/-- The items of an array of strings. -/
def ofStrings : List (List Byte) → Items
  | [] => .nil
  | s :: l => .cons none (.string (some s)) .nil (ofStrings l)

theorem append_nil : ∀ l : Items, l.append .nil = l
  | .nil => rfl
  | .cons _ _ _ rest => by rw [Items.append, append_nil rest]

theorem append_assoc : ∀ l k m : Items, (l.append k).append m = l.append (k.append m)
  | .nil, _, _ => rfl
  | .cons _ _ _ rest, k, m => by
    rw [Items.append, Items.append, Items.append, append_assoc rest k m]

theorem size_append : ∀ l k : Items, (l.append k).size = l.size + k.size
  | .nil, k => (Nat.zero_add _).symm
  | .cons _ _ child rest, k => by
    rw [Items.append, Items.size, Items.size, size_append rest k]
    omega

/-- An array that is being made: its first item does not yet lead to the last one, `z`. -/
def grown (a : ℕ) (l : Items) (z : Ptr) : Assn Cell := ex fun n : Node =>
  star (fact (Shows n .array ∧ n.next = none ∧ n.prev = none ∧ n.string = none ∧
    n.valuestring = none)) (star (pts a (.item n)) (owns l n.child none none z))

section Array
variable {E : Wrong → Prop} {ok : ℕ → Bool} {fuel : ℕ} {l : Items} {a x : ℕ} {z p : Ptr}
  {w : Content}

theorem delete_grown (hf : l.size + 1 ≤ fuel) :
    Triple (grown a l z) (delete fuel (some a)) (fun _ => emp) E := by
  obtain ⟨k, rfl⟩ : ∃ k, fuel = k + 1 := ⟨fuel - 1, by omega⟩
  refine Triple.of_ex fun n => Triple.of_fact fun hfact => ?_
  obtain ⟨hn, hne, _, hs, hv⟩ := hfact
  have hrest : Triple emp (delete k n.next) (fun _ => emp) E := by
    rw [hne, delete_none]
    exact Triple.ret fun _ => id
  have hchild : Triple (owns l n.child none none z) (delete k n.child) (fun _ => emp) E :=
    delete_spec l (by omega)
  have hdelete : Triple (star (pts a (.item n)) (star (ownsText n.string none)
      (star (ownsText n.valuestring (Content.text .array))
        (star (owns l n.child none none z) emp))))
      (delete (k + 1) (some a)) (fun _ => emp) E := delete_step hn hchild hrest
  rw [hs, hv] at hdelete
  simpa only [ownsText, Content.text, emp_star, star_emp] using hdelete

theorem linkString_spec : Triple (star (grown a l p) (lone x none w .nil)) (linkString a x p)
    (fun _ => grown a (l.append (.cons none w .nil .nil)) (some x)) E := by
  rw [grown, ex_star]
  refine Triple.of_ex fun n => ?_
  rw [star_assoc, star_assoc]
  refine Triple.of_fact fun hfact => ?_
  obtain ⟨hn, hnn, hnp, hns, hnv⟩ := hfact
  refine of_lone (star_tail (star_tail star_end)) fun m hm hmn hmp => ?_
  rcases l.eq_append with rfl | ⟨k, name₁, value₁, child₁, rfl⟩
  · rw [owns_nil, star_emp]
    have hfact : star (pts x (.item m)) (star (body m none w .nil) (star (pts a (.item n))
        (fact (n.child = none ∧ p = none)))) = star (fact (n.child = none ∧ p = none))
          (star (pts a (.item n)) (star (pts x (.item m)) (body m none w .nil))) := by ac_rfl
    rw [hfact]
    refine Triple.of_fact fun hfact => ?_
    obtain ⟨hc, hp⟩ := hfact
    rw [hp]
    refine loadItem_bind star_head (Triple.last (storeItem_bind star_head
      (Triple.ret fun h hh => ?_)))
    refine ⟨{ n with child := some x }, fact_star_iff.mpr ⟨⟨hn.link _ _ _, hnn, hnp, hns, hnv⟩, ?_⟩⟩
    exact star_mono (fun _ => id) (fun _ => owns_single hm hmp hmn) hh
  · rw [owns_append_single, star_emp]
    have hlast : ∀ P : Assn Cell, star (pts x (.item m)) (star (body m none w .nil)
        (star (pts a (.item n)) P)) = star P (star (pts x (.item m))
          (star (body m none w .nil) (pts a (.item n)))) := fun P => by ac_rfl
    rw [hlast, ex_star]
    refine Triple.of_ex fun r => ?_
    rw [ex_star]
    refine Triple.of_ex fun q => ?_
    rw [star_assoc]
    refine Triple.of_fact fun hfact => ?_
    obtain ⟨hz, hq, hqn⟩ := hfact
    rw [hz, star_assoc, star_assoc]
    refine Triple.last (suffixObject_bind (star_tail star_head) (star_tail (star_tail star_head))
      (Triple.ret fun h hh => ⟨n, fact_star_iff.mpr ⟨⟨hn, hnn, hnp, hns, hnv⟩, ?_⟩⟩))
    have hsuffix : star (pts a (.item n)) (star (owns k n.child none (some r) q.prev)
        (star (star (pts r (.item { q with next := some x })) (body q name₁ value₁ child₁))
          (star (pts x (.item { m with prev := some r })) (body m none w .nil)))) h :=
      holds_of_eq (by ac_rfl) hh
    exact star_mono (fun _ => id) (fun _ => owns_suffix (n := { q with next := some x })
      (m := { m with prev := some r }) (hq.link _ _ q.child) rfl rfl (hm.link _ _ m.child) rfl hmn
      rfl) hsuffix

theorem stringItems_congr {strings : List Slot} {f g : ℕ → Bool} : ∀ {n i : ℕ},
    (∀ k, i ≤ k → f k = g k) →
      Model.CJson.stringItems strings f n i = Model.CJson.stringItems strings g n i
  | 0, _, _ => rfl
  | n + 1, i, h => by
    unfold Model.CJson.stringItems
    rw [h i le_rfl, stringItems_congr fun k hk => h k (by omega)]

theorem stringItems_cons {strings : List Slot} {alloc : ℕ → Bool} {n i id : ℕ} {t : List Byte}
    (hs : strings[i]? = some (.str id t)) :
    Model.CJson.stringItems strings (Function.update alloc i true) (n + 1) i =
      (Model.CJson.stringItems strings alloc n (i + 1)).map (Option.map (cstr t :: ·)) := by
  have hrest : Model.CJson.stringItems strings (Function.update alloc i true) n (i + 1) =
      Model.CJson.stringItems strings alloc n (i + 1) :=
    stringItems_congr fun k hk => Function.update_of_ne (by omega) _ _
  rw [Model.CJson.stringItems, hs]
  dsimp only
  rw [Function.update_self, if_neg (by decide), hrest]
  rcases Model.CJson.stringItems strings alloc n (i + 1) with e | _ | items <;> rfl

/-- What the loop leaves, beside its answers. -/
def Looped (ok : ℕ → Bool) (strings : List Slot) (n i a : ℕ) (l : Items) (r : Option Ptr) :
    Assn Cell :=
  ex fun alloc : ℕ → Bool => ex fun o : Option (List (List Byte)) =>
    star (fact ((Serves ok → ∀ k, alloc k = true) ∧
        Model.CJson.stringItems strings alloc n i = .ok o))
      (match r, o with
        | none, none => emp
        | some z, some items => grown a (l.append (ofStrings items)) z
        | _, _ => fact False)

/-- **The loop of `cJSON_CreateStringArray`** makes an item of every string, or deletes the array.
-/
theorem stringItems_spec {strings : List Slot} : ∀ {n i : ℕ} {l : Items} {p : Ptr},
    l.size + n + 1 ≤ fuel →
    (∀ alloc e, (Serves ok → ∀ k, alloc k = true) →
      Model.CJson.stringItems strings alloc n i = .error e → E (.slot e)) →
    Triple (grown a l p) (stringItems ok fuel strings a n i p) (Looped ok strings n i a l) E
  | 0, i, l, p, _, _ => by
    refine Triple.ret fun h hh => ⟨fun _ => true, some [],
      fact_star_iff.mpr ⟨⟨fun _ _ => rfl, rfl⟩, ?_⟩⟩
    dsimp only
    rwa [ofStrings, append_nil]
  | n + 1, i, l, p, hf, hE => by
    have hfail : ∀ alloc, (Serves ok → ∀ k, alloc k = true) →
        Model.CJson.stringItems strings alloc (n + 1) i = .ok none →
        Triple (grown a l p) (do delete fuel (some a); pure none)
          (Looped ok strings (n + 1) i a l) E := fun alloc hall ha =>
      (delete_grown (by omega)).bind fun _ => Triple.ret fun h hh =>
        ⟨alloc, none, fact_star_iff.mpr ⟨⟨hall, ha⟩, hh⟩⟩
    have hupdate : ∀ {alloc : ℕ → Bool}, (Serves ok → ∀ k, alloc k = true) →
        Serves ok → ∀ k, Function.update alloc i true k = true := by
      intro alloc hall hs k
      by_cases hk : k = i
      · rw [hk, Function.update_self]
      · rw [Function.update_of_ne hk]
        exact hall hs k
    unfold stringItems slotString
    rcases hs : strings[i]? with _ | _ | _ | ⟨id, t⟩
    · exact Triple.raise (hE (fun _ => true) _ (fun _ _ => rfl)
        (by rw [Model.CJson.stringItems, hs]))
    · exact Triple.raise (hE (fun _ => true) _ (fun _ _ => rfl)
        (by rw [Model.CJson.stringItems, hs]))
    · dsimp only
      rw [pure_bind]
      refine (createString_spec (by omega) none).step (emp_star _).symm fun r => ?_
      rw [star_assoc]
      refine Triple.of_fact fun hr => ?_
      rw [hr.1 rfl]
      dsimp only [opt]
      rw [emp_star]
      exact hfail (fun _ => true) (fun _ _ => rfl) (by rw [Model.CJson.stringItems, hs])
    · dsimp only
      rw [pure_bind]
      refine (createString_spec (by omega) (some t)).step (emp_star _).symm fun r => ?_
      rw [star_assoc]
      refine Triple.of_fact fun hr => ?_
      rcases r with _ | x
      · dsimp only [opt]
        rw [emp_star]
        refine hfail (fun _ => false) (fun hs _ => absurd rfl (hr.2 hs (by simp))) ?_
        rw [Model.CJson.stringItems, hs]
        rfl
      · dsimp only [opt]
        rw [star_comm]
        refine linkString_spec.bind fun _ => ?_
        have hsize : (l.append (.cons none (.string ((some t).map cstr)) .nil .nil)).size + n + 1 ≤
            fuel := by
          rw [size_append, Items.size, Items.size]
          omega
        refine (stringItems_spec hsize fun alloc e hall he =>
          hE (Function.update alloc i true) e (hupdate hall) ?_).post ?_
        · rw [stringItems_cons hs, he]
          rfl
        · rintro r h ⟨alloc, o, hh⟩
          obtain ⟨⟨hall, ho⟩, hr⟩ := fact_star_iff.mp hh
          refine ⟨Function.update alloc i true, o.map (cstr t :: ·),
            fact_star_iff.mpr ⟨⟨hupdate hall, ?_⟩, ?_⟩⟩
          · rw [stringItems_cons hs, ho]
            rfl
          · rcases r with _ | z <;> rcases o with _ | items
            · exact hr
            · exact hr
            · exact hr
            · dsimp only [Option.map_some] at hr ⊢
              rw [append_assoc] at hr
              exact hr

/-- An array of strings, or `NULL`. -/
def arrayOf (r : Ptr) (o : Option (List (List Byte))) : Assn Cell :=
  match r, o with
  | none, none => emp
  | some a, some l => lone a none .array (ofStrings l)
  | _, _ => fact False

/-- The end of `cJSON_CreateStringArray`: the first item leads to the last one. -/
theorem linkLast_spec :
    Triple (grown a l z) (linkLast a z) (fun _ => lone a none .array l) E := by
  refine Triple.of_ex fun n => Triple.of_fact fun hfact => ?_
  obtain ⟨hn, hnn, hnp, hns, hnv⟩ := hfact
  have hlone : ∀ h, star (list l n.child) (pts a (.item n)) h →
      lone a none .array l h := by
    intro h hh
    refine ⟨n, fact_star_iff.mpr ⟨⟨hn, hnn, hnp⟩, ?_⟩⟩
    rw [body, hns, hnv]
    simp only [ownsText, Content.text, emp_star]
    rwa [star_comm]
  refine loadItem_bind star_head ?_
  cases l with
  | nil =>
    rw [owns_nil, star_comm]
    refine Triple.of_fact fun hfact => ?_
    obtain ⟨hc, hz⟩ := hfact
    rw [hc]
    refine Triple.ret fun h hh => hlone h ?_
    rw [list_nil, fact_true hc, emp_star]
    exact hh
  | cons name value child rest =>
    rw [owns_cons, star_comm, ex_star]
    refine Triple.of_ex fun r => ?_
    rw [ex_star]
    refine Triple.of_ex fun m => ?_
    rw [star_assoc]
    refine Triple.of_fact fun hfact => ?_
    obtain ⟨hc, hmp, hm⟩ := hfact
    rw [hc, star_assoc]
    refine loadItem_bind star_head (Triple.last (storeItem_bind star_head
      (Triple.ret fun h hh => hlone h ?_)))
    rw [← star_assoc] at hh
    refine star_mono (fun _ hp => ⟨z, ?_⟩) (fun _ => id) hh
    exact ⟨r, { m with prev := z }, fact_star_iff.mpr ⟨⟨hc, rfl, hm.link _ _ m.child⟩, hp⟩⟩

/-- **`cJSON_CreateStringArray`** owns an array of its strings, or nothing. -/
theorem createStringArray_spec {strings : Option (List Slot)} {count : ℤ}
    (hf : count.toNat + 1 ≤ fuel)
    (hE : ∀ array alloc e, (Serves ok → array = true ∧ ∀ k, alloc k = true) →
      Model.CJson.createStringArray array alloc strings count = .error e → E (.slot e)) :
    Triple emp (createStringArray ok fuel strings count) (fun r => ex fun array : Bool =>
      ex fun alloc : ℕ → Bool => ex fun o : Option (List (List Byte)) =>
        star (fact ((Serves ok → array = true ∧ ∀ k, alloc k = true) ∧
          Model.CJson.createStringArray array alloc strings count = .ok o)) (arrayOf r o)) E := by
  unfold createStringArray
  rcases strings with _ | a
  · exact Triple.ret fun h hh => ⟨true, fun _ => true, none,
      fact_star_iff.mpr ⟨⟨fun _ => ⟨rfl, fun _ => rfl⟩, rfl⟩, hh⟩⟩
  dsimp only
  by_cases hc : count < 0
  · rw [if_pos hc]
    refine Triple.ret fun h hh => ⟨true, fun _ => true, none,
      fact_star_iff.mpr ⟨⟨fun _ => ⟨rfl, fun _ => rfl⟩, ?_⟩, hh⟩⟩
    rw [Model.CJson.createStringArray]
    exact if_pos hc
  rw [if_neg hc]
  have hlist : ∀ alloc, Model.CJson.createStringArray true alloc (some a) count =
      Model.CJson.stringItems a alloc count.toNat 0 := by
    intro alloc
    rw [Model.CJson.createStringArray, if_neg hc, if_neg (by decide)]
  refine Triple.bind (createItem_spec _) fun r => Triple.of_fact fun hr => ?_
  rcases r with _ | r
  · refine Triple.ret fun h hh => ⟨false, fun _ => true, none,
      fact_star_iff.mpr ⟨⟨fun hs => absurd rfl (hr hs), ?_⟩, hh⟩⟩
    rw [Model.CJson.createStringArray, if_neg hc, if_pos rfl]
  dsimp only
  have hstart : ∀ h, opt (fun i => pts i (.item { Node.zero with kind := .array })) (some r) h →
      grown r .nil none h := by
    intro h hh
    refine ⟨{ Node.zero with kind := .array }, fact_star_iff.mpr
      ⟨⟨⟨rfl, trivial, rfl, rfl⟩, rfl, rfl, rfl, rfl⟩, ?_⟩⟩
    rw [owns_nil, fact_true ⟨rfl, rfl⟩, star_emp]
    exact hh
  refine ((stringItems_spec (l := .nil) (by rwa [Items.size, Nat.zero_add]) fun alloc e hall he =>
    hE true alloc e (fun hs => ⟨rfl, hall hs⟩) ((hlist alloc).trans he)).pre hstart).bind
      fun q => ?_
  refine Triple.of_ex fun alloc => Triple.of_ex fun o => Triple.of_fact fun hfact => ?_
  obtain ⟨hall, ho⟩ := hfact
  rcases q with _ | q <;> rcases o with _ | items
  · exact Triple.ret fun h hh => ⟨true, alloc, none,
      fact_star_iff.mpr ⟨⟨fun hs => ⟨rfl, hall hs⟩, (hlist alloc).trans ho⟩, hh⟩⟩
  · exact Triple.of_false
  · exact Triple.of_false
  · refine linkLast_spec.bind fun _ => Triple.ret fun h hh => ?_
    exact ⟨true, alloc, some items,
      fact_star_iff.mpr ⟨⟨fun hs => ⟨rfl, hall hs⟩, (hlist alloc).trans ho⟩, hh⟩⟩

end Array

end Serie.Json.HeapBuild
