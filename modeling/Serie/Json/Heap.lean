import Serie.Model.JsonHeap

/-! # Items that own their blocks

`owns` says that a list of items lies in a part of the memory, each with its strings and its
children, linked both ways, and that nothing else lies there; in a complete list `prev` of the first
item leads to the last one (`list`). `cJSON_Delete` leaves nothing of it (`delete_spec`), and
`add_item_to_array` puts an item at its end (`addItemToArray_spec`). -/

namespace Serie.Json.Heap

open Serie.Lib.CText Serie.Lib.Separation Serie.Model.CJson Serie.Model.JsonParse
open Serie.Model.JsonHeap

/-! ### The contents -/

/-- The value of an item, without its children. -/
inductive Content where
  | null
  | bool (b : Bool)
  | number (n : ℤ)
  | string (s : Option (List Byte))
  | array
  | object

/-- A list of items with their names and children. -/
inductive Items where
  | nil
  | cons (name : Option (List Byte)) (value : Content) (child rest : Items)

/-- The kind of a value. -/
def Content.kind : Content → Kind
  | .null => .null
  | .bool b => .bool b
  | .number _ => .number
  | .string _ => .string
  | .array => .array
  | .object => .object

/-- The string of a value. -/
def Content.text : Content → Option (List Byte)
  | .string s => s
  | _ => none

/-- The number of a value. -/
def Content.Counts (n : ℤ) : Content → Prop
  | .number m => n = m
  | _ => True

/-- One list behind the other. -/
def Items.append : Items → Items → Items
  | .nil, k => k
  | .cons name value child rest, k => .cons name value child (rest.append k)

/-- How many items there are. -/
def Items.size : Items → ℕ
  | .nil => 0
  | .cons _ _ child rest => child.size + rest.size + 1

/-! ### Where they lie -/

/-- A string, if any, in a block of its own. -/
def ownsText (p : Ptr) (s : Option (List Byte)) : Assn Cell :=
  match p, s with
  | none, none => emp
  | some a, some s => star (fact (0 ∉ s)) (pts a (.text (s ++ [0])))
  | _, _ => fact False

/-- The node shows the value. -/
structure Shows (n : Node) (v : Content) : Prop where
  kind : n.kind = v.kind
  number : v.Counts n.number
  isReference : n.isReference = false
  stringIsConst : n.stringIsConst = false

theorem Shows.link {n : Node} {v : Content} (h : Shows n v) (next prev child : Ptr) :
    Shows { n with next := next, prev := prev, child := child } v :=
  ⟨h.kind, h.number, h.isReference, h.stringIsConst⟩

/-- The items `l` lie from the pointer `a` up to the pointer `b`; the item before the first one is
`p`, and the last one is `z`. -/
def owns : Items → Ptr → Ptr → Ptr → Ptr → Assn Cell
  | .nil, a, p, b, z => fact (a = b ∧ z = p)
  | .cons name value child rest, a, p, b, z => ex fun r : ℕ => ex fun n : Node =>
    star (fact (a = some r ∧ n.prev = p ∧ Shows n value)) (star (pts r (.item n))
      (star (star (ownsText n.string name) (star (ownsText n.valuestring value.text)
        (ex fun y : Ptr => owns child n.child y none y))) (owns rest n.next (some r) b z)))

/-- A complete list: `prev` of the first item is the last one. -/
def list (l : Items) (a : Ptr) : Assn Cell := ex fun z : Ptr => owns l a z none z

/-- What belongs to an item beside its node. -/
def body (n : Node) (name : Option (List Byte)) (value : Content) (child : Items) : Assn Cell :=
  star (ownsText n.string name) (star (ownsText n.valuestring value.text) (list child n.child))

section Owns
variable {name : Option (List Byte)} {value : Content} {child rest l k : Items} {a p b z : Ptr}

theorem owns_nil : owns .nil a p b z = fact (a = b ∧ z = p) := rfl

theorem owns_cons : owns (.cons name value child rest) a p b z = ex fun r : ℕ => ex fun n : Node =>
    star (fact (a = some r ∧ n.prev = p ∧ Shows n value)) (star (pts r (.item n))
      (star (body n name value child) (owns rest n.next (some r) b z))) := rfl

theorem owns_append : owns (l.append k) a p b z =
    ex fun c : Ptr => ex fun y : Ptr => star (owns l a p c y) (owns k c y b z) := by
  induction l generalizing a p with
  | nil =>
    funext h
    rw [eq_iff_iff, Items.append]
    constructor
    · exact fun hk => ⟨a, p, fact_star_iff.mpr ⟨⟨rfl, rfl⟩, hk⟩⟩
    · rintro ⟨c, y, hk⟩
      obtain ⟨⟨rfl, rfl⟩, hrest⟩ := fact_star_iff.mp hk
      exact hrest
  | cons name value child rest _ ih =>
    rw [Items.append, owns_cons]
    simp only [ih, owns_cons, ex_star, star_ex, star_assoc]
    funext h
    exact propext ⟨fun ⟨r, n, c, y, hp⟩ => ⟨c, y, r, n, hp⟩,
      fun ⟨c, y, r, n, hp⟩ => ⟨r, n, c, y, hp⟩⟩

end Owns

/-- What a pointer owns, if it is not `NULL`. -/
def opt (P : ℕ → Assn Cell) (p : Ptr) : Assn Cell :=
  match p with
  | none => emp
  | some a => P a

theorem opt_mono {P Q : ℕ → Assn Cell} (hPQ : ∀ a h, P a h → Q a h) :
    ∀ (p : Ptr) (h : Heap Cell), opt P p h → opt Q p h
  | none, _ => id
  | some a, h => hPQ a h

/-- What a function returns that allocates: `NULL` only if the allocator failed. -/
def made (ok : ℕ → Bool) (P : ℕ → Assn Cell) (p : Ptr) : Assn Cell :=
  star (fact (Serves ok → p ≠ none)) (opt P p)

theorem made_mono {ok : ℕ → Bool} {P Q : ℕ → Assn Cell} (hPQ : ∀ a h, P a h → Q a h) (p : Ptr)
    (h : Heap Cell) : made ok P p h → made ok Q p h := star_mono (fun _ => id) (opt_mono hPQ p)

theorem made_none {ok : ℕ → Bool} {P : ℕ → Assn Cell} {h : Heap Cell} (hno : ¬ Serves ok)
    (hh : emp h) : made ok P none h := fact_star_iff.mpr ⟨fun hs => absurd hs hno, hh⟩

theorem made_some {ok : ℕ → Bool} {P : ℕ → Assn Cell} {a : ℕ} {h : Heap Cell} (hh : P a h) :
    made ok P (some a) h := fact_star_iff.mpr ⟨fun _ he => (by cases he), hh⟩

/-- Whether the allocator failed, of what lies beside others. -/
theorem of_made {α : Type} {E : Wrong → Prop} {ok : ℕ → Bool} {P : ℕ → Assn Cell} {p : Ptr}
    {L R : Assn Cell} {m : Code α} {Q : α → Assn Cell}
    (h : (Serves ok → p ≠ none) → Triple (star (star L (opt P p)) R) m Q E) :
    Triple (star (star L (made ok P p)) R) m Q E := by
  rw [made, star_left_comm, star_assoc]
  exact Triple.of_fact h

/-! ### The commands on blocks -/

section Commands
variable {α β : Type} {P R : Assn Cell} {S : β → Assn Cell} {E : Wrong → Prop} {a : ℕ} {n m : Node}
  {s : List Byte}

theorem loadItem_bind {f : Node → Code β} (hp : P = star (pts a (.item n)) R)
    (h : Triple P (f n) S E) : Triple P (loadItem a >>= f) S E := by
  unfold loadItem
  rw [bind_assoc]
  exact Triple.load_bind hp h

theorem loadText_bind {f : List Byte → Code β} (hp : P = star (pts a (.text s)) R)
    (h : Triple P (f s) S E) : Triple P (loadText a >>= f) S E := by
  unfold loadText
  rw [bind_assoc]
  exact Triple.load_bind hp h

theorem storeItem_bind {f : Unit → Code β} (hp : P = star (pts a (.item n)) R)
    (h : Triple (star (pts a (.item m)) R) (f ()) S E) : Triple P (storeItem a m >>= f) S E :=
  Triple.store_bind hp h

end Commands

/-! ### The end of an item -/

section Delete
variable {E : Wrong → Prop} {a : ℕ} {n : Node} {t : Option (List Byte)}

theorem deleteValuestring_spec (h : n.isReference = false) :
    Triple (star (pts a (.item n)) (ownsText n.valuestring t)) (deleteValuestring a n)
      (fun m => star (fact (m = { n with valuestring := none })) (pts a (.item m))) E := by
  obtain ⟨next, prev, child, kind, isReference, stringIsConst, valuestring, number, string⟩ := n
  cases h
  unfold deleteValuestring
  rcases valuestring with _ | s <;> rcases t with _ | t <;> dsimp only [ownsText]
  · exact Triple.ret fun _ hp => fact_star_iff.mpr ⟨rfl, by rwa [star_emp] at hp⟩
  · rw [star_comm, false_star]
    exact Triple.of_false
  · rw [star_comm, false_star]
    exact Triple.of_false
  · rw [star_comm, star_assoc]
    refine Triple.of_fact fun _ => Triple.free_bind rfl ?_
    refine storeItem_bind (star_emp _).symm ?_
    exact Triple.ret fun _ hp => fact_star_iff.mpr ⟨rfl, by rwa [star_emp] at hp⟩

theorem deleteString_spec (h : n.stringIsConst = false) :
    Triple (star (pts a (.item n)) (ownsText n.string t)) (deleteString a n)
      (fun m => star (fact (m = { n with string := none })) (pts a (.item m))) E := by
  obtain ⟨next, prev, child, kind, isReference, stringIsConst, valuestring, number, string⟩ := n
  cases h
  unfold deleteString
  rcases string with _ | s <;> rcases t with _ | t <;> dsimp only [ownsText]
  · exact Triple.ret fun _ hp => fact_star_iff.mpr ⟨rfl, by rwa [star_emp] at hp⟩
  · rw [star_comm, false_star]
    exact Triple.of_false
  · rw [star_comm, false_star]
    exact Triple.of_false
  · rw [star_comm, star_assoc]
    refine Triple.of_fact fun _ => Triple.free_bind rfl ?_
    refine storeItem_bind (star_emp _).symm ?_
    exact Triple.ret fun _ hp => fact_star_iff.mpr ⟨rfl, by rwa [star_emp] at hp⟩

theorem delete_none (fuel : ℕ) : delete fuel none = pure () := by cases fuel <;> rfl

/-- One item, given what is left of its children and of the items behind it. -/
theorem delete_step {C R : Assn Cell} {fuel r : ℕ} {name : Option (List Byte)} {value : Content}
    (hn : Shows n value) (hchild : Triple C (delete fuel n.child) (fun _ => emp) E)
    (hrest : Triple R (delete fuel n.next) (fun _ => emp) E) :
    Triple (star (pts r (.item n)) (star (ownsText n.string name)
      (star (ownsText n.valuestring value.text) (star C R)))) (delete (fuel + 1) (some r))
      (fun _ => emp) E := by
  rw [delete]
  refine loadItem_bind rfl ?_
  rw [hn.isReference]
  refine hchild.step (R := star (pts r (.item n)) (star (ownsText n.string name)
    (star (ownsText n.valuestring value.text) R))) (by ac_rfl) fun _ => ?_
  refine (deleteValuestring_spec hn.isReference).step (R := star (ownsText n.string name) R)
    (by rw [emp_star]; ac_rfl) fun m => ?_
  rw [star_assoc]
  refine Triple.of_fact ?_
  rintro rfl
  refine Triple.step (R := R) (deleteString_spec hn.stringIsConst) (star_assoc ..).symm fun m => ?_
  rw [star_assoc]
  exact Triple.of_fact fun _ => Triple.free_bind rfl hrest

/-- **`cJSON_Delete`** frees every block of a list, each once, and no other. -/
theorem delete_spec : ∀ (l : Items) {fuel : ℕ} {a p z : Ptr}, l.size ≤ fuel →
    Triple (owns l a p none z) (delete fuel a) (fun _ => emp) E
  | .nil, fuel, a, p, z, _ => by
    intro F μ h
    obtain ⟨⟨rfl, -⟩, h⟩ := fact_star_iff.mp h
    rw [delete_none]
    exact Or.inl ⟨(), μ, rfl, by rwa [emp_star]⟩
  | .cons name value child rest, 0, a, p, z, h => absurd h (by simp [Items.size])
  | .cons name value child rest, fuel + 1, a, p, z, h => by
    rw [Items.size] at h
    rw [owns_cons]
    refine Triple.of_ex fun r => Triple.of_ex fun n => Triple.of_fact ?_
    rintro ⟨rfl, -, hn⟩
    rw [body, star_assoc, star_assoc]
    exact delete_step hn (Triple.of_ex fun y => delete_spec child (by omega))
      (delete_spec rest (by omega))

end Delete

/-! ### A new item -/

/-- An item with what belongs to it, on its own. -/
def lone (i : ℕ) (name : Option (List Byte)) (value : Content) (child : Items) : Assn Cell :=
  ex fun n : Node => star (fact (Shows n value ∧ n.next = none ∧ n.prev = none))
    (star (pts i (.item n)) (body n name value child))

section Lone
variable {name name' : Option (List Byte)} {value value' : Content} {child child' l k : Items}
  {E : Wrong → Prop} {i o : ℕ} {n m : Node} {a p c y z : Ptr} {h : Heap Cell}

theorem owns_single (hn : Shows n value) (hp : n.prev = p) (he : n.next = none) :
    star (pts i (.item n)) (body n name value child) h →
      owns (.cons name value child .nil) (some i) p none (some i) h := by
  intro hh
  refine ⟨i, n, fact_star_iff.mpr ⟨⟨rfl, hp, hn⟩, ?_⟩⟩
  rw [owns_nil, he, fact_true ⟨rfl, rfl⟩, star_emp]
  exact hh

theorem owns_suffix (hn : Shows n value) (hnp : n.prev = y) (hne : n.next = some i)
    (hm : Shows m value') (hmp : m.prev = c) (hme : m.next = none) (hc : c = some o) :
    star (owns l a p c y) (star (star (pts o (.item n)) (body n name value child))
      (star (pts i (.item m)) (body m name' value' child'))) h →
    owns ((l.append (.cons name value child .nil)).append (.cons name' value' child' .nil))
      a p none (some i) h := by
  intro hh
  subst hc
  rw [owns_append]
  refine ⟨some i, some o, ?_⟩
  dsimp only
  rw [owns_append]
  simp only [ex_star]
  refine ⟨some o, y, ?_⟩
  dsimp only
  rw [star_assoc]
  refine star_mono (fun _ => id)
    (fun _ => star_mono (fun _ hp => ?_) fun _ => owns_single hm hmp hme) hh
  refine ⟨o, n, fact_star_iff.mpr ⟨⟨rfl, hnp, hn⟩, ?_⟩⟩
  rw [owns_nil, hne, fact_true ⟨rfl, rfl⟩, star_emp]
  exact hp

theorem Items.eq_append : ∀ l : Items, l = .nil ∨
    ∃ k name value child, l = Items.append k (.cons name value child .nil)
  | .nil => Or.inl rfl
  | .cons name value child rest => by
    right
    rcases Items.eq_append rest with rfl | ⟨k, name', value', child', rfl⟩
    · exact ⟨.nil, name, value, child, rfl⟩
    · exact ⟨.cons name value child k, name', value', child', rfl⟩

theorem suffixObject_bind {β : Type} {P Q R : Assn Cell} {S : β → Assn Cell} {f : Unit → Code β}
    (hp : P = star (pts o (.item n)) Q) (hq : Q = star (pts i (.item m)) R)
    (h : Triple (star (pts i (.item { m with prev := some o }))
      (star (pts o (.item { n with next := some i })) R)) (f ()) S E) :
    Triple P (suffixObject o i >>= f) S E := by
  unfold suffixObject
  simp only [bind_assoc]
  refine loadItem_bind hp (storeItem_bind hp ?_)
  rw [hq]
  exact loadItem_bind (star_tail star_head) (storeItem_bind (star_tail star_head) h)

theorem list_nil : list .nil a = fact (a = none) := by
  funext h
  rw [eq_iff_iff]
  exact ⟨fun ⟨_, ⟨ha, _⟩, he⟩ => ⟨ha, he⟩, fun ⟨ha, he⟩ => ⟨none, ⟨ha, rfl⟩, he⟩⟩

theorem owns_append_single : owns (l.append (.cons name value child .nil)) a p none z =
    ex fun r : ℕ => ex fun n : Node => star (fact (z = some r ∧ Shows n value ∧ n.next = none))
      (star (owns l a p (some r) n.prev)
        (star (pts r (.item n)) (body n name value child))) := by
  funext h
  rw [eq_iff_iff]
  constructor
  · intro hh
    rw [owns_append] at hh
    obtain ⟨c, y, hh⟩ := hh
    rw [owns_cons, star_ex] at hh
    obtain ⟨r, hh⟩ := hh
    rw [star_ex] at hh
    obtain ⟨n, hh⟩ := hh
    rw [star_left_comm] at hh
    obtain ⟨⟨rfl, rfl, hn⟩, hh⟩ := fact_star_iff.mp hh
    rw [owns_nil] at hh
    have hlast : star (fact (n.next = none ∧ z = some r)) (star (owns l a p (some r) n.prev)
        (star (pts r (.item n)) (body n name value child))) h := holds_of_eq (by ac_rfl) hh
    obtain ⟨⟨hne, hz⟩, hlast⟩ := fact_star_iff.mp hlast
    exact ⟨r, n, fact_star_iff.mpr ⟨⟨hz, hn, hne⟩, hlast⟩⟩
  · rintro ⟨r, n, hh⟩
    obtain ⟨⟨rfl, hn, hne⟩, hlast⟩ := fact_star_iff.mp hh
    rw [owns_append]
    exact ⟨some r, n.prev, star_mono (fun _ => id) (fun _ => owns_single hn rfl hne) hlast⟩

theorem list_append_single : list (l.append (.cons name value child .nil)) a =
    ex fun r : ℕ => ex fun n : Node => star (fact (Shows n value ∧ n.next = none))
      (star (owns l a (some r) (some r) n.prev)
        (star (pts r (.item n)) (body n name value child))) := by
  funext h
  rw [eq_iff_iff, list]
  simp only [owns_append_single]
  constructor
  · rintro ⟨z, r, n, hh⟩
    obtain ⟨⟨rfl, hn⟩, hlast⟩ := fact_star_iff.mp hh
    exact ⟨r, n, fact_star_iff.mpr ⟨hn, hlast⟩⟩
  · rintro ⟨r, n, hh⟩
    obtain ⟨hn, hh⟩ := fact_star_iff.mp hh
    exact ⟨some r, r, n, fact_star_iff.mpr ⟨⟨rfl, hn⟩, hh⟩⟩

/-- **`add_item_to_array`** puts the item at the end of the list. -/
theorem addItemToArray_spec :
    Triple (star (lone o name value l) (lone i name' value' child'))
      (addItemToArray (some o) (some i)) (fun b => star (fact (b = true))
        (lone o name value (l.append (.cons name' value' child' .nil)))) E := by
  rw [lone, lone, ex_star]
  refine Triple.of_ex fun n => ?_
  rw [star_ex]
  refine Triple.of_ex fun m => ?_
  rw [star_assoc]
  refine Triple.of_fact fun hfact => ?_
  obtain ⟨hn, hnn, hnp⟩ := hfact
  rw [star_left_comm]
  refine Triple.of_fact fun hfact => ?_
  obtain ⟨hm, hmn, hmp⟩ := hfact
  -- the parts that do not change
  obtain ⟨A, hA⟩ : ∃ A, A = star (ownsText n.string name) (ownsText n.valuestring value.text) :=
    ⟨_, rfl⟩
  obtain ⟨B, hB⟩ : ∃ B, B = body m name' value' child' := ⟨_, rfl⟩
  have hpre : star (star (pts o (.item n)) (body n name value l)) (star (pts i (.item m)) B) =
      star (pts o (.item n)) (star (pts i (.item m)) (star (list l n.child) (star A B))) := by
    rw [hA, body]
    ac_rfl
  rw [← hB, hpre]
  have hpost : ∀ (a : Ptr) (h : Heap Cell),
      star (list (l.append (.cons name' value' child' .nil)) a)
        (star A (pts o (.item { n with child := a }))) h →
      (fun b => star (fact (b = true)) (lone o name value
        (l.append (.cons name' value' child' .nil)))) true h := by
    intro a h hh
    refine fact_star_iff.mpr ⟨rfl, { n with child := a }, fact_star_iff.mpr
      ⟨⟨hn.link _ _ a, hnn, hnp⟩, ?_⟩⟩
    rw [hA] at hh
    refine holds_of_eq ?_ hh
    unfold body
    ac_rfl
  refine Triple.of_ne fun hne => ?_
  unfold addItemToArray
  dsimp only
  rw [if_neg hne]
  refine loadItem_bind star_head ?_
  rcases l.eq_append with rfl | ⟨k, name₁, value₁, child₁, rfl⟩
  · rw [list_nil, star_left_comm (pts i _), star_left_comm (pts o _)]
    refine Triple.of_fact fun hc => ?_
    rw [hc]
    refine storeItem_bind star_head (loadItem_bind (star_tail star_head)
      (storeItem_bind (star_tail star_head) (Triple.ret fun h hh => hpost (some i) h ?_)))
    generalize hn' : ({ n with child := some i } : Node) = n' at hh ⊢
    generalize hm' : ({ m with next := none, prev := some i } : Node) = m' at hh
    have hsplit : star (star (pts i (.item m')) B) (star A (pts o (.item n'))) h :=
      holds_of_eq (by ac_rfl) hh
    refine star_mono (fun _ hp => ⟨some i, ?_⟩) (fun _ => id) hsplit
    rw [hB] at hp
    rw [← hm'] at hp
    exact owns_single (hm.link none (some i) _) rfl rfl hp
  · rw [list_append_single, star_left_comm (pts i _), star_left_comm (pts o _), ex_star]
    refine Triple.of_ex fun r => ?_
    rw [ex_star]
    refine Triple.of_ex fun q => ?_
    rw [star_assoc]
    refine Triple.of_fact fun hfact => ?_
    obtain ⟨hq, hqn⟩ := hfact
    rw [star_assoc, star_assoc]
    obtain ⟨C, hC⟩ : ∃ C, C = body q name₁ value₁ child₁ := ⟨_, rfl⟩
    rw [← hC]
    cases k with
    | nil =>
      -- the only item is the last one
      rw [owns_nil]
      refine Triple.of_fact fun hfact => ?_
      obtain ⟨hc, hqp⟩ := hfact
      rw [hc]
      refine loadItem_bind star_head ?_
      rw [hqp]
      refine suffixObject_bind star_head (star_tail (star_tail star_head)) (loadItem_bind
        (star_tail star_head) (storeItem_bind (star_tail star_head) (Triple.ret fun h hh =>
          hpost n.child h ?_)))
      have hsuffix : star (star (pts r (.item { q with next := some i, prev := some i })) C)
          (star (star (pts i (.item { m with prev := some r })) B)
            (star A (pts o (.item n)))) h := holds_of_eq (by ac_rfl) hh
      rw [← star_assoc] at hsuffix
      refine star_mono (fun _ hp => ⟨some i, ?_⟩) (fun _ => id) hsuffix
      rw [hB, hC] at hp
      refine owns_suffix (n := { q with next := some i, prev := some i })
        (m := { m with prev := some r }) (y := some i) (hq.link _ _ q.child) rfl rfl
        (hm.link _ _ m.child) rfl hmn rfl ?_
      rw [hc, owns_nil, fact_true ⟨rfl, rfl⟩, emp_star]
      exact hp
    | cons name₀ value₀ child₀ k =>
      rw [owns_cons, ex_star]
      refine Triple.of_ex fun r₀ => ?_
      rw [ex_star]
      refine Triple.of_ex fun n₀ => ?_
      rw [star_assoc]
      refine Triple.of_fact fun hfact => ?_
      obtain ⟨hc, h₀p, h₀⟩ := hfact
      rw [star_assoc]
      obtain ⟨D, hD⟩ : ∃ D, D = star (body n₀ name₀ value₀ child₀)
        (owns k n₀.next (some r₀) (some r) q.prev) := ⟨_, rfl⟩
      rw [hc, ← hD]
      refine loadItem_bind star_head ?_
      rw [h₀p]
      refine suffixObject_bind (star_tail (star_tail star_head))
        (star_tail (star_tail (star_tail (star_tail star_head)))) (loadItem_bind
        (star_tail (star_tail star_head)) (storeItem_bind (star_tail (star_tail star_head))
        (Triple.ret fun h hh => hpost n.child h ?_)))
      have hsuffix : star (star (star (pts r₀ (.item { n₀ with prev := some i })) D)
          (star (star (pts r (.item { q with next := some i })) C)
            (star (pts i (.item { m with prev := some r })) B)))
              (star A (pts o (.item n))) h := holds_of_eq (by ac_rfl) hh
      refine star_mono (fun _ hp => ⟨some i, ?_⟩) (fun _ => id) hsuffix
      rw [hB, hC] at hp
      refine owns_suffix (n := { q with next := some i }) (m := { m with prev := some r })
        (hq.link _ _ q.child) rfl rfl (hm.link _ _ m.child) rfl hmn rfl
        (star_mono (fun _ hp => ?_) (fun _ => id) hp)
      rw [hD] at hp
      exact ⟨r₀, { n₀ with prev := some i },
        fact_star_iff.mpr ⟨⟨hc, rfl, h₀.link _ _ n₀.child⟩, hp⟩⟩

theorem delete_lone {fuel : ℕ} (hf : child.size + 1 ≤ fuel) :
    Triple (lone i name value child) (delete fuel (some i)) (fun _ => emp) E := by
  refine (delete_spec (a := some i) (p := none) (z := some i)
    (.cons name value child .nil) ?_).pre ?_
  · simpa only [Items.size, Nat.add_zero] using hf
  · rintro h ⟨n, hh⟩
    obtain ⟨⟨hn, hne, hnp⟩, hh⟩ := fact_star_iff.mp hh
    exact owns_single hn hnp hne hh

theorem of_lone {α : Type} {P R : Assn Cell} {c : Code α} {Q : α → Assn Cell}
    (hp : P = star (lone i name value child) R)
    (h : ∀ m : Node, Shows m value → m.next = none → m.prev = none →
      Triple (star (pts i (.item m)) (star (body m name value child) R)) c Q E) :
    Triple P c Q E := by
  rw [hp, lone, ex_star]
  refine Triple.of_ex fun m => ?_
  rw [star_assoc, star_assoc]
  exact Triple.of_fact fun ⟨hm, hn, hp⟩ => h m hm hn hp

theorem lone_ne {α : Type} {P : Assn Cell} {m : Code α} {Q : α → Assn Cell}
    (h : o ≠ i → Triple (star (lone o name value l) (star (lone i name' value' child') P)) m Q E) :
    Triple (star (lone o name value l) (star (lone i name' value' child') P)) m Q E := by
  intro F μ hh
  refine h (fun he => ?_) F μ hh
  subst he
  rw [lone, lone] at hh
  simp only [ex_star, star_ex] at hh
  obtain ⟨m, n, hh⟩ := hh
  have hpts : star (pts o (.item n)) (star (pts o (.item m))
      (star (fact (Shows n value ∧ n.next = none ∧ n.prev = none))
        (star (fact (Shows m value' ∧ m.next = none ∧ m.prev = none))
          (star (body n name value l) (star (body m name' value' child') (star P F)))))) μ.cells :=
    holds_of_eq (by ac_rfl) hh
  rw [pts_star_iff, pts_star_iff, Function.update_self] at hpts
  cases hpts.2.1

end Lone

end Serie.Json.Heap
