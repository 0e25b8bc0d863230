import Serie.Json.Scalars

/-! # The round trip

The parser reads every item back from its text, if the nesting limit allows it, and refuses the text
otherwise (`parse_text`). A number comes back as the rounding of the number.

The elements of an array and the members of an object are read by one turn of a loop each (`Turn`);
what the turns have in common is said of any such loop (`loop_text`). -/

namespace Serie.Json.RoundTrip

open Serie.Lib.CText Serie.Lib.Lines Serie.Model.CJson Serie.Model.JsonParse Serie.Json.Item
open Serie.Json.Reads Serie.Json.Literal Serie.Json.Scalars

/-- A call finds the value and leaves the offset there, or it refuses, as `good` says. -/
def Gives {α : Type} (good : Prop) (value : α) (offset : ℕ) (x : Parsed α) : Prop :=
  (good → ∃ a, x = .ok (some value, ⟨offset, a⟩)) ∧ (¬good → ∃ s, x = .ok (none, s))

section Loop
variable {α β : Type} {content r : List Byte} {close : Byte} {t : β → List Byte} {y : β → α}
  {good : β → Prop} {loop : ℕ → List α → ParseBuffer → Parsed (List α)}

/-- A turn of a loop reads the element, behind a bracket or a comma. -/
def Turn (content : List Byte) (close : Byte) (t : β → List Byte) (y : β → α) (good : β → Prop)
    (loop : ℕ → List α → ParseBuffer → Parsed (List α)) (x : β) : Prop :=
  ∀ (fuel : ℕ) (child : List α) (p a : ℕ) (c : Byte) (r : List Byte),
    content.drop p = c :: (t x ++ r) → isNumberChar (deref r) = false →
    (good x → ∃ a', loop (fuel + 1) child ⟨p, a⟩ =
      afterElement content close (loop fuel (child ++ [y x])) (child ++ [y x])
        ⟨p + 1 + (t x).length, a'⟩) ∧
    (¬good x → ∃ s, loop (fuel + 1) child ⟨p, a⟩ = .ok (none, s))

theorem skip_eq {n p a : ℕ} {b : Byte} (h : content.drop (p + n) = b :: r) (hb : 32 < b) :
    skip content n ⟨p, a⟩ = ⟨p + n, a⟩ := by
  rw [skip, skip_of_drop h hb]

theorem skip_zero {p a : ℕ} {b : Byte} (h : content.drop p = b :: r) (hb : 32 < b) :
    skip content 0 ⟨p, a⟩ = ⟨p, a⟩ := skip_eq (n := 0) h hb

section After
variable {next : ParseBuffer → Parsed α} {done : α} {p a : ℕ}

theorem afterElement_comma (h : content.drop p = ch ',' :: r) :
    afterElement content close next done ⟨p, a⟩ = next ⟨p, a⟩ := by
  have hcomma : at? content p (ch ',') = true := by simp [at_of_drop h]
  unfold afterElement
  rw [skip_zero h (by decide)]
  exact if_pos hcomma

theorem afterElement_close (h : content.drop p = close :: r) (hc : 32 < close)
    (hne : close ≠ ch ',') :
    afterElement content close next done ⟨p, a⟩ = .ok (some done, ⟨p + 1, a⟩) := by
  have hcomma : ¬at? content p (ch ',') = true := by simp [at_of_drop h, hne]
  have hclose : at? content p close = true := by simp [at_of_drop h]
  unfold afterElement
  rw [skip_zero h hc]
  dsimp only
  rw [if_neg hcomma, if_pos hclose]

end After

/-- **The loop over elements** that are separated by commas. -/
theorem loop_text (hc : 32 < close) (hne : close ≠ ch ',') (hnum : isNumberChar close = false) :
    ∀ {l : List β} {x : β} {child : List α} {fuel p a : ℕ} {c : Byte},
    (∀ z ∈ x :: l, Turn content close t y good loop z) →
    content.drop p = c :: (t x ++ ((l.map t).flatMap (ch ',' :: ·) ++ close :: r)) →
    l.length < fuel →
    Gives (∀ z ∈ x :: l, good z) (child ++ (x :: l).map y)
      (p + 1 + (t x).length + ((l.map t).flatMap (ch ',' :: ·)).length + 1)
      (loop fuel child ⟨p, a⟩)
  | l, x, child, 0, _, _, _, _, _, hf => absurd hf (Nat.not_lt_zero _)
  | l, x, child, fuel + 1, p, a, c, hturn, h, hf => by
    have hend : isNumberChar (deref ((l.map t).flatMap (ch ',' :: ·) ++ close :: r)) = false := by
      cases l with
      | nil => exact hnum
      | cons z l => rfl
    obtain ⟨hgood, hbad⟩ := hturn x List.mem_cons_self fuel child p a c _ h hend
    have hrest := drop_append (drop_cons h)
    by_cases hx : good x
    swap
    · exact ⟨fun hall => absurd (hall x List.mem_cons_self) hx, fun _ => hbad hx⟩
    obtain ⟨a', ha'⟩ := hgood hx
    rw [ha']
    cases l with
    | nil =>
      rw [afterElement_close hrest hc hne]
      exact ⟨fun _ => ⟨a', rfl⟩,
        fun hnot => absurd (fun z hz => by rwa [List.mem_singleton.mp hz]) hnot⟩
    | cons z l =>
      rw [List.map_cons, List.flatMap_cons, List.cons_append, List.cons_append,
        List.append_assoc] at hrest
      rw [afterElement_comma hrest]
      have ih : Gives (∀ w ∈ z :: l, good w) (child ++ [y x] ++ (z :: l).map y)
          (p + 1 + (t x).length + 1 + (t z).length + ((l.map t).flatMap (ch ',' :: ·)).length + 1)
          (loop fuel (child ++ [y x]) ⟨p + 1 + (t x).length, a'⟩) :=
        loop_text hc hne hnum (fun w hw => hturn w (List.mem_cons_of_mem x hw)) hrest
          (Nat.lt_of_succ_lt_succ hf)
      have hall : (∀ w ∈ x :: z :: l, good w) ↔ ∀ w ∈ z :: l, good w := by
        rw [List.forall_mem_cons, and_iff_right hx]
      have hlen : p + 1 + (t x).length + 1 + (t z).length +
          ((l.map t).flatMap (ch ',' :: ·)).length + 1 = p + 1 + (t x).length +
          (((z :: l).map t).flatMap (ch ',' :: ·)).length + 1 := by
        rw [List.map_cons, List.flatMap_cons, List.length_append, List.length_cons]
        omega
      rw [hall, ← hlen]
      rwa [List.append_assoc] at ih

theorem length_le_flatMap : ∀ l : List β, l.length ≤ ((l.map t).flatMap (ch ',' :: ·)).length
  | [] => le_rfl
  | z :: l => by
    have := length_le_flatMap l
    rw [List.map_cons, List.flatMap_cons, List.length_append, List.length_cons, List.length_cons]
    omega

theorem parseNested_text (hc : 32 < close) (hne : close ≠ ch ',')
    (hnum : isNumberChar close = false) {l : List β} {p a : ℕ} {c : Byte}
    (hturn : ∀ z ∈ l, Turn content close t y good loop z)
    (hhead : ∀ z ∈ l, ∃ b u, t z = b :: u ∧ 32 < b ∧ b ≠ close)
    (h : content.drop p = c :: ([ch ','].intercalate (l.map t) ++ close :: r)) :
    Gives (∀ z ∈ l, good z) (l.map y) (p + 1 + ([ch ','].intercalate (l.map t)).length + 1)
      (parseNested content close (loop content.length []) ⟨p, a⟩) := by
  have h1 := drop_cons h
  cases l with
  | nil =>
    have hclose : at? content (p + 1) close = true := by simp [at_of_drop h1]
    unfold parseNested
    rw [skip_eq h1 hc]
    dsimp only
    rw [if_pos hclose]
    exact ⟨fun _ => ⟨a, rfl⟩, fun hnot => absurd (fun _ hz => by cases hz) hnot⟩
  | cons x l =>
    obtain ⟨b, u, hb, hb32, hbc⟩ := hhead x List.mem_cons_self
    rw [List.map_cons, intercalate_cons, List.append_assoc] at h h1
    have hloop : Gives (∀ z ∈ x :: l, good z) ([] ++ (x :: l).map y)
        (p + 1 + (t x).length + ((l.map t).flatMap (ch ',' :: ·)).length + 1)
        (loop content.length [] ⟨p, a⟩) := by
      refine loop_text hc hne hnum hturn h ?_
      have hlen := congrArg List.length h
      have hle := length_le_flatMap (t := t) l
      rw [List.length_drop, List.length_cons, List.length_append, List.length_append,
        List.length_cons] at hlen
      omega
    rw [hb, List.cons_append] at h1
    have hclose : ¬at? content (p + 1) close = true := by simp [at_of_drop h1, hbc]
    have hlen : p + 1 + ([ch ','].intercalate ((x :: l).map t)).length + 1 =
        p + 1 + (t x).length + ((l.map t).flatMap (ch ',' :: ·)).length + 1 := by
      rw [List.map_cons, intercalate_cons, List.length_append]
      omega
    unfold parseNested
    rw [skip_eq h1 hb32]
    dsimp only [Nat.add_sub_cancel]
    rw [if_neg hclose, if_neg (Nat.not_le.mpr (lt_of_drop h1)), hlen]
    exact hloop

end Loop

/-! ### Values -/

section Values
variable {ν : Type} {content r : List Byte} {alloc : ℕ → Bool} {round : ℚ → ν} {p a n : ℕ}

theorem Gives.wrap {α : Type} {good : Prop} {value : List α} {offset : ℕ} {x : Parsed (List α)}
    (h : Gives good value offset x) (f : List α → Item ν) :
    Gives good (f value) offset (wrap f x) := by
  constructor
  · intro hg
    obtain ⟨a, ha⟩ := h.1 hg
    exact ⟨a, by rw [ha]; rfl⟩
  · intro hg
    obtain ⟨s, hs⟩ := h.2 hg
    exact ⟨s, by rw [hs]; rfl⟩

theorem reads_of_head {b c : Byte} {t w : List Byte} (h : content.drop p = b :: t) (hne : b ≠ c) :
    reads content p (c :: w) = false := by
  rw [reads, h, List.isPrefixOf_cons_cons]
  simp [hne.symm]

theorem reads_of_drop {w : List Byte} (h : content.drop p = w ++ r) : reads content p w = true := by
  rw [reads, h, List.isPrefixOf_iff_prefix]
  exact List.prefix_append w r

/-- **A value that is no word** is told by its first byte. -/
theorem parseValueWith_of_drop {deeper : Option (ParseBuffer → Parsed (Item ν))} {b : Byte}
    {t : List Byte} (h : content.drop p = b :: t) (hn : b ≠ ch 'n') (hf : b ≠ ch 'f')
    (ht : b ≠ ch 't') : parseValueWith content alloc round deeper ⟨p, a⟩ =
      if b = 34 then (parseString content alloc ⟨p, a⟩).map fun x => (x.1.map .string, x.2)
      else if b = ch '-' ∨ isDigit b then parseNumber content alloc round ⟨p, a⟩
      else if b = ch '[' then
        match deeper with
        | none => .ok (none, ⟨p, a⟩)
        | some parseValue => wrap .array (parseNested content (ch ']')
            (arrayLoop content alloc parseValue content.length []) ⟨p, a⟩)
      else if b = ch '{' then
        match deeper with
        | none => .ok (none, ⟨p, a⟩)
        | some parseValue => wrap .object (parseNested content (ch '}')
            (objectLoop content alloc parseValue content.length []) ⟨p, a⟩)
      else .ok (none, ⟨p, a⟩) := by
  have hnull : reads content p (ascii ['n', 'u', 'l', 'l']) = false := reads_of_head h hn
  have hfalse : reads content p (ascii ['f', 'a', 'l', 's', 'e']) = false := reads_of_head h hf
  have htrue : reads content p (ascii ['t', 'r', 'u', 'e']) = false := reads_of_head h ht
  unfold parseValueWith
  simp only [hnull, hfalse, htrue, getElem?_of_drop h]
  rfl

/-- The parser reads the item back from its text, if so many levels are enough. -/
def ReadsBack (content : List Byte) (round : ℚ → ν) (parseValue : ParseBuffer → Parsed (Item ν))
    (n : ℕ) (x : Item ℤ) : Prop :=
  ∀ (p a : ℕ) (r : List Byte), content.drop p = text x ++ r → isNumberChar (deref r) = false →
    Gives (depth x ≤ n) (mapNumbers (fun n : ℤ => round n) x) (p + (text x).length)
      (parseValue ⟨p, a⟩)

section Turns
variable {parseValue : ParseBuffer → Parsed (Item ν)} (ha : ∀ i, alloc i = true)
include ha

theorem turn_array {x : Item ℤ} (hx : ReadsBack content round parseValue n x) :
    Turn content (ch ']') text (mapNumbers fun n : ℤ => round n) (fun x => depth x ≤ n)
      (arrayLoop content alloc parseValue) x := by
  intro fuel child p a c r h hr
  have h1 := drop_cons h
  obtain ⟨b, t, hb, hb32, -⟩ := exists_text x
  have hhead := h1
  rw [hb, List.cons_append] at hhead
  obtain ⟨hgood, hbad⟩ := hx (p + 1) (a + 1) r h1 hr
  rw [arrayLoop, ha, if_neg (by decide), skip_eq (n := 1) hhead hb32]
  constructor
  · intro hd
    obtain ⟨a', ha'⟩ := hgood hd
    refine ⟨a', ?_⟩
    rw [ha', ok_bind]
  · intro hd
    obtain ⟨s, hs⟩ := hbad hd
    refine ⟨s, ?_⟩
    rw [hs, ok_bind]

theorem turn_object {m : List Byte × Item ℤ} (h0 : 0 ∉ m.1)
    (hx : ReadsBack content round parseValue n m.2) :
    Turn content (ch '}') (fun m => printString m.1 ++ ch ':' :: text m.2)
      (fun m => (m.1, mapNumbers (fun n : ℤ => round n) m.2)) (fun m => depth m.2 ≤ n)
      (objectLoop content alloc parseValue) m := by
  intro fuel child p a c r h hr
  obtain ⟨name, x⟩ := m
  dsimp only at h0 hx h ⊢
  rw [List.append_assoc, List.cons_append] at h
  have h1 := drop_cons h
  have hquote : content.drop (p + 1) =
      34 :: (name.flatMap printByte ++ [34] ++ ch ':' :: (text x ++ r)) := h1
  have hcolon := drop_append h1
  have hvalue := drop_cons hcolon
  obtain ⟨b, t, hb, hb32, -⟩ := exists_text x
  have hhead := hvalue
  rw [hb, List.cons_append] at hhead
  obtain ⟨hgood, hbad⟩ := hx _ (a + 2) r hvalue hr
  have hat : ¬at? content (p + 1 + (printString name).length) (ch ':') = false := by
    simp [at_of_drop hcolon]
  have hlen : p + 1 + (printString name).length + 1 + (text x).length =
      p + 1 + (printString name ++ ch ':' :: text x).length := by
    rw [List.length_append, List.length_cons]
    omega
  rw [objectLoop, ha, if_neg (by decide), if_neg (Nat.not_le.mpr (lt_of_drop h1)),
    skip_eq (n := 1) hquote (by decide), parseString_text ha h0 h1, ok_bind]
  dsimp only
  rw [skip_zero hcolon (by decide)]
  dsimp only
  rw [if_neg hat, skip_eq (n := 1) hhead hb32]
  constructor
  · intro hd
    obtain ⟨a', ha'⟩ := hgood hd
    refine ⟨a', ?_⟩
    rw [ha', hlen, ok_bind]
  · intro hd
    obtain ⟨s, hs⟩ := hbad hd
    refine ⟨s, ?_⟩
    rw [hs, ok_bind]

end Turns

/-- **A value without children** is read back at any level. -/
theorem parseValueWith_text {deeper : Option (ParseBuffer → Parsed (Item ν))} {x : Item ℤ}
    (ha : ∀ i, alloc i = true) (hx : Clean x) (h : content.drop p = text x ++ r)
    (hr : isNumberChar (deref r) = false) (hlist : ∀ l, x ≠ .array l)
    (hobject : ∀ l, x ≠ .object l) :
    ∃ a', parseValueWith content alloc round deeper ⟨p, a⟩ =
      .ok (some (mapNumbers (fun n : ℤ => round n) x), ⟨p + (text x).length, a'⟩) := by
  cases x with
  | null =>
    have hnull : reads content p (ascii ['n', 'u', 'l', 'l']) = true := reads_of_drop h
    exact ⟨a, if_pos hnull⟩
  | bool b =>
    refine ⟨a, ?_⟩
    unfold parseValueWith
    dsimp only
    cases b with
    | false =>
      have hhead : content.drop p = ch 'f' :: (ascii ['a', 'l', 's', 'e'] ++ r) := h
      have hnull : reads content p (ascii ['n', 'u', 'l', 'l']) = false :=
        reads_of_head hhead (by decide)
      have hfalse : reads content p (ascii ['f', 'a', 'l', 's', 'e']) = true := reads_of_drop h
      rw [hnull, if_neg (by decide), if_pos hfalse]
      rfl
    | true =>
      have hhead : content.drop p = ch 't' :: (ascii ['r', 'u', 'e'] ++ r) := h
      have hnull : reads content p (ascii ['n', 'u', 'l', 'l']) = false :=
        reads_of_head hhead (by decide)
      have hfalse : reads content p (ascii ['f', 'a', 'l', 's', 'e']) = false :=
        reads_of_head hhead (by decide)
      have htrue : reads content p (ascii ['t', 'r', 'u', 'e']) = true := reads_of_drop h
      rw [hnull, if_neg (by decide), hfalse, if_neg (by decide), if_pos htrue]
      rfl
  | number m =>
    obtain ⟨b, t, hb, hd⟩ := exists_printNumber m
    have hhead := h
    rw [text, hb, List.cons_append] at hhead
    have hne : b ≠ ch 'n' ∧ b ≠ ch 'f' ∧ b ≠ ch 't' ∧ b ≠ 34 := by
      rcases hd with rfl | hd
      · decide
      · refine ⟨?_, ?_, ?_, ?_⟩ <;> rintro rfl <;> exact absurd hd (by decide)
    refine ⟨a + 1, ?_⟩
    rw [parseValueWith_of_drop hhead hne.1 hne.2.1 hne.2.2.1, if_neg hne.2.2.2, if_pos hd,
      parseNumber_text ha h hr]
    rfl
  | string s =>
    have h0 : 0 ∉ s := hx s List.mem_cons_self
    have hhead : content.drop p = 34 :: (s.flatMap printByte ++ [34] ++ r) := h
    refine ⟨a + 1, ?_⟩
    rw [parseValueWith_of_drop hhead (by decide) (by decide) (by decide), if_pos rfl,
      parseString_text ha h0 h]
    rfl
  | array l => exact absurd rfl (hlist l)
  | object l => exact absurd rfl (hobject l)

/-- **Every value is read back**: the induction is on the item, for any number of levels. -/
theorem parseValue_text (ha : ∀ i, alloc i = true) {x : Item ℤ} (hx : Clean x) (n : ℕ) :
    ReadsBack content round (parseValue content alloc round n) n x := by
  have hscalar : ∀ (n : ℕ) (x : Item ℤ), Clean x → (∀ l, x ≠ .array l) → (∀ l, x ≠ .object l) →
      depth x ≤ n → ReadsBack content round (parseValue content alloc round n) n x := by
    intro n x hx hlist hobject hd p a r h hr
    cases n <;>
      (obtain ⟨a', ha'⟩ := parseValueWith_text ha hx h hr hlist hobject
       exact ⟨fun _ => ⟨a', ha'⟩, fun hnot => absurd hd hnot⟩)
  induction x using item_induct generalizing n with
  | null => exact hscalar n _ hx nofun nofun (Nat.zero_le n)
  | bool b => exact hscalar n _ hx nofun nofun (Nat.zero_le n)
  | number m => exact hscalar n _ hx nofun nofun (Nat.zero_le n)
  | string s => exact hscalar n _ hx nofun nofun (Nat.zero_le n)
  | array l ih =>
    intro p a r h hr
    have hopen : content.drop p = ch '[' :: ([ch ','].intercalate (l.map text) ++ ch ']' :: r) := by
      rw [h, text, texts_eq, List.cons_append, List.append_assoc]
      rfl
    have hvalue : ∀ deeper, parseValueWith content alloc round deeper ⟨p, a⟩ =
        match deeper with
        | none => .ok (none, ⟨p, a⟩)
        | some parseValue => wrap .array (parseNested content (ch ']')
            (arrayLoop content alloc parseValue content.length []) ⟨p, a⟩) := by
      intro deeper
      rw [parseValueWith_of_drop hopen (by decide) (by decide) (by decide), if_neg (by decide),
        if_neg (by decide), if_pos rfl]
    cases n with
    | zero =>
      rw [parseValue, hvalue]
      exact ⟨fun hd => absurd hd (Nat.not_succ_le_zero _), fun _ => ⟨_, rfl⟩⟩
    | succ n =>
      have hnested := parseNested_text (r := r) (p := p) (a := a) (by decide) (by decide)
        (by decide) (fun x hxl => turn_array ha (ih x hxl (clean_array.mp hx x hxl) n))
        (fun x _ => by
          obtain ⟨b, t, hb, hb32, -, hne⟩ := exists_text x
          exact ⟨b, t, hb, hb32, hne⟩) hopen
      have hdepth : depth (Item.array l) ≤ n + 1 ↔ ∀ x ∈ l, depth x ≤ n := by
        rw [depth, Nat.succ_le_succ_iff, depths_le_iff]
      have hlen : p + (text (.array l)).length =
          p + 1 + ([ch ','].intercalate (l.map text)).length + 1 := by
        rw [text, texts_eq, List.length_cons, List.length_append, List.length_singleton]
        omega
      rw [parseValue, hvalue, hdepth, hlen, mapNumbers, mapElements_eq]
      exact hnested.wrap .array
  | object l ih =>
    intro p a r h hr
    have hopen : content.drop p = ch '{' :: ([ch ','].intercalate
        (l.map fun m => printString m.1 ++ ch ':' :: text m.2) ++ ch '}' :: r) := by
      rw [h, text, members_eq, List.cons_append, List.append_assoc]
      rfl
    have hvalue : ∀ deeper, parseValueWith content alloc round deeper ⟨p, a⟩ =
        match deeper with
        | none => .ok (none, ⟨p, a⟩)
        | some parseValue => wrap .object (parseNested content (ch '}')
            (objectLoop content alloc parseValue content.length []) ⟨p, a⟩) := by
      intro deeper
      rw [parseValueWith_of_drop hopen (by decide) (by decide) (by decide), if_neg (by decide),
        if_neg (by decide), if_neg (by decide), if_pos rfl]
    cases n with
    | zero =>
      rw [parseValue, hvalue]
      exact ⟨fun hd => absurd hd (Nat.not_succ_le_zero _), fun _ => ⟨_, rfl⟩⟩
    | succ n =>
      have hclean := clean_object.mp hx
      have hnested := parseNested_text (r := r) (p := p) (a := a) (by decide) (by decide)
        (by decide) (fun m hm => turn_object ha (hclean m hm).1 (ih m hm (hclean m hm).2 n))
        (fun m _ => ⟨34, _, rfl, by decide⟩) hopen
      have hdepth : depth (Item.object l) ≤ n + 1 ↔ ∀ m ∈ l, depth m.2 ≤ n := by
        rw [depth, Nat.succ_le_succ_iff, memberDepths_le_iff]
      have hlen : p + (text (.object l)).length = p + 1 + ([ch ','].intercalate
          (l.map fun m => printString m.1 ++ ch ':' :: text m.2)).length + 1 := by
        rw [text, members_eq, List.length_cons, List.length_append, List.length_singleton]
        omega
      rw [parseValue, hvalue, hdepth, hlen, mapNumbers, mapMembers_eq]
      exact hnested.wrap .object

end Values

theorem gives_parse {ν : Type} (round : ℚ → ν) {x : Item ℤ} (hx : Clean x) :
    (depth x ≤ cjsonNestingLimit → parse (fun _ => true) round (text x) =
      .ok (some (mapNumbers (fun n : ℤ => round n) x))) ∧
    (¬depth x ≤ cjsonNestingLimit → parse (fun _ => true) round (text x) = .ok none) := by
  obtain ⟨b, t, hb, hb32, hb127, -⟩ := exists_text x
  have h0 : 0 ∉ text x := fun h => absurd (text_gt x 0 h) (by decide)
  set content := text x ++ [0] with hcontent
  have hcons : content = b :: (t ++ [0]) := by rw [hcontent, hb, List.cons_append]
  have hcstr : cstr (text x) ++ [0] = content := by rw [cstr_of_notMem h0]
  have hbom : skipUtf8Bom content = 0 := by
    have hne : b ≠ 0xEF := by
      rintro rfl
      exact absurd hb127 (by decide)
    have hreads : reads content 0 [0xEF, 0xBB, 0xBF] = false :=
      reads_of_head (t := t ++ [0]) hcons hne
    rw [skipUtf8Bom, hreads, if_neg (by simp)]
  have hstart : bufferSkipWhitespace content 0 = 0 := skip_of_drop (t := t ++ [0]) hcons hb32
  have hvalue : ReadsBack content round (parseValue content (fun _ => true) round cjsonNestingLimit)
      cjsonNestingLimit x := parseValue_text (fun _ => rfl) hx _
  obtain ⟨hgood, hbad⟩ := hvalue 0 1 [0] rfl (by decide)
  have hlen : content.length ≠ 0 := by simp [hcons]
  unfold parse parseWithLengthOpts
  rw [hcstr]
  dsimp only
  rw [if_neg hlen, if_neg (by decide), hbom, hstart]
  constructor
  · intro hd
    obtain ⟨a, ha⟩ := hgood hd
    rw [ha, ok_bind]
    rfl
  · intro hd
    obtain ⟨s, hs⟩ := hbad hd
    rw [hs, ok_bind]
    rfl

/-- **The round trip.** An item whose strings are C strings is read back from its text, with every
number rounded, if it is nested no deeper than the limit; else the parser refuses its text. -/
theorem parse_text {ν : Type} (round : ℚ → ν) {x : Item ℤ} (hx : Clean x) :
    parse (fun _ => true) round (text x) = .ok (if depth x ≤ cjsonNestingLimit
      then some (mapNumbers (fun n : ℤ => round n) x) else none) := by
  obtain ⟨hgood, hbad⟩ := gives_parse round hx
  split_ifs with hd
  · exact hgood hd
  · exact hbad hd

theorem parse_text_array :
    parse (fun _ => true) id (text (.array [.number (-7), .string [97, 10]])) =
      .ok (some (.array [.number ((-7 : ℤ) : ℚ), .string [97, 10]])) :=
  parse_text id (x := .array [.number (-7), .string [97, 10]]) (by unfold Clean; decide)

end Serie.Json.RoundTrip
