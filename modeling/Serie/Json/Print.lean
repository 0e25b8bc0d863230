import Serie.Json.Buffer
import Serie.Json.Layout

/-! # Printing into memory

The printer makes the text of an item (`layout`) at the end of its buffer, or it fails; it writes to
no other memory and keeps at most one block. When it fails is told by the size of the text and by
how deep the item is nested (`print_spec`), so a buffer of the caller has to hold one byte more than
the text and its null byte (`printPreallocated_iff`). -/

namespace Serie.Json.Print

open Serie.Lib.CText Serie.Model.Logg Serie.Model.JsonPrint Serie.Json.Item Serie.Json.Layout
open Serie.Json.Buffer Serie.Log.Framing
open Serie.Model.JsonParse (Item cjsonNestingLimit)
open Serie.Model.CJson (printByte printString printString_gt)

/-! ### Strings and numbers -/

theorem printByte_length (b : Byte) : (printByte b).length = 1 + escapeCharacters b ∧
    (escapeCharacters b = 0 → printByte b = [b]) := by
  have hall : ∀ n < 256, (printByte n.toUInt8).length = 1 + escapeCharacters n.toUInt8 ∧
      (escapeCharacters n.toUInt8 = 0 → printByte n.toUInt8 = [n.toUInt8]) := by decide +kernel
  have hb : b.toNat.toUInt8 = b := by simp
  rw [← hb]
  exact hall _ b.toNat_lt

/-- The size that is computed first is that of the escaped string. -/
theorem length_escaped : ∀ s : List Byte,
    (s.flatMap printByte).length = s.length + (s.map escapeCharacters).sum
  | [] => rfl
  | b :: s => by
    rw [List.flatMap_cons, List.length_append, length_escaped s, (printByte_length b).1,
      List.length_cons, List.map_cons, List.sum_cons]
    omega

theorem escaped_eq : ∀ {s : List Byte}, (s.map escapeCharacters).sum = 0 → s.flatMap printByte = s
  | [], _ => rfl
  | b :: s, h => by
    rw [List.map_cons, List.sum_cons, Nat.add_eq_zero_iff] at h
    rw [List.flatMap_cons, (printByte_length b).2 h.1, escaped_eq h.2]
    rfl

section Values
variable {e : Printer} {R d : ℕ} {pre : List Byte} {p : PrintBuffer}

/-- **`print_string_ptr`**, in either of its branches. -/
theorem printStringPtr_spec (hR : Bound e R) (h : Holds e R d pre p) {s : List Byte} (h0 : 0 ∉ s) :
    Does e (pre.length + (printString s).length + 2 ≤ R) (Tail e R d pre (printString s))
      (printStringPtr e s p) := by
  have hlen := length_escaped s
  have hsize : (printString s).length = (s.flatMap printByte).length + 2 := by
    rw [printString, List.length_cons, List.length_append, List.length_singleton]
  unfold printStringPtr
  rw [cstr_of_notMem h0]
  dsimp only
  rw [← hlen]
  have hput : Does e (pre.length + ((s.flatMap printByte).length + 3) + 1 ≤ R)
      (Tail e R d pre (printString s)) (put e ((s.flatMap printByte).length + 3) [(0, [34]),
        (1, s.flatMap printByte), ((s.flatMap printByte).length + 1, [34, 0])] 0 p) := by
    refine put_tail hR h ?_ (by omega) (Nat.zero_le _)
    simpa [printString] using covers_string (s.flatMap printByte)
  split_ifs with hesc
  · have hsame := escaped_eq hesc
    rw [hsame] at hput hsize ⊢
    exact hput.congr (by omega)
  · exact hput.congr (by omega)

theorem printNumber_spec (hR : Bound e R) (h : Holds e R d pre p) {n : ℤ}
    (hn : n.natAbs < 10 ^ 15) :
    Does e (pre.length + (Model.CJson.printNumber n).length + 2 ≤ R)
      (Tail e R d pre (Model.CJson.printNumber n)) (Model.JsonPrint.printNumber e n p) := by
  have hlen : (Model.CJson.printNumber n).length ≤ 16 := by
    rw [printNumber_eq]
    exact Lib.Decimal.length_signed_le (by decide) hn
  unfold Model.JsonPrint.printNumber
  dsimp only
  rw [if_neg (by omega)]
  exact (put_tail hR h (covers_one _) (by omega) le_rfl).congr (by omega)

/-! ### Nesting -/

theorem enter_spec {t : List Byte} {fits : Prop} {print : PrintBuffer → Printed}
    (h : Holds e R d pre p) (hprint : Does e fits (Holds e R d t) (print p)) :
    Does e (d < cjsonNestingLimit ∧ fits) (Holds e R (d + 1) t) (enter print p) := by
  obtain ⟨rest, hb, -⟩ := h
  unfold enter
  rw [hb.depth]
  by_cases hd : cjsonNestingLimit ≤ d
  · rw [if_pos hd]
    exact ⟨false, p, rfl, fun hb => (by cases hb), fun _ => hb.dropped, fun _ hf => by omega⟩
  · rw [if_neg hd]
    have hnext : ∀ q, Holds e R d t q →
        Does e True (Holds e R (d + 1) t) (.ok (true, { q with depth := q.depth + 1 })) :=
      fun q ⟨rest, hq, hrest⟩ => does_true trivial ⟨rest, ⟨hq.buffer, hq.length, hq.le, hq.full,
        hq.offset, congrArg (· + 1) hq.depth, Nat.not_le.mp hd, hq.live⟩, hrest⟩
    refine (hprint.seq hnext).congr ?_
    rw [and_true, Nat.not_le] at *
    exact (and_iff_right hd).symm

theorem leave_spec {t : List Byte} (h : Tail e R (d + 1) pre t p) :
    Does e True (Tail e R d pre t) (leave p) := by
  obtain ⟨k, rest, hk, hb⟩ := h
  exact does_true trivial ⟨k, rest, hk, hb.buffer, hb.length, hb.le, hb.full, hb.offset,
    congrArg (· - 1) hb.depth, Nat.le_of_succ_le hb.depth_le, hb.live⟩

end Values

/-! ### Items -/

section Items
variable {e : Printer} {R : ℕ}

/-- The item is printed behind any text, if it is not nested too deep and there is room. -/
def Prints (e : Printer) (R : ℕ) (x : Item ℤ) : Prop :=
  ∀ (d : ℕ) (pre : List Byte) (p : PrintBuffer), Holds e R d pre p →
    Does e (d + depth x ≤ cjsonNestingLimit ∧
        pre.length + (layout e.format d x).length + 2 ≤ R)
      (Tail e R d pre (layout e.format d x)) (printValue e x p)

theorem prints_scalar {x : Item ℤ} (harray : ∀ l, x ≠ .array l) (hobject : ∀ l, x ≠ .object l)
    (h : ∀ (d : ℕ) (pre : List Byte) (p : PrintBuffer), Holds e R d pre p →
      Does e (pre.length + (text x).length + 2 ≤ R) (Tail e R d pre (text x))
        (printValue e x p)) (hd : depth x = 0) : Prints e R x := by
  intro d pre p hp
  obtain ⟨rest, hb, -⟩ := id hp
  have hle := hb.depth_le
  rw [layout_eq_text harray hobject d, hd]
  exact (h d pre p hp).congr (and_iff_right hle).symm

section Loops
variable (hR : Bound e R)
include hR

theorem comma_spec {d : ℕ} {pre : List Byte} {p : PrintBuffer} (h : Holds e R d pre p) :
    Does e (pre.length + (ch ',' :: if e.format then [ch ' '] else []).length + 2 ≤ R)
      (Holds e R d (pre ++ ch ',' :: if e.format then [ch ' '] else [])) (comma e p) := by
  have hlen : (ch ',' :: if e.format then [ch ' '] else []).length =
      if e.format then 2 else 1 := by split_ifs <;> rfl
  unfold comma
  rw [← hlen]
  exact (put_holds hR h (z := [0]) (covers_one _) (by omega) (by simp)).congr (by omega)

theorem printElements_spec : ∀ {l : List (Item ℤ)} {d : ℕ} {pre : List Byte} {p : PrintBuffer},
    (∀ x ∈ l, Prints e R x) → Holds e R d pre p →
    Does e ((∀ x ∈ l, d + depth x ≤ cjsonNestingLimit) ∧
        (l ≠ [] → pre.length + (elementsLayout e.format d l).length + 2 ≤ R))
      (Holds e R d (pre ++ elementsLayout e.format d l)) (printElements e l p)
  | [], d, pre, p, _, h => by
    rw [elementsLayout, List.append_nil]
    exact (does_skipped h).congr (by simp)
  | [x], d, pre, p, hx, h => by
    have hlast : elementsLayout e.format d [x] = layout e.format d x := by simp [elementsLayout]
    rw [hlast, printElements]
    refine ((hx x List.mem_cons_self d pre p h).seq fun q hq =>
      (updateOffset_spec hq (notMem_layout x d)).seq fun q hq =>
        (does_skipped hq).seq fun q hq => does_skipped hq).congr ?_
    simp
  | x :: y :: l, d, pre, p, hx, h => by
    obtain ⟨hx, hl⟩ := List.forall_mem_cons.mp hx
    have hcons : elementsLayout e.format d (x :: y :: l) = layout e.format d x ++
        ((ch ',' :: if e.format then [ch ' '] else []) ++ elementsLayout e.format d (y :: l)) := rfl
    rw [hcons, printElements]
    simp only [← List.append_assoc]
    refine ((hx d pre p h).seq fun q hq => (updateOffset_spec hq (notMem_layout x d)).seq
      fun q hq => (comma_spec hR hq).seq fun q hq => printElements_spec hl hq).congr ?_
    have hall : (∀ z ∈ x :: y :: l, d + depth z ≤ cjsonNestingLimit) ↔
        d + depth x ≤ cjsonNestingLimit ∧ ∀ z ∈ y :: l, d + depth z ≤ cjsonNestingLimit :=
      List.forall_mem_cons
    rw [hall]
    simp only [List.length_append, ne_eq, reduceCtorEq, not_false_eq_true, forall_const, true_and]
    constructor
    · rintro ⟨⟨h1, -⟩, -, h4, h5⟩
      exact ⟨⟨h1, h4⟩, by omega⟩
    · rintro ⟨⟨h1, h4⟩, h5⟩
      exact ⟨⟨h1, by omega⟩, by omega, h4, by omega⟩

theorem tabs_spec {d : ℕ} {pre : List Byte} {p : PrintBuffer} (h : Holds e R d pre p) :
    Does e (e.format = true → pre.length + d + 1 ≤ R)
      (Holds e R d (pre ++ if e.format then List.replicate d (ch '\t') else [])) (tabs e p) := by
  obtain ⟨rest, hb, -⟩ := id h
  unfold tabs
  rw [hb.depth]
  by_cases hf : e.format = true
  · rw [if_pos hf, if_pos hf]
    have hput : Does e (pre.length + d + 1 ≤ R) (Holds e R d (pre ++ List.replicate d (ch '\t')))
        (put e d [(0, List.replicate d (ch '\t'))] (List.replicate d (ch '\t')).length p) := by
      refine put_holds hR h (z := []) ?_ (by simp) (by simp)
      rw [List.append_nil]
      exact covers_one _
    rw [List.length_replicate] at hput
    exact hput.congr (by simp [hf])
  · rw [if_neg hf, if_neg hf, List.append_nil]
    exact (does_skipped h).congr (by simp [hf])

theorem colon_spec {d : ℕ} {pre : List Byte} {p : PrintBuffer} (h : Holds e R d pre p) :
    Does e (pre.length + (ch ':' :: if e.format then [ch '\t'] else []).length + 1 ≤ R)
      (Holds e R d (pre ++ ch ':' :: if e.format then [ch '\t'] else [])) (colon e p) := by
  have hlen : (ch ':' :: if e.format then [ch '\t'] else []).length =
      if e.format then 2 else 1 := by split_ifs <;> rfl
  unfold colon
  rw [← hlen]
  refine put_holds hR h (z := []) ?_ le_rfl (by simp)
  rw [List.append_nil]
  exact covers_one _

theorem memberEnd_spec {d : ℕ} {pre : List Byte} {p : PrintBuffer} (h : Holds e R d pre p)
    (next : Bool) :
    Does e (pre.length + ((if next then [ch ','] else []) ++
        if e.format then [ch '\n'] else []).length + 2 ≤ R)
      (Holds e R d (pre ++ ((if next then [ch ','] else []) ++
        if e.format then [ch '\n'] else []))) (memberEnd e next p) := by
  have hlen : ((if next then [ch ','] else []) ++ if e.format then [ch '\n'] else []).length =
      (if e.format then 1 else 0) + if next then 1 else 0 := by
    rw [List.length_append, Nat.add_comm]
    split_ifs <;> rfl
  unfold memberEnd
  rw [← hlen]
  refine (put_holds hR h (z := [0]) ?_ (by omega) (by simp)).congr (by omega)
  rw [List.append_assoc]
  exact covers_one _

theorem printMembers_spec : ∀ {l : List (List Byte × Item ℤ)} {d : ℕ} {pre : List Byte}
    {p : PrintBuffer}, (∀ m ∈ l, 0 ∉ m.1 ∧ Prints e R m.2) → Holds e R d pre p →
    Does e ((∀ m ∈ l, d + depth m.2 ≤ cjsonNestingLimit) ∧
        (l ≠ [] → pre.length + (membersLayout e.format d l).length + 2 ≤ R))
      (Holds e R d (pre ++ membersLayout e.format d l)) (printMembers e l p)
  | [], d, pre, p, _, h => by
    rw [membersLayout, List.append_nil]
    exact (does_skipped h).congr (by simp)
  | (name, x) :: l, d, pre, p, hm, h => by
    obtain ⟨⟨h0, hx⟩, hl⟩ := List.forall_mem_cons.mp hm
    have hname : 0 ∉ printString name := fun hm => absurd (printString_gt hm) (by decide)
    have hnext : (if l.isEmpty then [] else [ch ',']) = if !l.isEmpty then [ch ','] else [] := by
      cases l <;> rfl
    rw [membersLayout, printMembers, hnext]
    simp only [← List.append_assoc]
    refine ((tabs_spec hR h).seq fun q hq => (printStringPtr_spec hR hq h0).seq
      fun q hq => (updateOffset_spec hq hname).seq fun q hq => (colon_spec hR hq).seq
        fun q hq => (hx d _ q hq).seq fun q hq => (updateOffset_spec hq (notMem_layout x d)).seq
          fun q hq => ((memberEnd_spec hR hq (!l.isEmpty)).seq fun q hq =>
            printMembers_spec hl hq)).congr ?_ |>.mono fun q hq => ?_
    · have htabs : e.format = true →
          (if e.format then List.replicate d (ch '\t') else []).length = d := fun hf => by
        rw [if_pos hf, List.length_replicate]
      have hlast : l = [] → (membersLayout e.format d l).length = 0 := fun hl => by rw [hl]; rfl
      have hall : (∀ m ∈ (name, x) :: l, d + depth m.2 ≤ cjsonNestingLimit) ↔
          d + depth x ≤ cjsonNestingLimit ∧ ∀ m ∈ l, d + depth m.2 ≤ cjsonNestingLimit :=
        List.forall_mem_cons
      rw [hall]
      simp only [List.length_append, ne_eq, reduceCtorEq, not_false_eq_true, forall_const, true_and]
      constructor
      · rintro ⟨-, -, -, ⟨h1, -⟩, h2, h3, h4⟩
        refine ⟨⟨h1, h3⟩, ?_⟩
        by_cases hl : l = []
        · have := hlast hl
          omega
        · have := h4 hl
          omega
      · rintro ⟨⟨h1, h3⟩, h⟩
        refine ⟨fun hf => ?_, by omega, by omega, ⟨h1, by omega⟩, by omega, h3, fun _ => by omega⟩
        have := htabs hf
        omega
    · simpa only [← List.append_assoc] using hq

theorem prints_array {l : List (Item ℤ)} (hl : ∀ x ∈ l, Prints e R x) :
    Prints e R (.array l) := by
  intro d pre p h
  have hopen : Does e (pre.length + 1 + 1 ≤ R) (Holds e R d (pre ++ [ch '[']))
      (put e 1 [(0, [ch '['])] 1 p) := by
    refine put_holds hR h (t := [ch '[']) (z := []) ?_ le_rfl (by simp)
    exact covers_one _
  have hclose : ∀ (pre : List Byte) (q : PrintBuffer), Holds e R (d + 1) pre q →
      Does e (pre.length + 2 + 1 ≤ R) (Tail e R (d + 1) pre [ch ']'])
        (put e 2 [(0, [ch ']', 0])] 0 q) := fun pre q hq =>
    put_tail hR hq (t := [ch ']']) (covers_one _) (by simp) (Nat.zero_le _)
  rw [printValue, printArray]
  refine ((enter_spec h hopen).seq fun q hq => (printElements_spec hR hl hq).seq fun q hq =>
    (hclose _ q hq).seq fun q hq => leave_spec hq).congr ?_ |>.mono fun q hq => ?_
  · have hdepth : d + depth (.array l) ≤ cjsonNestingLimit ↔
        d < cjsonNestingLimit ∧ ∀ x ∈ l, d + 1 + depth x ≤ cjsonNestingLimit := by
      rw [depth]
      constructor
      · intro h
        refine ⟨by omega, fun x hx => ?_⟩
        have := depths_le_iff.mp (le_refl (depths l)) x hx
        omega
      · rintro ⟨h0, h⟩
        have : depths l ≤ cjsonNestingLimit - (d + 1) := depths_le_iff.mpr fun x hx => by
          have := h x hx
          omega
        omega
    rw [hdepth, layout]
    simp only [List.length_append, List.length_cons, List.length_nil]
    constructor
    · rintro ⟨⟨h1, -⟩, ⟨h2, -⟩, h3, -⟩
      exact ⟨⟨h1, h2⟩, by omega⟩
    · rintro ⟨⟨h1, h2⟩, h3⟩
      exact ⟨⟨h1, by omega⟩, ⟨h2, fun _ => by omega⟩, by omega, trivial⟩
  · rw [List.append_assoc] at hq
    simpa [layout] using hq.absorb

theorem objectBegin_spec {d : ℕ} {pre : List Byte} {p : PrintBuffer} (h : Holds e R d pre p) :
    Does e (pre.length + (ch '{' :: if e.format then [ch '\n'] else []).length + 2 ≤ R)
      (Holds e R d (pre ++ ch '{' :: if e.format then [ch '\n'] else [])) (objectBegin e p) := by
  have hlen : (ch '{' :: if e.format then [ch '\n'] else []).length =
      if e.format then 2 else 1 := by split_ifs <;> rfl
  unfold objectBegin
  rw [← hlen]
  refine (put_holds hR h (z := []) ?_ (by omega) (by simp)).congr (by omega)
  rw [List.append_nil]
  exact covers_one _

theorem objectEnd_spec {d : ℕ} {pre : List Byte} {p : PrintBuffer}
    (h : Holds e R (d + 1) pre p) :
    Does e (pre.length + ((if e.format then List.replicate d (ch '\t') else []) ++
        [ch '}']).length + 2 ≤ R)
      (Tail e R (d + 1) pre ((if e.format then List.replicate d (ch '\t') else []) ++ [ch '}']))
      (objectEnd e p) := by
  obtain ⟨rest, hb, -⟩ := id h
  have hlen : ((if e.format then List.replicate d (ch '\t') else []) ++ [ch '}']).length + 1 =
      if e.format then d + 1 + 1 else 2 := by
    split_ifs <;> simp
  unfold objectEnd
  rw [hb.depth, ← hlen, Nat.add_sub_cancel]
  refine (put_tail hR h ?_ (by omega) (Nat.zero_le _)).congr (by omega)
  rw [List.append_assoc]
  exact covers_one _

theorem prints_object {l : List (List Byte × Item ℤ)} (hl : ∀ m ∈ l, 0 ∉ m.1 ∧ Prints e R m.2) :
    Prints e R (.object l) := by
  intro d pre p h
  rw [printValue, printObject]
  refine ((enter_spec h (objectBegin_spec hR h)).seq fun q hq =>
    (printMembers_spec hR hl hq).seq fun q hq => (objectEnd_spec hR hq).seq fun q hq =>
      leave_spec hq).congr ?_ |>.mono fun q hq => ?_
  · have hdepth : d + depth (.object l) ≤ cjsonNestingLimit ↔
        d < cjsonNestingLimit ∧ ∀ m ∈ l, d + 1 + depth m.2 ≤ cjsonNestingLimit := by
      rw [depth]
      constructor
      · intro h
        refine ⟨by omega, fun m hm => ?_⟩
        have := memberDepths_le_iff.mp (le_refl (memberDepths l)) m hm
        omega
      · rintro ⟨h0, h⟩
        have : memberDepths l ≤ cjsonNestingLimit - (d + 1) :=
          memberDepths_le_iff.mpr fun m hm => by
            have := h m hm
            omega
        omega
    rw [hdepth, layout]
    simp only [List.length_append, List.length_cons, List.length_nil]
    constructor
    · rintro ⟨⟨h1, -⟩, ⟨h2, -⟩, h3, -⟩
      exact ⟨⟨h1, h2⟩, by omega⟩
    · rintro ⟨⟨h1, h2⟩, h3⟩
      exact ⟨⟨h1, by omega⟩, ⟨h2, fun _ => by omega⟩, by omega, trivial⟩
  · rw [List.append_assoc] at hq
    simpa [layout] using hq.absorb

/-- **Every item is printed**: the induction is on the item, behind any text. -/
theorem prints {x : Item ℤ} (hx : Printable x) : Prints e R x := by
  induction x using item_induct with
  | null =>
    exact prints_scalar nofun nofun (fun d pre p h => put_tail hR h
      (t := ascii ['n', 'u', 'l', 'l']) (covers_one _) (by decide) (Nat.zero_le _)) rfl
  | bool b =>
    refine prints_scalar nofun nofun (fun d pre p h => ?_) rfl
    cases b with
    | false =>
      exact put_tail hR h (t := ascii ['f', 'a', 'l', 's', 'e']) (covers_one _) (by decide)
        (Nat.zero_le _)
    | true =>
      exact put_tail hR h (t := ascii ['t', 'r', 'u', 'e']) (covers_one _) (by decide)
        (Nat.zero_le _)
  | number n =>
    exact prints_scalar nofun nofun (fun d pre p h => printNumber_spec hR h
      (hx.2 n (List.mem_singleton_self n))) rfl
  | string s =>
    exact prints_scalar nofun nofun (fun d pre p h => printStringPtr_spec hR h
      (hx.1 s (List.mem_singleton_self s))) rfl
  | array l ih => exact prints_array hR fun x hxl => ih x hxl (hx.array x hxl)
  | object l ih =>
    exact prints_object hR fun m hm => ⟨(hx.object m hm).1, ih m hm (hx.object m hm).2⟩

end Loops

end Items

/-! ### The callers -/

section Callers
variable {e : Printer} {x : Item ℤ}

/-- The size and the nesting with which an item is printed into a block of at most `R` bytes. -/
def Fits (e : Printer) (R : ℕ) (x : Item ℤ) : Prop :=
  depth x ≤ cjsonNestingLimit ∧ (layout e.format 0 x).length + 2 ≤ R

theorem holds_bufferOf {R calls : ℕ} {mem : List Byte} (hle : mem.length ≤ R)
    (hfull : e.noalloc = true → mem.length = R)
    (hmem : mem = [] → e.noalloc = true ∨ e.reallocate = true) :
    Holds e R 0 [] (bufferOf mem calls) :=
  ⟨mem, ⟨rfl, rfl, hle, hfull, rfl, rfl, Nat.zero_le _, rfl⟩, fun h => ⟨rfl, hmem h⟩⟩

theorem prints_bufferOf {R calls : ℕ} {mem : List Byte} (hR : Bound e R) (hx : Printable x)
    (h : Holds e R 0 [] (bufferOf mem calls)) :
    Does e (Fits e R x) (Tail e R 0 [] (layout e.format 0 x))
      (printValue e x (bufferOf mem calls)) :=
  (prints hR hx 0 [] _ h).congr (by rw [Fits, List.length_nil, Nat.zero_add, Nat.zero_add])

theorem printFail_eq {p : PrintBuffer} (h : Dropped e p) : printFail p = (none, 0) := by
  unfold printFail
  rw [h.1]
  split_ifs <;> rfl

theorem grow_of_le {mem : List Byte} {size : ℕ} {fill : ℕ → Byte} (h : size ≤ mem.length) :
    grow mem size fill = mem.take size := by
  refine List.ext_getElem (by simp [grow, h]) fun i h1 h2 => ?_
  have hi : i < mem.length := by
    rw [grow, List.length_map, List.length_range] at h1
    omega
  simp [grow, hi]

/-- **`print`**: whichever allocations fail, it makes no wrong access; it returns the text with its
null byte, in the only block that is left, or nothing, and leaves no block. If no allocation fails,
it fails only for an item that is nested too deep or whose text is too long. -/
theorem print_spec (he : e.noalloc = false) (hx : Printable x) :
    ∃ r live, print e x = .ok (r, live) ∧ (live = if r = none then 0 else 1) ∧
      (∀ block, r = some block → block = layout e.format 0 x ++ [0] ∧
        (e.format = false → block = text x ++ [0])) ∧
      (r ≠ none → Fits e intMax x) ∧ ((∀ n, e.alloc n = true) → Fits e intMax x → r ≠ none) := by
  have hR : Bound e intMax := ⟨le_rfl, fun _ => rfl⟩
  unfold print
  by_cases ha : e.alloc 0 = false
  · rw [if_pos ha]
    refine ⟨none, 0, rfl, rfl, fun _ h => (by cases h), fun h => absurd rfl h, fun hall => ?_⟩
    rw [hall] at ha
    cases ha
  rw [if_neg ha]
  have hlen : (grow [] 256 (e.fill 0)).length = 256 := by simp [grow]
  have hholds : Holds e intMax 0 [] (bufferOf (grow [] 256 (e.fill 0)) 1) :=
    holds_bufferOf (by rw [hlen]; decide) (fun h => by rw [he] at h; cases h) fun h => by
      rw [h] at hlen
      cases hlen
  obtain ⟨b, p, hp, hok, hdrop, hrel⟩ := (prints_bufferOf hR hx hholds).seq fun q hq =>
    updateOffset_tail hq (notMem_layout x 0)
  rw [hp]
  cases b with
  | false =>
    dsimp only
    rw [printFail_eq (hdrop rfl)]
    exact ⟨none, 0, rfl, rfl, fun _ h => (by cases h), fun h => absurd rfl h,
      fun hall hf => absurd (hrel (Or.inr hall) ⟨hf, trivial⟩) (by decide)⟩
  | true =>
    obtain ⟨⟨hf, -⟩, rest, hb⟩ := hok rfl
    rw [List.nil_append] at hb
    set t := layout e.format 0 x with ht
    have htake : (t ++ 0 :: rest).take (t.length + 1) = t ++ [0] := by
      rw [List.take_append, List.take_of_length_le (by omega)]
      simp
    have hsize : t.length + 1 ≤ (t ++ 0 :: rest).length := by simp
    dsimp only
    rw [hb.buffer]
    dsimp only
    by_cases ha : e.alloc p.calls = false
    · rw [if_pos ha, printFail_eq hb.dropped]
      refine ⟨none, 0, rfl, rfl, fun _ h => (by cases h), fun h => absurd rfl h, fun hall => ?_⟩
      rw [hall] at ha
      cases ha
    rw [if_neg ha, hb.offset, hb.length, Nat.min_eq_right hsize, htake, hb.live]
    have hdone : ∀ block : List Byte, block = t ++ [0] → ∃ r live,
        (Except.ok (some block, (1 : ℤ)) : Except PrintFault _) = .ok (r, live) ∧
        (live = if r = none then 0 else 1) ∧ (∀ block, r = some block → block = t ++ [0] ∧
          (e.format = false → block = text x ++ [0])) ∧
        (r ≠ none → Fits e intMax x) ∧
        ((∀ n, e.alloc n = true) → Fits e intMax x → r ≠ none) := fun block hblock =>
      ⟨some block, 1, rfl, rfl, fun _ h => by
        cases h
        exact ⟨hblock, fun hformat => by rw [hblock, ht, hformat, layout_false]⟩,
        fun _ => hf, fun _ _ => Option.some_ne_none _⟩
    split_ifs with hreal
    · refine hdone _ ?_
      rw [grow_of_le hsize, htake]
    · refine hdone _ ?_
      have hlast : (t ++ [0]).length = t.length + 1 := by simp
      rw [grow_of_le hlast.ge, List.take_of_length_le hlast.le]
      have hstore : store (t ++ ([0] ++ [])) t.length [0] = t ++ ([0] ++ []) := store_append rfl
      rwa [List.append_nil] at hstore

/-- A printer without failures and without format. -/
def plain : Printer := ⟨fun _ => true, fun _ _ => 0, true, false, false⟩

/-- An array with a number and a string that is escaped. -/
def pair : Item ℤ := .array [.number (-7), .string [97, 10]]

theorem printable_pair : Printable pair := by
  unfold Printable Clean
  decide

theorem print_spec_pair :
    ∃ live, print plain pair = .ok (some (text pair ++ [0]), live) := by
  obtain ⟨r, live, h, -, hblock, -, hrel⟩ := print_spec (e := plain) rfl printable_pair
  obtain ⟨block, rfl⟩ := Option.ne_none_iff_exists'.mp (hrel (fun _ => rfl) ⟨by decide, by decide⟩)
  rw [(hblock block rfl).2 rfl] at h
  exact ⟨live, h⟩

/-- **`cJSON_PrintPreallocated`** never leaves the block of its caller, and succeeds exactly if the
item is not nested too deep and the block has one byte more than the text and its null byte. -/
theorem printPreallocated_iff (hx : Printable x) {buffer : List Byte}
    (hlen : buffer.length ≤ intMax) :
    ∃ b p mem, printPreallocated e buffer x = .ok (b, p) ∧ p.buffer = some mem ∧
      (b = true ↔ depth x ≤ cjsonNestingLimit ∧
        (layout e.format 0 x).length + 2 ≤ buffer.length) ∧
      (b = true → mem.length = buffer.length ∧ layout e.format 0 x ++ [0] <+: mem) := by
  set e' : Printer := { e with noalloc := true } with he'
  have hR : Bound e' buffer.length := ⟨hlen, fun h => by cases h⟩
  have hholds : Holds e' buffer.length 0 [] (bufferOf buffer 0) :=
    holds_bufferOf le_rfl (fun _ => rfl) fun _ => Or.inl rfl
  obtain ⟨b, p, hp, hok, hdrop, hrel⟩ := prints_bufferOf hR hx hholds
  have hiff : b = true ↔ Fits e' buffer.length x := ⟨fun hb => (hok hb).1, hrel (Or.inl rfl)⟩
  cases b with
  | false =>
    obtain ⟨mem, hmem⟩ := Option.ne_none_iff_exists'.mp ((hdrop rfl).2 rfl)
    exact ⟨false, p, mem, hp, hmem, hiff, fun h => by cases h⟩
  | true =>
    obtain ⟨k, rest, -, hb⟩ := (hok rfl).2
    refine ⟨true, p, _, hp, hb.buffer, hiff, fun _ => ⟨hb.full rfl, rest, ?_⟩⟩
    simp [he']

theorem printPreallocated_iff_pair :
    ∃ p, printPreallocated plain [0, 0, 0, 0, 0, 0, 0, 0, 0, 0, 0, 0] pair = .ok (true, p) := by
  obtain ⟨b, p, -, h, -, hiff, -⟩ := printPreallocated_iff (e := plain) printable_pair
    (show [0, 0, 0, 0, 0, 0, 0, 0, 0, 0, 0, 0].length ≤ intMax by decide)
  rw [hiff.mpr ⟨by decide, by decide⟩] at h
  exact ⟨p, h⟩

/-- **`cJSON_PrintBuffered`** returns a block that begins with the text and its null byte, or
nothing, and leaves no block. Without `reallocate`, its block must not be empty. -/
theorem printBuffered_spec (he : e.noalloc = false) (hx : Printable x) {prebuffer : ℤ}
    (hle : prebuffer ≤ intMax) (hpos : e.reallocate = true ∨ 0 < prebuffer) :
    ∃ r live, printBuffered e prebuffer x = .ok (r, live) ∧ (live = if r = none then 0 else 1) ∧
      (∀ block, r = some block → layout e.format 0 x ++ [0] <+: block) ∧
      (r ≠ none → Fits e intMax x) ∧
      (0 ≤ prebuffer → (∀ n, e.alloc n = true) → Fits e intMax x → r ≠ none) := by
  have hR : Bound e intMax := ⟨le_rfl, fun _ => rfl⟩
  unfold printBuffered
  by_cases hneg : prebuffer < 0
  · rw [if_pos hneg]
    exact ⟨none, 0, rfl, rfl, fun _ h => (by cases h), fun h => absurd rfl h,
      fun h => absurd h (Int.not_le.mpr hneg)⟩
  rw [if_neg hneg]
  by_cases ha : e.alloc 0 = false
  · rw [if_pos ha]
    refine ⟨none, 0, rfl, rfl, fun _ h => (by cases h), fun h => absurd rfl h, fun _ hall => ?_⟩
    rw [hall] at ha
    cases ha
  rw [if_neg ha]
  have hlen : (grow [] prebuffer.toNat (e.fill 0)).length = prebuffer.toNat := by simp [grow]
  have hholds : Holds e intMax 0 [] (bufferOf (grow [] prebuffer.toNat (e.fill 0)) 1) :=
    holds_bufferOf (by rw [hlen]; omega) (fun h => by rw [he] at h; cases h) fun h => by
      rw [h, List.length_nil] at hlen
      exact Or.inr (hpos.resolve_right (by omega))
  obtain ⟨b, p, hp, hok, hdrop, hrel⟩ := prints_bufferOf hR hx hholds
  rw [hp]
  cases b with
  | false =>
    dsimp only
    rw [printFail_eq (hdrop rfl)]
    exact ⟨none, 0, rfl, rfl, fun _ h => (by cases h), fun h => absurd rfl h,
      fun _ hall hf => absurd (hrel (Or.inr hall) hf) (by decide)⟩
  | true =>
    obtain ⟨hf, k, rest, -, hb⟩ := hok rfl
    dsimp only
    rw [hb.buffer, hb.live]
    refine ⟨_, 1, rfl, rfl, fun block h => ?_, fun _ => hf, fun _ _ _ => Option.some_ne_none _⟩
    cases h
    exact ⟨rest, by simp⟩

theorem printBuffered_spec_pair :
    ∃ block live, printBuffered plain 1 pair = .ok (some block, live) := by
  obtain ⟨r, live, h, -, -, -, hrel⟩ := printBuffered_spec (e := plain) rfl
    printable_pair (show (1 : ℤ) ≤ intMax by decide) (Or.inl rfl)
  obtain ⟨block, rfl⟩ := Option.ne_none_iff_exists'.mp
    (hrel (by decide) (fun _ => rfl) ⟨by decide, by decide⟩)
  exact ⟨block, live, h⟩

end Callers

end Serie.Json.Print
