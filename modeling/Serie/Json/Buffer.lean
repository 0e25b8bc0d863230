import Serie.Log.Framing
import Serie.Model.JsonPrint

/-! # The buffer of the printer

What a call of the printer does is stated for all of its outcomes (`Does`): it makes no wrong
access, it succeeds only under a condition, and if no allocation fails, it succeeds whenever the
condition holds. Such statements are put together with `Does.seq`. `put` writes a piece of text
behind the text that is there (`put_holds`), or a value with its null byte (`put_tail`), which
`update_offset` passes over (`updateOffset_tail`). -/

namespace Serie.Json.Buffer

open Serie.Lib.CText Serie.Model.Logg Serie.Model.JsonPrint Serie.Log.Framing
open Serie.Model.JsonParse (Item cjsonNestingLimit)

/-! ### The block -/

/-- The buffer has the block `mem`, and the offset and the depth given; the block is within the
bound `R`. -/
structure Block (e : Printer) (R d : ℕ) (mem : List Byte) (off : ℕ) (p : PrintBuffer) : Prop where
  buffer : p.buffer = some mem
  length : p.length = mem.length
  le : mem.length ≤ R
  full : e.noalloc = true → mem.length = R
  offset : p.offset = off
  depth : p.depth = d
  depth_le : d ≤ cjsonNestingLimit
  live : p.live = 1

/-- The bound: a block of the caller, or as much as is supported. -/
structure Bound (e : Printer) (R : ℕ) : Prop where
  le : R ≤ intMax
  grows : e.noalloc = false → R = intMax

/-- The buffer holds the text `pre`, and its offset is behind it. -/
def Holds (e : Printer) (R d : ℕ) (pre : List Byte) (p : PrintBuffer) : Prop :=
  ∃ rest, Block e R d (pre ++ rest) pre.length p ∧
    (rest = [] → pre = [] ∧ (e.noalloc = true ∨ e.reallocate = true))

/-- The buffer holds the text `pre ++ t` and a null byte, and its offset is not behind it yet. -/
def Tail (e : Printer) (R d : ℕ) (pre t : List Byte) (p : PrintBuffer) : Prop :=
  ∃ k rest, k ≤ t.length ∧ Block e R d (pre ++ (t ++ 0 :: rest)) (pre.length + k) p

/-- The buffer after a failure: no other block is left than its own, and the block of a caller is
left in any case. -/
def Dropped (e : Printer) (p : PrintBuffer) : Prop :=
  (p.live = if p.buffer = none then 0 else 1) ∧ (e.noalloc = true → p.buffer ≠ none)

theorem Block.dropped {e : Printer} {R d off : ℕ} {mem : List Byte} {p : PrintBuffer}
    (h : Block e R d mem off p) : Dropped e p := by
  rw [Dropped, h.buffer, h.live]
  exact ⟨rfl, fun _ => Option.some_ne_none mem⟩

/-- No allocation fails. -/
def Reliable (e : Printer) : Prop := e.noalloc = true ∨ ∀ n, e.alloc n = true

/-- **What a call does**: it makes no wrong access; it succeeds only if `fits`, and then `post`
holds; if no allocation fails, it succeeds if `fits`. -/
def Does (e : Printer) (fits : Prop) (post : PrintBuffer → Prop) (x : Printed) : Prop :=
  ∃ b q, x = .ok (b, q) ∧ (b = true → fits ∧ post q) ∧ (b = false → Dropped e q) ∧
    (Reliable e → fits → b = true)

section Does
variable {e : Printer} {R d : ℕ} {pre t : List Byte} {p : PrintBuffer}
  {fits fits' : Prop} {post post' : PrintBuffer → Prop} {x : Printed}

theorem does_true {q : PrintBuffer} (hf : fits) (h : post q) : Does e fits post (.ok (true, q)) :=
  ⟨true, q, rfl, fun _ => ⟨hf, h⟩, fun hb => (by cases hb), fun _ _ => rfl⟩

theorem Does.congr (h : Does e fits post x) (hf : fits ↔ fits') : Does e fits' post x := by
  obtain ⟨b, q, hx, hok, hdrop, hrel⟩ := h
  exact ⟨b, q, hx, fun hb => ⟨hf.mp (hok hb).1, (hok hb).2⟩, hdrop,
    fun hr hf' => hrel hr (hf.mpr hf')⟩

theorem Does.seq {first next : PrintBuffer → Printed} (h : Does e fits post (first p))
    (hnext : ∀ q, post q → Does e fits' post' (next q)) :
    Does e (fits ∧ fits') post' (seq first next p) := by
  obtain ⟨b, q, hx, hok, hdrop, hrel⟩ := h
  unfold Model.JsonPrint.seq
  rw [hx]
  cases b with
  | false =>
    refine ⟨false, q, rfl, fun hb => (by cases hb), fun _ => hdrop rfl, fun hr hf => ?_⟩
    exact hrel hr hf.1
  | true =>
    obtain ⟨hf, hpost⟩ := hok rfl
    obtain ⟨b, q', hx', hok', hdrop', hrel'⟩ := hnext q hpost
    exact ⟨b, q', hx', fun hb => ⟨⟨hf, (hok' hb).1⟩, (hok' hb).2⟩, hdrop',
      fun hr hf => hrel' hr hf.2⟩

theorem does_skipped (h : post p) : Does e True post (skipped p) := does_true trivial h

end Does

/-! ### Making room and writing -/

section Put
variable {e : Printer} {R d : ℕ} {pre : List Byte} {p : PrintBuffer}

/-- **`ensure`** finds room behind the text, or fails. -/
theorem ensure_spec (hR : Bound e R) (h : Holds e R d pre p) (needed : ℕ) :
    (∃ q, ensure e needed p = .ok (none, q) ∧ Dropped e q ∧
      ¬(Reliable e ∧ pre.length + needed + 1 ≤ R)) ∨
    ∃ q rest, ensure e needed p = .ok (some pre.length, q) ∧
      Block e R d (pre ++ rest) pre.length q ∧ needed + 1 ≤ rest.length := by
  obtain ⟨rest, hb, hrest⟩ := h
  have hle : pre.length + rest.length ≤ R := by rw [← List.length_append]; exact hb.le
  have hsame : Dropped e p := hb.dropped
  have hlen : p.length = pre.length + rest.length := by rw [hb.length, List.length_append]
  have hpos : rest ≠ [] → 0 < rest.length := List.length_pos_of_ne_nil
  have hval : ¬(0 < p.length ∧ p.length ≤ p.offset) := by
    rw [hb.offset, hlen]
    rintro ⟨h0, h1⟩
    by_cases hr : rest = []
    · rw [hr, (hrest hr).1] at h0
      exact absurd h0 (by simp)
    · have := hpos hr
      omega
  unfold ensure
  rw [hb.buffer]
  dsimp only
  rw [if_neg hval, hb.offset, hlen]
  by_cases hbig : intMax < needed
  · rw [if_pos hbig]
    have := hR.le
    exact Or.inl ⟨p, rfl, hsame, fun hn => by omega⟩
  rw [if_neg hbig]
  by_cases hfit : needed + (pre.length + 1) ≤ pre.length + rest.length
  · rw [if_pos hfit]
    exact Or.inr ⟨p, rest, rfl, hb, by omega⟩
  rw [if_neg hfit]
  by_cases hno : e.noalloc = true
  · rw [if_pos hno]
    have hfull := hb.full hno
    rw [List.length_append] at hfull
    exact Or.inl ⟨p, rfl, hsame, fun hn => by omega⟩
  rw [if_neg hno]
  have hmax : R = intMax := hR.grows (by simpa using hno)
  by_cases hmore : intMax < needed + (pre.length + 1)
  · rw [if_pos hmore]
    exact Or.inl ⟨p, rfl, hsame, fun hn => by omega⟩
  rw [if_neg hmore]
  by_cases ha : e.alloc p.calls = false
  · rw [if_pos ha]
    refine Or.inl ⟨_, rfl, ⟨?_, fun hn => absurd hn hno⟩, fun hn => ?_⟩
    · show p.live - 1 = 0
      rw [hb.live]
      rfl
    · rcases hn.1 with hr | hr
      · exact hno hr
      · rw [hr] at ha
        cases ha
  rw [if_neg ha]
  set newsize := if intMax / 2 < needed + (pre.length + 1) then intMax
    else (needed + (pre.length + 1)) * 2 with hnew
  have hsize : needed + (pre.length + 1) ≤ newsize ∧ newsize ≤ intMax := by
    rw [hnew]
    split_ifs <;> omega
  -- what is kept of the old block begins with the text
  have hgrown : ∀ kept : List Byte, pre.length + kept.length ≤ newsize →
      ∃ rest', grow (pre ++ kept) newsize (e.fill p.calls) = pre ++ rest' ∧
        pre.length + rest'.length = newsize := by
    intro kept hk
    have hle : (pre ++ kept).length ≤ newsize := by
      rw [List.length_append]
      exact hk
    obtain ⟨more, hg, hm⟩ := grow_eq hle (e.fill p.calls)
    refine ⟨kept ++ more, by rw [hg, List.append_assoc], ?_⟩
    rw [List.length_append] at hm ⊢
    omega
  have hnewBlock : ∀ {rest' : List Byte} {q : PrintBuffer},
      pre.length + rest'.length = newsize → q.buffer = some (pre ++ rest') →
      q.length = newsize → q.offset = pre.length → q.depth = p.depth → q.live = p.live →
      Block e R d (pre ++ rest') pre.length q := by
    intro rest' q hlen' hbuf hl hoff hdep hliv
    have hsum : (pre ++ rest').length = newsize := by rw [List.length_append, hlen']
    exact ⟨hbuf, hl.trans hsum.symm, by omega, fun h => absurd h hno, hoff, hdep.trans hb.depth,
      hb.depth_le, hliv.trans hb.live⟩
  by_cases hreal : e.reallocate = true
  · rw [if_pos hreal]
    obtain ⟨rest', hg, hl⟩ := hgrown rest (by omega)
    exact Or.inr ⟨_, rest', rfl, hnewBlock hl (congrArg some hg) rfl rfl rfl rfl, by omega⟩
  · rw [if_neg hreal]
    have hr : rest ≠ [] := fun hr => (hrest hr).2.elim hno hreal
    have hp := hpos hr
    have hread : ¬(pre ++ rest).length < pre.length + 1 := by
      rw [List.length_append]
      omega
    have htake : (pre ++ rest).take (pre.length + 1) = pre ++ rest.take 1 := by
      rw [List.take_append, List.take_of_length_le (by omega)]
      simp
    rw [if_neg hread, htake]
    obtain ⟨rest', hg, hl⟩ := hgrown (rest.take 1) (by rw [List.length_take]; omega)
    exact Or.inr ⟨_, rest', rfl, hnewBlock hl (congrArg some hg) rfl rfl rfl rfl, by omega⟩

/-- The writes put the bytes over as many bytes of the block. -/
def Covers (writes : List (ℕ × List Byte)) (bytes : List Byte) : Prop :=
  ∀ (pre m c : List Byte) (p : PrintBuffer), m.length = bytes.length →
    p.buffer = some (pre ++ (m ++ c)) →
    pokes pre.length writes p = .ok { p with buffer := some (pre ++ (bytes ++ c)) }

theorem poke_append {a m c b : List Byte} (hm : b.length = m.length)
    (hp : p.buffer = some (a ++ (m ++ c))) :
    poke a.length b p = .ok { p with buffer := some (a ++ (b ++ c)) } := by
  have hin : ¬(a ++ (m ++ c)).length < a.length + b.length := by
    rw [List.length_append, List.length_append]
    omega
  unfold poke
  rw [hp]
  dsimp only
  rw [if_neg hin, store_append hm]

theorem covers_one (bytes : List Byte) : Covers [(0, bytes)] bytes := by
  intro pre m c p hm hp
  rw [pokes, Nat.add_zero, poke_append hm.symm hp]
  rfl

theorem covers_string (body : List Byte) :
    Covers [(0, [34]), (1, body), (body.length + 1, [34, 0])] (34 :: (body ++ [34, 0])) := by
  intro pre m c p hm hp
  obtain ⟨x, m, rfl⟩ : ∃ x m', m = x :: m' := List.exists_cons_of_ne_nil (by
    rintro rfl
    cases hm)
  simp only [List.length_cons, List.length_append] at hm
  obtain ⟨m₁, m₂, rfl, hm₁⟩ : ∃ m₁ m₂, m = m₁ ++ m₂ ∧ m₁.length = body.length :=
    ⟨m.take body.length, m.drop body.length, (List.take_append_drop _ _).symm, by
      rw [List.length_take]
      omega⟩
  rw [List.length_append] at hm
  rw [pokes, Nat.add_zero, poke_append (m := [x]) (c := m₁ ++ m₂ ++ c) (b := [34]) rfl hp]
  dsimp only
  have h1 : pre.length + 1 = (pre ++ [34]).length := by simp
  rw [pokes, h1, poke_append (m := m₁) (c := m₂ ++ c) hm₁.symm (by simp)]
  dsimp only
  have hm₂ : ([34, 0] : List Byte).length = m₂.length := by
    simp only [List.length_cons, List.length_nil] at hm ⊢
    omega
  have h2 : pre.length + (body.length + 1) = (pre ++ [34] ++ body).length := by
    rw [List.length_append, List.length_append, List.length_singleton]
    omega
  rw [pokes, h2, poke_append (m := m₂) (c := c) hm₂ (by simp)]
  simp [pokes]

/-- **`put`** writes behind the text. -/
theorem put_spec (hR : Bound e R) (h : Holds e R d pre p) {needed advance : ℕ}
    {writes : List (ℕ × List Byte)} {bytes : List Byte} (hw : Covers writes bytes)
    (hlen : bytes.length ≤ needed + 1) :
    Does e (pre.length + needed + 1 ≤ R)
      (fun q => ∃ rest, Block e R d (pre ++ (bytes ++ rest)) (pre.length + advance) q ∧
        needed + 1 ≤ bytes.length + rest.length) (put e needed writes advance p) := by
  unfold put
  rcases ensure_spec hR h needed with ⟨q, hq, hdrop, hno⟩ | ⟨q, rest, hq, hb, hroom⟩ <;> rw [hq]
  · exact ⟨false, q, rfl, fun hb => (by cases hb), fun _ => hdrop,
      fun hr hf => absurd ⟨hr, hf⟩ hno⟩
  obtain ⟨m, c, rfl, hm⟩ : ∃ m c, rest = m ++ c ∧ m.length = bytes.length :=
    ⟨rest.take bytes.length, rest.drop bytes.length, (List.take_append_drop _ _).symm, by
      rw [List.length_take]
      omega⟩
  have hsame : (pre ++ (bytes ++ c)).length = (pre ++ (m ++ c)).length := by simp [hm]
  dsimp only
  rw [hw pre m c q hm hb.buffer]
  rw [List.length_append] at hroom
  have hle := hb.le
  rw [List.length_append, List.length_append] at hle
  refine does_true (by omega) ⟨c, ⟨rfl, ?_, ?_, ?_, ?_, hb.depth, hb.depth_le, hb.live⟩, by omega⟩
  · exact hb.length.trans hsame.symm
  · rw [hsame]
    exact hb.le
  · rw [hsame]
    exact hb.full
  · show q.offset + advance = pre.length + advance
    rw [hb.offset]

theorem Does.mono {fits : Prop} {post post' : PrintBuffer → Prop} {x : Printed}
    (h : Does e fits post x) (hp : ∀ q, post q → post' q) : Does e fits post' x := by
  obtain ⟨b, q, hx, hok, hdrop, hrel⟩ := h
  exact ⟨b, q, hx, fun hb => ⟨(hok hb).1, hp q (hok hb).2⟩, hdrop, hrel⟩

theorem put_tail (hR : Bound e R) (h : Holds e R d pre p) {needed advance : ℕ}
    {writes : List (ℕ × List Byte)} {t : List Byte} (hw : Covers writes (t ++ [0]))
    (hlen : t.length ≤ needed) (hadv : advance ≤ t.length) :
    Does e (pre.length + needed + 1 ≤ R) (Tail e R d pre t) (put e needed writes advance p) := by
  refine (put_spec hR h hw (by simp; omega)).mono fun q ⟨rest, hb, _⟩ => ?_
  refine ⟨advance, rest, hadv, ?_⟩
  rwa [List.append_assoc] at hb

/-- A piece of text; `z` is written behind it, if anything. -/
theorem put_holds (hR : Bound e R) (h : Holds e R d pre p) {needed : ℕ}
    {writes : List (ℕ × List Byte)} {t z : List Byte} (hw : Covers writes (t ++ z))
    (hlen : t.length ≤ needed) (hz : t.length + z.length ≤ needed + 1) :
    Does e (pre.length + needed + 1 ≤ R) (Holds e R d (pre ++ t))
      (put e needed writes t.length p) := by
  refine (put_spec hR h hw (by simpa using hz)).mono fun q ⟨rest, hb, hroom⟩ => ?_
  rw [List.length_append] at hroom
  refine ⟨z ++ rest, ?_, fun hnil => ?_⟩
  · rwa [List.append_assoc, ← List.append_assoc, ← List.length_append] at hb
  · have hnone := congrArg List.length hnil
    rw [List.length_append, List.length_nil] at hnone
    omega

/-- **`update_offset`** finds the null byte. -/
theorem updateOffset_tail {t : List Byte} (h : Tail e R d pre t p) (h0 : 0 ∉ t) :
    Does e True (fun q => ∃ rest, Block e R d (pre ++ t ++ 0 :: rest) (pre ++ t).length q)
      (updateOffset p) := by
  obtain ⟨k, rest, hk, hb⟩ := h
  have hdrop : (pre ++ (t ++ 0 :: rest)).drop (pre.length + k) = t.drop k ++ 0 :: rest := by
    rw [List.drop_append, List.drop_of_length_le (by omega), List.nil_append,
      Nat.add_sub_cancel_left, List.drop_append_of_le_length hk]
  have hmem : 0 ∈ t.drop k ++ 0 :: rest := by simp
  have hclean : 0 ∉ t.drop k := fun hm => h0 (List.mem_of_mem_drop hm)
  unfold updateOffset
  rw [hb.buffer]
  dsimp only
  rw [hb.offset, hdrop, if_pos hmem, cstr_append_zero hclean]
  rw [← List.append_assoc] at hb
  refine does_true trivial ⟨rest, ⟨?_, hb.length, hb.le, hb.full, ?_, hb.depth, hb.depth_le,
    hb.live⟩⟩
  · rw [List.append_assoc]
  · show pre.length + k + (t.drop k).length = (pre ++ t).length
    rw [List.length_drop, List.length_append]
    omega

theorem updateOffset_spec {t : List Byte} (h : Tail e R d pre t p) (h0 : 0 ∉ t) :
    Does e True (Holds e R d (pre ++ t)) (updateOffset p) :=
  (updateOffset_tail h h0).mono fun _ ⟨rest, hb⟩ => ⟨0 :: rest, hb, fun hnil => by cases hnil⟩

theorem Tail.absorb {u t : List Byte} (h : Tail e R d (pre ++ u) t p) :
    Tail e R d pre (u ++ t) p := by
  obtain ⟨k, rest, hk, hb⟩ := h
  refine ⟨u.length + k, rest, by rw [List.length_append]; omega, ?_⟩
  rw [List.append_assoc] at hb ⊢
  rwa [List.length_append, Nat.add_assoc] at hb

end Put

end Serie.Json.Buffer
