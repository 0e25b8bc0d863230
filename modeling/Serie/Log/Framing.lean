import Serie.Fd.Clean
import Serie.Lib.Lines
import Serie.Model.Logg
import Serie.Model.Runs
import Serie.Tree.Invariant

/-! # The text of a flush

The buffer holds the text so far, its length in `curr_len` and the null byte behind it (`Holds`);
`logg_mem_writ` appends a line to it or leaves it alone (`Holds.loggMemWrit`). So a flush writes one
line for every record whose object is made, printed and stored, in the order of the buckets and
their chains. It comes to its end exactly if no slot is read that was never written: `fd_coun` may
be above the number of paths stored (`framed_iff`). -/

namespace Serie.Log.Framing

open Serie.Lib.CText Serie.Lib.Lines Serie.Lib.Trace Serie.Model.Record Serie.Model.Table
open Serie.Model.CJson Serie.Model.Logg Serie.Model.Conn Serie.Model.Steps Serie.Model.Runs
open Serie.Fd.Clean Serie.Tree.Invariant

/-! ### The slots that are read -/

/-- The path in slot `k` is copied. -/
def Copied (v : Visit) (p : Proc) (k : ℕ) : Prop :=
  (∃ id target, slotAt p.fdPaths k = some (.str id target)) ∧ v.entry k = true

/-- The array of paths is made from slots that were written: the loop reads the slots below
`fd_coun`, up to the first that is not copied. -/
def ReadsWritten (v : Visit) (p : Proc) : Prop :=
  p.fdPaths ≠ none → v.array = true → ∀ j < p.fdCoun.toNat, (∀ k < j, Copied v p k) →
    ∃ x, slotAt p.fdPaths j = some x ∧ x ≠ .unset

theorem stringItems_succ {a : List Slot} {alloc : ℕ → Bool} {n i id : ℕ} {target : List Byte}
    (hi : a[i]? = some (.str id target)) (ha : alloc i = true) :
    (∃ o, stringItems a alloc (n + 1) i = .ok o) ↔ ∃ o, stringItems a alloc n (i + 1) = .ok o := by
  rw [stringItems]
  simp only [hi, ha, Bool.true_eq_false, if_false]
  rcases stringItems a alloc n (i + 1) with e | _ | items <;> simp

/-- **The loop over the slots** comes to its end exactly if it reads none that was not written. -/
theorem stringItems_ok_iff (a : List Slot) (alloc : ℕ → Bool) : ∀ n i : ℕ,
    (∃ o, stringItems a alloc n i = .ok o) ↔
      ∀ j, i ≤ j → j < i + n →
        (∀ k, i ≤ k → k < j → (∃ id t, a[k]? = some (.str id t)) ∧ alloc k = true) →
        ∃ x, a[j]? = some x ∧ x ≠ .unset
  | 0, i => by
    refine iff_of_true ⟨_, rfl⟩ fun j h1 h2 => ?_
    omega
  | n + 1, i => by
    have ih := stringItems_ok_iff a alloc n (i + 1)
    -- slot `i` is read; the later ones only if it is copied
    have hfirst : (∃ x, a[i]? = some x ∧ x ≠ .unset) →
        ¬ ((∃ id t, a[i]? = some (.str id t)) ∧ alloc i = true) →
        ∀ j, i ≤ j → j < i + (n + 1) →
          (∀ k, i ≤ k → k < j → (∃ id t, a[k]? = some (.str id t)) ∧ alloc k = true) →
          ∃ x, a[j]? = some x ∧ x ≠ .unset := by
      intro hx hstop j hij _ hk
      rcases Nat.eq_or_lt_of_le hij with rfl | hlt
      · exact hx
      · exact absurd (hk i le_rfl hlt) hstop
    rcases hi : a[i]? with _ | _ | _ | ⟨id, target⟩
    · refine iff_of_false (by simp [stringItems, hi]) fun h => ?_
      obtain ⟨x, hx, -⟩ := h i le_rfl (by omega) fun k h1 h2 => absurd h2 (by omega)
      rw [hi] at hx; cases hx
    · refine iff_of_false (by simp [stringItems, hi]) fun h => ?_
      obtain ⟨x, hx, hne⟩ := h i le_rfl (by omega) fun k h1 h2 => absurd h2 (by omega)
      rw [hi] at hx; cases hx
      exact hne rfl
    · refine iff_of_true ⟨none, by simp [stringItems, hi]⟩ (hfirst ⟨_, hi, by simp⟩ ?_)
      rintro ⟨⟨id, t, ht⟩, -⟩
      rw [hi] at ht; cases ht
    · by_cases ha : alloc i = true
      · have hstr : (∃ id t, a[i]? = some (.str id t)) ∧ alloc i = true := ⟨⟨id, target, hi⟩, ha⟩
        rw [stringItems_succ hi ha, ih]
        constructor
        · intro h j h1 h2 hk
          rcases Nat.eq_or_lt_of_le h1 with rfl | hlt
          · exact ⟨_, hi, by simp⟩
          · exact h j hlt (by omega) fun k h3 h4 => hk k (by omega) h4
        · intro h j h1 h2 hk
          refine h j (by omega) (by omega) fun k h3 h4 => ?_
          rcases Nat.eq_or_lt_of_le h3 with rfl | hlt
          · exact hstr
          · exact hk k hlt h4
      · refine iff_of_true ⟨none, by simp [stringItems, hi, ha]⟩ ?_
        exact hfirst ⟨_, hi, by simp⟩ fun h => ha h.2

theorem createStringArray_ok_iff {v : Visit} {p : Proc} :
    (∃ o, createStringArray v.array v.entry p.fdPaths p.fdCoun = .ok o) ↔ ReadsWritten v p := by
  unfold createStringArray ReadsWritten Copied slotAt
  rcases p.fdPaths with _ | a
  · exact iff_of_true ⟨_, rfl⟩ fun h => absurd rfl h
  by_cases hc : p.fdCoun < 0
  · have h0 : p.fdCoun.toNat = 0 := by omega
    refine iff_of_true ⟨none, by simp [hc]⟩ fun _ _ j hj => ?_
    omega
  rcases hv : v.array with _ | _
  · exact iff_of_true ⟨none, by simp [hc]⟩ fun _ h => by cases h
  · simp only [hc, if_false, Bool.true_eq_false]
    rw [stringItems_ok_iff]
    simp

/-! ### The buffer -/

/-- The buffer holds a text, and the null byte behind it is its last byte. -/
structure Holds (text : List Byte) (buff : Buff) : Prop where
  mem : buff.mem = text ++ [0]
  currLen : buff.currLen = text.length
  no_null : 0 ∉ text

theorem holds_init : Holds [] buffInit := ⟨rfl, rfl, List.not_mem_nil⟩

theorem grow_eq {mem : List Byte} {size : ℕ} (h : mem.length ≤ size) (fill : ℕ → Byte) :
    ∃ rest, grow mem size fill = mem ++ rest ∧ rest.length = size - mem.length := by
  refine ⟨(grow mem size fill).drop mem.length, ?_, by simp [grow]⟩
  have htake : (grow mem size fill).take mem.length = mem := by
    refine List.ext_getElem (by simp [grow, h]) fun i h1 h2 => ?_
    simp [grow, h2]
  rw [← List.take_append_drop mem.length (grow mem size fill), htake, List.drop_left]

theorem store_append {a m c bytes : List Byte} (h : bytes.length = m.length) :
    store (a ++ (m ++ c)) a.length bytes = a ++ (bytes ++ c) := by
  have htake : (a ++ (m ++ c)).take a.length = a := List.take_left
  have hdrop : (a ++ (m ++ c)).drop (a.length + bytes.length) = c := by
    rw [← List.drop_drop, List.drop_left, h, List.drop_left]
  have hlen : (a ++ (bytes ++ c)).length = (a ++ (m ++ c)).length := by simp [h]
  rw [store, htake, hdrop, List.append_assoc, ← hlen, List.take_length]

/-- The three writes of a line: the object with its null byte, the newline over that null byte, and
a null byte behind. -/
theorem store_line {text b m : List Byte} {x : Byte} (h : m.length = b.length + 1) :
    store (store (store (text ++ (m ++ [x])) text.length (b ++ [0])) (text.length + b.length)
      [ch '\n']) (text.length + b.length + 1) [0] = text ++ (b ++ [ch '\n']) ++ [0] := by
  have h1 : store (text ++ (m ++ [x])) text.length (b ++ [0]) = text ++ ((b ++ [0]) ++ [x]) :=
    store_append (by simp [h])
  have h2 : store (text ++ ((b ++ [0]) ++ [x])) (text.length + b.length) [ch '\n'] =
      (text ++ b) ++ ([ch '\n'] ++ [x]) := by
    have he : text ++ ((b ++ [0]) ++ [x]) = (text ++ b) ++ ([0] ++ [x]) := by simp
    rw [he, ← List.length_append]
    exact store_append rfl
  have h3 : store ((text ++ b) ++ ([ch '\n'] ++ [x])) (text.length + b.length + 1) [0] =
      (text ++ (b ++ [ch '\n'])) ++ ([0] ++ []) := by
    have he : (text ++ b) ++ ([ch '\n'] ++ [x]) = (text ++ (b ++ [ch '\n'])) ++ ([x] ++ []) := by
      simp
    have hl : text.length + b.length + 1 = (text ++ (b ++ [ch '\n'])).length := by
      simp [Nat.add_assoc]
    rw [he, hl]
    exact store_append rfl
  rw [h1, h2, h3, List.append_nil]

/-- **`logg_mem_writ`** appends the object and a newline, or changes nothing. -/
theorem Holds.loggMemWrit {text : List Byte} {buff : Buff} (h : Holds text buff) (v : Visit)
    (j : Object) : Holds (text ++ if v.text && v.realloc then printObject j ++ [ch '\n'] else [])
      (loggMemWrit v j buff).2 := by
  unfold Model.Logg.loggMemWrit
  rcases ht : v.text with _ | _
  · simpa using h
  rcases hr : v.realloc with _ | _
  · simpa using h
  have hb0 : 0 ∉ printObject j := fun hm => absurd (printObject_gt hm) (by decide)
  have hcb : cstr (printObject j) = printObject j := cstr_of_notMem hb0
  simp only [Bool.true_eq_false, if_false, Bool.and_self, if_true, hcb, h.currLen, h.mem]
  generalize printObject j = b at hb0 ⊢
  obtain ⟨rest, hgrow, hrest⟩ : ∃ rest, grow (text ++ [0]) (text.length + b.length + 2) v.fill =
      text ++ [0] ++ rest ∧ _ := grow_eq (by simp; omega) v.fill
  -- room for the object and its null byte, and one byte more
  obtain ⟨m, x, hm, hmlen⟩ : ∃ m x, [0] ++ rest = m ++ [x] ∧ m.length = b.length + 1 := by
    have hne : ([0] : List Byte) ++ rest ≠ [] := by simp
    refine ⟨([0] ++ rest).dropLast, ([0] ++ rest).getLast hne,
      (List.dropLast_append_getLast hne).symm, ?_⟩
    rw [List.length_dropLast, List.length_append, List.length_singleton, hrest]
    simp only [List.length_append, List.length_singleton]
    omega
  rw [hgrow, List.append_assoc, hm, store_line hmlen]
  refine ⟨rfl, by simp, fun hm => ?_⟩
  rcases List.mem_append.mp hm with hm | hm
  · exact h.no_null hm
  rcases List.mem_append.mp hm with hm | hm
  · exact hb0 hm
  · exact absurd (List.mem_singleton.mp hm) (by decide)

/-! ### The loops -/

/-- The object of a record that is logged: it was created, printed and stored. -/
def logged (s : State) (v : Ref → Visit) (r : Ref) : Option Object :=
  if (v r).object && ((v r).text && (v r).realloc) then
    (loggProc2Json s (v r) (s.heap r)).toOption
  else none

/-- The lines of a flush. -/
def lines (s : State) (v : Ref → Visit) (l : List Ref) : List (List Byte) :=
  (l.filterMap (logged s v)).map printObject

/-- What the flush reads of a record was written. -/
def Readable (s : State) (v : Ref → Visit) (r : Ref) : Prop :=
  (v r).object = true → ReadsWritten (v r) (s.heap r)

section Loops
variable {s : State} {v : Ref → Visit} {text : List Byte} {buff : Buff}

theorem loggProc2Json_ok_iff {v : Visit} {p : Proc} :
    (∃ j, loggProc2Json s v p = .ok j) ↔ ReadsWritten v p := by
  rw [← createStringArray_ok_iff]
  unfold loggProc2Json loggFdPaths2Json
  rcases createStringArray v.array v.entry p.fdPaths p.fdCoun with e | o <;> simp

/-- **One record** adds its line, if it is logged. -/
theorem Holds.loggProc (h : Holds text buff) {r : Ref} (hr : Readable s v r) :
    ∃ buff', loggProc s (v r) r buff = .ok buff' ∧
      Holds (text ++ unlines (ch '\n') (lines s v [r])) buff' := by
  unfold Model.Logg.loggProc
  rcases ho : (v r).object with _ | _
  · refine ⟨buff, rfl, ?_⟩
    simpa [lines, logged, ho] using h
  obtain ⟨j, hj⟩ := loggProc2Json_ok_iff.mpr (hr ho)
  refine ⟨_, by rw [hj]; rfl, ?_⟩
  have hw := h.loggMemWrit (v r) j
  have hline : unlines (ch '\n') (lines s v [r]) =
      if (v r).text && (v r).realloc then printObject j ++ [ch '\n'] else [] := by
    rcases hc : (v r).text && (v r).realloc with _ | _
    · simp [lines, logged, hc]
    · simp [lines, logged, ho, hc, hj, unlines, Except.toOption]
  rw [hline]
  exact hw

theorem loggProc_error {r : Ref} (hr : ¬ Readable s v r) (buff : Buff) :
    ∃ e, Model.Logg.loggProc s (v r) r buff = .error e := by
  unfold Readable at hr
  push Not at hr
  obtain ⟨ho, hr⟩ := hr
  have hj : ¬ ∃ j, loggProc2Json s (v r) (s.heap r) = .ok j := by
    rw [loggProc2Json_ok_iff]
    exact hr
  unfold Model.Logg.loggProc
  rw [ho]
  rcases he : loggProc2Json s (v r) (s.heap r) with e | j
  · exact ⟨e, rfl⟩
  · exact absurd ⟨j, he⟩ hj

theorem lines_cons (r : Ref) (l : List Ref) :
    lines s v (r :: l) = lines s v [r] ++ lines s v l := by
  unfold lines
  rw [← List.map_append, ← List.filterMap_append]
  rfl

theorem Holds.loggChain : ∀ {l : List Ref} {text : List Byte} {buff : Buff}, Holds text buff →
    (∀ r ∈ l, Readable s v r) → ∃ buff', loggChain s v l buff = .ok buff' ∧
      Holds (text ++ unlines (ch '\n') (lines s v l)) buff'
  | [], text, buff, h, _ => ⟨buff, rfl, by simpa [lines] using h⟩
  | r :: l, text, buff, h, hr => by
    obtain ⟨b, hb, hh⟩ := h.loggProc (hr r List.mem_cons_self)
    obtain ⟨b', hb', hh'⟩ := hh.loggChain fun r hm => hr r (List.mem_cons_of_mem _ hm)
    refine ⟨b', ?_, ?_⟩
    · rw [Model.Logg.loggChain, hb]; exact hb'
    · rw [lines_cons, unlines_append, ← List.append_assoc]; exact hh'

theorem readable_of_loggChain : ∀ {l : List Ref} {buff buff' : Buff},
    loggChain s v l buff = .ok buff' → ∀ r ∈ l, Readable s v r
  | [], _, _, _ => by simp
  | r :: l, buff, buff', h => by
    rw [Model.Logg.loggChain] at h
    rcases hp : Model.Logg.loggProc s (v r) r buff with e | b <;> rw [hp] at h
    · cases h
    have hr : Readable s v r := by
      by_contra hn
      obtain ⟨e, he⟩ := loggProc_error hn buff
      rw [hp] at he; cases he
    exact List.forall_mem_cons.mpr ⟨hr, readable_of_loggChain h⟩

theorem loggChain_append : ∀ (l l' : List Ref) (buff : Buff), loggChain s v (l ++ l') buff =
    match loggChain s v l buff with
    | .error e => .error e
    | .ok buff => loggChain s v l' buff
  | [], _, _ => rfl
  | r :: l, l', buff => by
    rw [List.cons_append, Model.Logg.loggChain, Model.Logg.loggChain]
    rcases Model.Logg.loggProc s (v r) r buff with e | b
    · rfl
    · exact loggChain_append l l' b

theorem loggBuckets_eq : ∀ (is : List ℕ) (buff : Buff),
    loggBuckets s v is buff = loggChain s v (is.flatMap s.buckets) buff
  | [], _ => rfl
  | i :: is, buff => by
    rw [loggBuckets, List.flatMap_cons, loggChain_append]
    rcases Model.Logg.loggChain s v (s.buckets i) buff with e | b
    · rfl
    · exact loggBuckets_eq is b

end Loops

/-! ### A flush -/

/-- The text that a flush is to write: the lines of the records, each ended by a newline. -/
def snapshot (s : State) (v : Ref → Visit) : List Byte := unlines (ch '\n') (lines s v (records s))

/-- **A flush writes the snapshot**, and the text can be split into the lines again. -/
def Framed (s : State) (v : Ref → Visit) : Prop :=
  loggProcParse s v true = .ok (some (snapshot s v)) ∧
    (snapshot s v).splitOn (ch '\n') = lines s v (records s) ++ [[]]

theorem splitOn_snapshot (s : State) (v : Ref → Visit) :
    (snapshot s v).splitOn (ch '\n') = lines s v (records s) ++ [[]] := by
  refine splitOn_unlines fun l hl hm => ?_
  obtain ⟨j, -, rfl⟩ := List.mem_map.mp hl
  exact absurd (printObject_gt hm) (by decide)

theorem loggProcParse_eq {s : State} {v : Ref → Visit} {x : Except FdFault Buff}
    (h : loggChain s v (records s) buffInit = x) (fopen : Bool) : loggProcParse s v fopen =
      x.map fun buff => if fopen then some (cstr buff.mem) else none := by
  unfold records at h
  unfold loggProcParse
  rw [loggBuckets_eq, h]
  rcases x with e | b <;> rfl

theorem framed_of_readable {s : State} {v : Ref → Visit} (h : ∀ r ∈ records s, Readable s v r) :
    Framed s v := by
  obtain ⟨b, hb, hh⟩ := holds_init.loggChain h
  rw [List.nil_append, ← snapshot] at hh
  have htext : cstr b.mem = snapshot s v := by
    rw [hh.mem]
    exact cstr_append_zero hh.no_null
  refine ⟨?_, splitOn_snapshot s v⟩
  rw [loggProcParse_eq hb, ← htext]
  rfl

theorem readable_of_framed {s : State} {v : Ref → Visit} (h : Framed s v) :
    ∀ r ∈ records s, Readable s v r := by
  have hp := h.1
  rcases hc : loggChain s v (records s) buffInit with e | b
  · rw [loggProcParse_eq hc] at hp; cases hp
  · exact readable_of_loggChain hc

/-- **A flush is a complete and well-framed snapshot of any table, whatever fails, exactly when what
it reads of the records was written.** In the states of a run every record of the table is in it
once. -/
theorem framed_iff (s : State) (v : Ref → Visit) :
    (Framed s v ↔ ∀ r ∈ records s, Readable s v r) ∧
      (Sound s → (records s).Nodup ∧ ∀ r, r ∈ records s ↔ r ∈ s.tracked) := by
  constructor
  · exact ⟨readable_of_framed, framed_of_readable⟩
  · exact fun hs => ⟨hs.nodup_buckets _, fun r => hs.mem_buckets rfl⟩

/-- One descriptor can be read at the fork; the exec finds no directory, and the count is left at
`64`. -/
def stale : List Input := [
  input 1 (.fork 1 2) [(1, ['0']), (2, ['1'])],
  ⟨⟨2000000000, .exec 2 2⟩, fun _ => ⟨fun _ => procFiles ['1'] ['6', '4']
    (some [⟨ascii ['0'], true, some (ascii ['/'])⟩]), true, true⟩⟩,
  ⟨⟨3000000000, .exec 2 2⟩, fun _ => ⟨fun _ => procFiles ['1'] ['6', '4'] none, true, true⟩⟩]

/-- No allocation fails, and the clocks can be read. -/
def visit : Visit where
  object := true
  item _ := true
  array := true
  entry _ := true
  arrayText := true
  text := true
  realloc := true
  fill _ := 0
  birth := ⟨some ⟨5, 0⟩, some ⟨9, 0⟩, fun _ => some [], []⟩
  death := ⟨some ⟨5, 0⟩, some ⟨9, 0⟩, fun _ => some [], []⟩

/-- The second of 64 slots is read and was never written. -/
theorem not_framed_stale : Steps Step init (trace 0 init stale) ∧
    ¬ Framed (final init (trace 0 init stale)) fun _ => visit := by
  have hst : Steps Step init (trace 0 init stale) := steps_trace (by decide)
  refine ⟨hst, fun hf => ?_⟩
  set s := final init (trace 0 init stale) with hs
  have hread := (framed_iff s fun _ => visit).1.mp hf 1
    (((sound_final hst).mem_buckets rfl).mpr ⟨2, by decide⟩) rfl
  have harr : (s.heap 1).fdPaths ≠ none := by decide
  obtain ⟨x, hx, hne⟩ := hread harr rfl 1 (by decide) fun k hk => by
    obtain rfl : k = 0 := by omega
    exact ⟨⟨0, ascii ['/'], by decide⟩, rfl⟩
  have hslot : slotAt (s.heap 1).fdPaths 1 = some .unset := by decide
  rw [hslot] at hx; cases hx
  exact hne rfl

end Serie.Log.Framing
