import Serie.Log.HeapRecord
import Serie.Log.Framing

/-! # A flush in memory

The logger on blocks of memory against the logger of the list model. Whatever the allocator answers,
a flush either reads a slot of paths that must not be read, as the list model does, or it writes the
text that the list model writes for some answers, and every block that it took is freed, each once,
and no block is used that is not there (`flush_of_run`). Only the first call of `malloc` is not
checked. -/

namespace Serie.Log.HeapFlush

open Serie.Lib.CText Serie.Lib.Separation Serie.Lib.Trace Serie.Model.Record Serie.Model.Table
open Serie.Model.JsonHeap Serie.Model.Conn Serie.Model.Runs Serie.Json.Heap Serie.Json.HeapBuild
open Serie.Json.HeapRead Serie.Log.Framing Serie.Log.Line Serie.Log.HeapRecord Serie.Tree.Invariant
open Serie.Model.CJson (Object printObject)
open Serie.Model.Logg (Clocks Visit Buff buffInit grow records)

/-! ### The buffer -/

/-- The buffer of the list model lies at the address `b.1`, and `b.2` is its `curr_len`. -/
def bufferAt (b : ℕ × ℕ) (buff : Buff) : Assn Cell :=
  star (fact (b.2 = buff.currLen)) (pts b.1 (.text buff.mem))

theorem length_store (mem : List Byte) (pos : ℕ) (bytes : List Byte) :
    (Model.Logg.store mem pos bytes).length = mem.length := by
  unfold Model.Logg.store
  simp only [List.length_take, List.length_append, List.length_drop]
  omega

theorem length_grow (mem : List Byte) (size : ℕ) (new : ℕ → Byte) :
    (grow mem size new).length = size := by
  unfold grow
  rw [List.length_map, List.length_range]

section Buffer
variable {β : Type} {P R : Assn Cell} {S : β → Assn Cell} {E : Wrong → Prop} {ok : ℕ → Bool}
  {fill : ℕ → ℕ → Byte} {fuel o a : ℕ} {s : List Byte} {j : Object} {b : ℕ × ℕ} {buff : Buff}

theorem writeText_bind {pos : ℕ} {bytes : List Byte} {f : Unit → Code β}
    (hp : P = star (pts a (.text s)) R) (hle : pos + bytes.length ≤ s.length)
    (h : Triple (star (pts a (.text (Model.Logg.store s pos bytes))) R) (f ()) S E) :
    Triple P (writeText a pos bytes >>= f) S E := by
  unfold writeText
  rw [bind_assoc]
  refine loadText_bind hp ?_
  rw [if_neg (by omega)]
  exact Triple.store_bind hp h

theorem realloc_bind {size : ℕ} {f : Ptr → Code β} (hp : P = star (pts a (.text s)) R)
    (hnone : ¬ Serves ok → Triple P (f none) S E)
    (hsome : ∀ t n, Triple (star (pts t (.text (grow s size (fill n)))) R) (f (some t)) S E) :
    Triple P (realloc ok fill a size >>= f) S E := by
  unfold realloc
  rw [bind_assoc]
  refine loadText_bind hp ?_
  rw [bind_assoc]
  refine Triple.alloc_bind hnone fun t n => ?_
  rw [bind_assoc, hp]
  exact Triple.free_bind (star_tail star_head) (hsome t n)

/-- **`logg_mem_writ`** leaves the buffer of the list model for some answers. -/
theorem loggMemWrit_spec (hf : 2 * j.length + 1 ≤ fuel) (v : Visit) :
    Triple (star (lone o none .object (itemsOf j)) (bufferAt b buff))
      (loggMemWrit ok fuel fill o b.1 b.2) (fun c => ex fun text : Bool => ex fun room : Bool =>
        ex fun new : ℕ → Byte => star (fact (Serves ok → text = true ∧ room = true))
          (star (lone o none .object (itemsOf j)) (bufferAt c (Model.Logg.loggMemWrit
            { v with text := text, realloc := room, fill := new } j buff).2))) E := by
  obtain ⟨L, hL⟩ : ∃ L, L = lone o none .object (itemsOf j) := ⟨_, rfl⟩
  rw [← hL, bufferAt, star_left_comm]
  refine Triple.of_fact fun hb => ?_
  have hprint : Triple L (printUnformatted ok fuel (some o)) (fun q => star L
      (made ok (fun i => pts i (.text (printObject j ++ [0]))) q)) E := by
    rw [hL, ← text_itemsOf]
    exact printUnformatted_spec (by rwa [size_itemsOf])
  unfold loggMemWrit
  rw [hb]
  refine hprint.step rfl fun q => of_made fun hq => ?_
  rcases q with _ | q
  · dsimp only [opt]
    rw [star_emp]
    exact Triple.ret fun h hh => ⟨false, true, fun _ => 0,
      fact_star_iff.mpr ⟨fun hs => absurd rfl (hq hs),
        star_mono (fun _ => id) (fun _ hh => fact_star_iff.mpr ⟨rfl, hh⟩) hh⟩⟩
  dsimp only [opt]
  refine loadText_bind (s := printObject j ++ [0]) (R := star L (pts b.1 (.text buff.mem)))
    (by ac_rfl) ?_
  rw [cstr_append_nul]
  refine realloc_bind (s := buff.mem) (R := star L (pts q (.text (printObject j ++ [0]))))
    (star_comm ..) (fun hno => ?_) fun t n => ?_
  · dsimp only
    refine Triple.free_bind (v := .text (printObject j ++ [0])) (R := star L
      (pts b.1 (.text buff.mem))) (by ac_rfl) ?_
    exact Triple.ret fun h hh => ⟨true, false, fun _ => 0,
      fact_star_iff.mpr ⟨fun hs => absurd hs hno,
        star_mono (fun _ => id) (fun _ hh => fact_star_iff.mpr ⟨rfl, hh⟩) hh⟩⟩
  dsimp only
  have hlen : (cstr (printObject j) ++ [0]).length = (cstr (printObject j)).length + 1 :=
    List.length_append
  refine writeText_bind star_head (by rw [length_grow, hlen]; omega) ?_
  refine writeText_bind star_head
    (by rw [length_store, length_grow, List.length_singleton]; omega) ?_
  refine writeText_bind star_head
    (by rw [length_store, length_store, length_grow, List.length_singleton]) ?_
  refine Triple.free_bind (star_tail (star_comm ..)) (Triple.ret fun h hh => ?_)
  exact ⟨true, true, fill n, fact_star_iff.mpr ⟨fun _ => ⟨rfl, rfl⟩,
    star_mono (fun _ => id) (fun _ hh => fact_star_iff.mpr ⟨rfl, hh⟩)
      (holds_of_eq (star_comm ..) hh)⟩⟩

end Buffer

/-! ### The records -/

/-- The answers of the visits with these clocks. -/
def AllFit (ok : ℕ → Bool) (v : Ref → Visit) (birth death : Ref → Clocks) : Prop :=
  ∀ r, Fits ok (v r) (birth r) (death r)

theorem AllFit.update {ok : ℕ → Bool} {v : Ref → Visit} {birth death : Ref → Clocks}
    (h : AllFit ok v birth death) {r : Ref} {w : Visit} (hw : Fits ok w (birth r) (death r)) :
    AllFit ok (Function.update v r w) birth death := by
  intro r'
  by_cases he : r' = r
  · rw [he, Function.update_self]
    exact hw
  · rw [Function.update_of_ne he]
    exact h r'

section Records
variable {E : Wrong → Prop} {ok : ℕ → Bool} {fill : ℕ → ℕ → Byte} {fuel : ℕ} {s : State}
  {birth death : Ref → Clocks} {r : Ref} {l : List Ref} {b : ℕ × ℕ} {buff : Buff}

/-- **One record** makes of the buffer what it makes of it in the list model for some answers, and
its object is gone. -/
theorem loggProc_spec (hf : 2 * (s.heap r).fdCoun.toNat + 40 ≤ fuel)
    (hE : ∀ v e, Fits ok v (birth r) (death r) →
      Model.Logg.loggProc s v r buff = .error e → E (.slot e)) :
    Triple (bufferAt b buff) (loggProc ok fuel fill s birth death r b)
      (fun c => ex fun v : Visit => ex fun buff' => star (fact (Fits ok v (birth r) (death r) ∧
        Model.Logg.loggProc s v r buff = .ok buff')) (bufferAt c buff')) E := by
  have hstop : ∀ v e, v.object = true → Fits ok v (birth r) (death r) →
      Model.Logg.loggProc2Json s v (s.heap r) = .error e → E (.slot e) := by
    intro v e hobj ht he
    refine hE v e ht ?_
    rw [Model.Logg.loggProc, hobj, if_neg (by decide), he]
  unfold loggProc
  refine createObject_spec.step (emp_star _).symm fun q => ?_
  rw [made, star_assoc]
  refine Triple.of_fact fun hq => ?_
  rcases q with _ | o
  · dsimp only [opt]
    rw [emp_star]
    exact Triple.ret fun h hh => ⟨{ timeless with
      object := false, birth := birth r, death := death r }, buff,
      fact_star_iff.mpr ⟨⟨⟨rfl, rfl, fun hs => absurd rfl (hq hs)⟩, rfl⟩, hh⟩⟩
  dsimp only [opt]
  refine (loggProc2Json_spec (by omega) hstop).step rfl fun _ => ?_
  simp only [ex_star, star_assoc]
  refine Triple.of_ex fun v => Triple.of_ex fun k => Triple.of_fact fun hv => ?_
  obtain ⟨hobj, ht, hk⟩ := hv
  have hlen : k.length ≤ 18 := by
    have h := (made_loggProc2Json hk).sublist.length_le
    rwa [List.length_map] at h
  have hdelete : Triple (lone o none .object (itemsOf k)) (delete fuel (some o)) (fun _ => emp) E :=
    delete_lone (by rw [size_itemsOf]; omega)
  refine (loggMemWrit_spec (by omega) v).bind fun c => Triple.of_ex fun text =>
    Triple.of_ex fun room => Triple.of_ex fun new => Triple.of_fact fun hdone => ?_
  refine hdelete.step rfl fun _ => ?_
  rw [emp_star]
  refine Triple.ret fun h hh => ⟨{ v with text := text, realloc := room, fill := new }, _,
    fact_star_iff.mpr ⟨⟨⟨ht.birth, ht.death, fun hs => { ht.succeeds hs with
      text := (hdone hs).1
      realloc := (hdone hs).2 }⟩, ?_⟩, hh⟩⟩
  have hk' : Model.Logg.loggProc2Json s { v with text := text, realloc := room, fill := new }
      (s.heap r) = .ok k := hk
  rw [Model.Logg.loggProc, hk', hobj, if_neg (by decide)]

theorem loggChain_congr {v v' : Ref → Visit} : ∀ {l : List Ref} {buff : Buff},
    (∀ r ∈ l, v r = v' r) → Model.Logg.loggChain s v l buff = Model.Logg.loggChain s v' l buff
  | [], _, _ => rfl
  | r :: l, buff, h => by
    rw [Model.Logg.loggChain, Model.Logg.loggChain, h r List.mem_cons_self]
    rcases Model.Logg.loggProc s (v' r) r buff with e | buff'
    · rfl
    · exact loggChain_congr fun r' hr => h r' (List.mem_cons_of_mem r hr)

theorem loggChain_cons {v : Ref → Visit} {w : Visit} {buff' : Buff} (hr : r ∉ l)
    (hw : Model.Logg.loggProc s w r buff = .ok buff') :
    Model.Logg.loggChain s (Function.update v r w) (r :: l) buff =
      Model.Logg.loggChain s v l buff' := by
  have hrest : ∀ r' ∈ l, Function.update v r w r' = v r' := fun r' hr' =>
    Function.update_of_ne (fun he : r' = r => hr (he ▸ hr')) _ _
  rw [Model.Logg.loggChain, Function.update_self, hw]
  exact loggChain_congr hrest

/-- **The records of a chain**, one after the other. -/
theorem loggChain_spec (v₀ : Ref → Visit) (hv₀ : AllFit ok v₀ birth death) : ∀ {l : List Ref}
    {b : ℕ × ℕ} {buff : Buff}, l.Nodup → (∀ r ∈ l, 2 * (s.heap r).fdCoun.toNat + 40 ≤ fuel) →
    (∀ v e, AllFit ok v birth death → Model.Logg.loggChain s v l buff = .error e → E (.slot e)) →
    Triple (bufferAt b buff) (loggChain ok fuel fill s birth death l b)
      (fun c => ex fun v => ex fun buff' => star (fact (AllFit ok v birth death ∧
        Model.Logg.loggChain s v l buff = .ok buff')) (bufferAt c buff')) E
  | [], b, buff, _, _, _ => Triple.ret fun h hh => ⟨v₀, buff, fact_star_iff.mpr ⟨⟨hv₀, rfl⟩, hh⟩⟩
  | r :: l, b, buff, hnd, hf, hE => by
    rw [List.nodup_cons] at hnd
    rw [loggChain]
    refine (loggProc_spec (hf r List.mem_cons_self) fun w e hw he => ?_).bind fun c =>
      Triple.of_ex fun w => Triple.of_ex fun buff' => Triple.of_fact fun hfact => ?_
    · refine hE (Function.update v₀ r w) e (hv₀.update hw) ?_
      rw [Model.Logg.loggChain, Function.update_self, he]
    · obtain ⟨hw, hproc⟩ := hfact
      refine (loggChain_spec v₀ hv₀ hnd.2 (fun r' hr => hf r' (List.mem_cons_of_mem r hr))
        fun v e hv he => ?_).post ?_
      · exact hE (Function.update v r w) e (hv.update hw) ((loggChain_cons hnd.1 hproc).trans he)
      · rintro c' h ⟨v, buff'', hh⟩
        obtain ⟨⟨hv, hchain⟩, hh⟩ := fact_star_iff.mp hh
        exact ⟨Function.update v r w, buff'', fact_star_iff.mpr
          ⟨⟨hv.update hw, (loggChain_cons hnd.1 hproc).trans hchain⟩, hh⟩⟩

theorem loggChain_append : ∀ (l k : List Ref) (b : ℕ × ℕ),
    loggChain ok fuel fill s birth death (l ++ k) b =
      loggChain ok fuel fill s birth death l b >>= loggChain ok fuel fill s birth death k
  | [], k, b => by rw [List.nil_append, loggChain, pure_bind]
  | r :: l, k, b => by
    rw [List.cons_append, loggChain, loggChain, bind_assoc]
    exact bind_congr fun c => loggChain_append l k c

theorem loggBuckets_eq : ∀ (is : List ℕ) (b : ℕ × ℕ),
    loggBuckets ok fuel fill s birth death is b =
      loggChain ok fuel fill s birth death (is.flatMap s.buckets) b
  | [], b => rfl
  | i :: is, b => by
    rw [loggBuckets, List.flatMap_cons, loggChain_append]
    exact bind_congr fun c => loggBuckets_eq is c

/-! ### A flush -/

/-- What the list model writes is the snapshot. -/
theorem eq_snapshot {v : Ref → Visit} {fopen : Bool} {x : Option (List Byte)}
    (h : Model.Logg.loggProcParse s v fopen = .ok x) :
    x = if fopen then some (snapshot s v) else none := by
  rcases hc : Model.Logg.loggChain s v (records s) buffInit with e | buff'
  · rw [loggProcParse_eq hc] at h
    cases h
  cases fopen with
  | false =>
    rw [loggProcParse_eq hc] at h
    rw [if_neg Bool.false_ne_true]
    exact (Except.ok.inj h).symm
  | true =>
    rw [(framed_of_readable (readable_of_loggChain hc)).1] at h
    rw [if_pos rfl]
    exact (Except.ok.inj h).symm

/-- **A flush with its first block** writes what the list model writes for some answers, and owns
nothing at the end. -/
theorem flush_spec (hnd : (records s).Nodup)
    (hf : ∀ r ∈ records s, 2 * (s.heap r).fdCoun.toNat + 40 ≤ fuel) (fopen : Bool) (a : ℕ)
    (x : Byte) :
    Triple (pts a (.text [x])) (do
        writeText a 0 [0]
        let buff ← loggBuckets ok fuel fill s birth death (List.range 4096) (a, 0)
        if fopen then
          let mem ← loadText buff.1
          free buff.1
          pure (some (cstr mem))
        else
          free buff.1
          pure none)
      (fun y => fact (∃ v, AllFit ok v birth death ∧ Model.Logg.loggProcParse s v fopen = .ok y))
      (fun e => ∃ e' v, e = .slot e' ∧ AllFit ok v birth death ∧
        Model.Logg.loggProcParse s v fopen = .error e') := by
  have hstart : ∀ h, star (pts a (.text (Model.Logg.store [x] 0 [0]))) emp h →
      bufferAt (a, 0) buffInit h := by
    intro h hh
    rw [star_emp] at hh
    exact fact_star_iff.mpr ⟨rfl, hh⟩
  refine writeText_bind star_end le_rfl ?_
  rw [loggBuckets_eq, ← records]
  refine ((loggChain_spec _ (fun r => fits_timeless ok (birth r) (death r)) hnd hf fun v e hv he =>
    ⟨e, v, rfl, hv, loggProcParse_eq he fopen⟩).pre hstart).bind fun c => Triple.of_ex fun v =>
      Triple.of_ex fun buff' => Triple.of_fact fun hfact => Triple.of_fact fun _ => ?_
  obtain ⟨hv, hchain⟩ := hfact
  have hy := loggProcParse_eq hchain fopen
  cases fopen with
  | true =>
    refine loadText_bind star_end (Triple.free_bind star_end (Triple.ret fun h hh => ?_))
    exact ⟨⟨v, hv, hy⟩, hh⟩
  | false =>
    refine Triple.free_bind star_end (Triple.ret fun h hh => ?_)
    exact ⟨⟨v, hv, hy⟩, hh⟩

theorem flush_some (hnd : (records s).Nodup)
    (hf : ∀ r ∈ records s, 2 * (s.heap r).fdCoun.toNat + 40 ≤ fuel) (fopen : Bool) {μ : Mem Cell}
    (hok : ok μ.calls = true) :
    (∃ y ν, loggProcParse ok fuel fill s birth death fopen μ = .ok (y, ν) ∧
      (∃ v, AllFit ok v birth death ∧ Model.Logg.loggProcParse s v fopen = .ok y) ∧
        ν.cells = μ.cells) ∨
      ∃ e, loggProcParse ok fuel fill s birth death fopen μ = .error (.raised e) ∧ ∃ e' v,
        e = .slot e' ∧ AllFit ok v birth death ∧
          Model.Logg.loggProcParse s v fopen = .error e' := by
  unfold loggProcParse
  exact Triple.run_alloc (fun a n => flush_spec hnd hf fopen a (fill n 0)) hok

theorem flush_none (fopen : Bool) {μ : Mem Cell} (hok : ok μ.calls = false) :
    loggProcParse ok fuel fill s birth death fopen μ = .error (.raised .null) := by
  have halloc : (alloc ok fun n => Cell.text [fill n 0] : Code Ptr) μ =
      .ok (none, { μ with calls := μ.calls + 1 }) := if_neg (by rw [hok]; decide)
  have hrun : ∀ f : Ptr → Code (Option (List Byte)),
      ((alloc ok fun n => Cell.text [fill n 0]) >>= f) μ =
        ((alloc ok fun n => Cell.text [fill n 0] : Code Ptr) μ).bind fun y => f y.1 y.2 :=
    fun _ => rfl
  unfold loggProcParse
  rw [hrun, halloc]
  rfl

end Records

/-- **A flush frees what it allocates.** For the table that any run of events leaves, whatever the
allocator answers behind the first call: either the text is the one that the list model writes for
some answers, and the memory is as before, or a slot of paths is read that must not be read, as in
the list model. With an allocator that always has a block, no answer is a failure. If the first call
fails, `NULL` is followed. The fuel is for the items of a record,
of which the paths are not more than `fd_coun`. -/
theorem flush_of_run {tr : List (Input × State)} (hr : Steps Step init tr) {fuel : ℕ}
    (hf : ∀ r ∈ (final init tr).tracked, 2 * ((final init tr).heap r).fdCoun.toNat + 40 ≤ fuel)
    (ok : ℕ → Bool) (fill : ℕ → ℕ → Byte) (birth death : Ref → Clocks) (fopen : Bool)
    (μ : Mem Cell) :
    (ok μ.calls = false → loggProcParse ok fuel fill (final init tr) birth death fopen μ =
      .error (.raised .null)) ∧
    (ok μ.calls = true → ∃ v, AllFit ok v birth death ∧
      ((∃ text ν, loggProcParse ok fuel fill (final init tr) birth death fopen μ = .ok (text, ν) ∧
        ν.cells = μ.cells ∧ Model.Logg.loggProcParse (final init tr) v fopen = .ok text ∧
        text = if fopen then some (snapshot (final init tr) v) else none) ∨
      ∃ e, loggProcParse ok fuel fill (final init tr) birth death fopen μ =
          .error (.raised (.slot e)) ∧
        Model.Logg.loggProcParse (final init tr) v fopen = .error e)) := by
  have hs : Sound (final init tr) := sound_final hr
  generalize final init tr = s at hf hs ⊢
  refine ⟨flush_none fopen, fun hok => ?_⟩
  rcases flush_some (hs.nodup_buckets _) (fun r hr => hf r ((hs.mem_buckets rfl).mp hr)) fopen hok
    with ⟨text, ν, hrun, ⟨v, hv, htext⟩, hcells⟩ | ⟨_, hrun, e, v, rfl, hv, he⟩
  · exact ⟨v, hv, Or.inl ⟨text, ν, hrun, hcells, htext, eq_snapshot htext⟩⟩
  · exact ⟨v, hv, Or.inr ⟨e, hrun, he⟩⟩

/-- One item of the first record cannot be made, and no clock can be read. -/
theorem flush_of_run_adopted : ∃ text ν,
    loggProcParse (fun n => decide (n ≠ 3)) 40 (fun _ _ => 1) (final init (trace 2 init adopted))
      (fun _ => timeless.birth) (fun _ => timeless.death) true Mem.empty = .ok (text, ν) ∧
    ν.cells = fun _ => none := by
  have hs : Sound (final init (trace 2 init adopted)) := sound_final adopted_steps
  have hlt : ∀ r ∈ (final init (trace 2 init adopted)).tracked, r < 3 := fun r hr =>
    (hs.lt_next r hr).trans_le (by decide)
  have hfuel : ∀ r < 3,
      2 * ((final init (trace 2 init adopted)).heap r).fdCoun.toNat + 40 ≤ 40 := by decide
  have hnone : ∀ r < 3, ((final init (trace 2 init adopted)).heap r).fdPaths = none := by decide
  obtain ⟨v, -, ⟨text, ν, hrun, hcells, -⟩ | ⟨e, -, he⟩⟩ := (flush_of_run adopted_steps
    (fun r hr => hfuel r (hlt r hr)) (fun n => decide (n ≠ 3)) (fun _ _ => 1)
    (fun _ => timeless.birth) (fun _ => timeless.death) true Mem.empty).2 rfl
  · exact ⟨text, ν, hrun, hcells⟩
  · have hframed : Framed (final init (trace 2 init adopted)) v := framed_of_readable
      fun r hr _ hne => absurd (hnone r (hlt r ((hs.mem_buckets rfl).mp hr))) hne
    rw [hframed.1] at he
    cases he

end Serie.Log.HeapFlush
