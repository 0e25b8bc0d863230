import Serie.Tree.Fork
import Serie.Wire.Heads

/-! # What is read of a message

`sock_reci` tests that a message lies in the datagram, not that it is long enough for its connector
header, and `read_even` and the handlers not that the event is complete. `evenReads` lists the
fields that a handler reads in a state; nothing else of the memory matters (`readEvenAt_congr`).

All that is read of every message lies in it (`Contained`) exactly if every message that the loop
visits is long enough: for the header, for the last field of its event, and for the end of the name
(`contained_iff`). A message that ends with its connector header is not (`not_contained_short`). -/

namespace Serie.Wire.Extent

open Serie.Lib.CText Serie.Lib.Memory Serie.Lib.Trace Serie.Model.Record Serie.Model.Prfs
open Serie.Model.Refresh Serie.Model.Table Serie.Model.Conn Serie.Model.Reci Serie.Model.Steps
open Serie.Model.Runs Serie.Tree.Invariant Serie.Tree.Fork Serie.Wire.Heads

/-- A field of an event: some bytes at an offset, or the name. -/
inductive Field where
  | num (off size : ℕ)
  | name
deriving DecidableEq

/-- The bytes read for a field: those of a number, or those of the name up to its end, wherever
that is. -/
def Field.bytes (m : Mem) (a : ℕ) : Field → Set ℕ
  | .num off size => {i | a + off ≤ i ∧ i < a + off + size}
  | .name => {i | a + 24 ≤ i ∧ ∀ j, a + 24 ≤ j → j < i → m j ≠ 0}

section Reads
variable (m : Mem) (a : ℕ) (w : ℕ → World) (s : State)

/-- The fields that `even_fork` reads. -/
def forkReads : List Field :=
  .num 16 4 ::
    match findPare (dataPid m a 16) (w 0) s with
    | (none, _) => []
    | (some _, s₁) =>
      let c := dataPid m a 24
      .num 24 4 ::
        if (procLoad c ((w 1).files c) (w 1).procCalloc s₁).1.isSome then [.num 8 8] else []

/-- The fields that a handler reads which reads `l` of the event of a record in the table. -/
def lookReads (l : List Field) : List Field :=
  .num 16 4 :: if (procLook s (dataPid m a 16)).isSome then l else []

/-- **The fields that `read_even` and the handler read** of the event at `a`. -/
def evenReads : List Field :=
  .num 0 4 ::
    if what m a = procEventFork then forkReads m a w s
    else if what m a = procEventExec then [.num 20 4, .num 16 4]
    else if what m a = procEventExit then lookReads m a s [.num 24 4, .num 8 8]
    else if what m a = procEventComm then lookReads m a s [.name]
    else if what m a = procEventUid then lookReads m a s [.num 24 4, .num 28 4]
    else if what m a = procEventGid then lookReads m a s [.num 24 4, .num 28 4]
    else []

end Reads

/-- The fields that the handler of an event of a kind reads if nothing stops it. -/
def fields (what : ℕ) : List Field :=
  .num 0 4 ::
    if what = procEventFork then [.num 16 4, .num 24 4, .num 8 8]
    else if what = procEventExec then [.num 20 4, .num 16 4]
    else if what = procEventExit then [.num 16 4, .num 24 4, .num 8 8]
    else if what = procEventComm then [.num 16 4, .name]
    else if what = procEventUid then [.num 16 4, .num 24 4, .num 28 4]
    else if what = procEventGid then [.num 16 4, .num 24 4, .num 28 4]
    else []

/-- How far the numbers among these go. -/
def extent (what : ℕ) : ℕ :=
  if what = procEventFork then 28
  else if what = procEventExec then 24
  else if what = procEventExit then 28
  else if what = procEventComm then 20
  else if what = procEventUid then 32
  else if what = procEventGid then 32
  else 4

/-! ### Nothing else matters -/

section Congr
variable {m m' : Mem} {a fuel : ℕ} {w : ℕ → ℕ → World} {s : State} {l : List Field}

/-- The fields `l` are the same in two memories. -/
def Agree (m m' : Mem) (a : ℕ) (l : List Field) : Prop := ∀ f ∈ l, ∀ i ∈ f.bytes m a, m i = m' i

theorem Agree.tail {f : Field} (h : Agree m m' a (f :: l)) : Agree m m' a l :=
  fun g hg => h g (List.mem_cons_of_mem f hg)

theorem Agree.num {off size : ℕ} (h : Agree m m' a l) (hf : .num off size ∈ l) :
    readLe m (a + off) size = readLe m' (a + off) size :=
  readLe_congr fun i h1 h2 => h _ hf i ⟨h1, h2⟩

theorem Agree.u32 {off : ℕ} (h : Agree m m' a l) (hf : .num off 4 ∈ l) :
    dataU32 m a off = dataU32 m' a off := h.num hf

theorem Agree.pid {off : ℕ} (h : Agree m m' a l) (hf : .num off 4 ∈ l) :
    dataPid m a off = dataPid m' a off := congrArg (fun n : ℕ => toInt32 n) (h.num hf)

theorem cstr_map_congr : ∀ {k b : ℕ}, (∀ i, b ≤ i → (∀ j, b ≤ j → j < i → m j ≠ 0) → m i = m' i) →
    cstr ((List.range k).map fun i => m (b + i)) = cstr ((List.range k).map fun i => m' (b + i))
  | 0, _, _ => rfl
  | k + 1, b, h => by
    have h0 : m b = m' b := h b le_rfl fun j h1 h2 => absurd h2 (not_lt.mpr h1)
    have hsucc : ∀ n : Mem, ((List.range k).map Nat.succ).map (fun i => n (b + i)) =
        (List.range k).map fun i => n (b + 1 + i) := fun n => by
      rw [List.map_map]
      exact List.map_congr_left fun i _ => congrArg n (by simp only [Nat.succ_eq_add_one]; omega)
    rw [List.range_succ_eq_map, List.map_cons, List.map_cons, hsucc, hsucc]
    unfold cstr
    rw [List.takeWhile_cons, List.takeWhile_cons, Nat.add_zero, ← h0]
    by_cases hz : m b = 0
    · simp [hz]
    · have hrest := cstr_map_congr (k := k) (b := b + 1) fun i hi hj =>
        h i (by omega) fun j h1 h2 => by
          rcases Nat.eq_or_lt_of_le h1 with rfl | h1
          · exact hz
          · exact hj j h1 h2
      unfold cstr at hrest
      rw [hrest]

theorem Agree.name (h : Agree m m' a l) (hf : .name ∈ l) : commName m a = commName m' a := by
  have hc := cstr_map_congr (k := 16) fun i h1 h2 => h .name hf i ⟨h1, h2⟩
  simp only [commName, hc]

theorem Agree.found {r : Ref} (h : Agree m m' a (lookReads m a s l))
    (hr : procLook s (dataPid m a 16) = some r) : Agree m m' a l := by
  have := h.tail
  rwa [hr] at this

theorem eventData_fork (h : what m a = procEventFork) :
    eventData m a = some (.fork (dataPid m a 16) (dataPid m a 24)) := by
  rw [eventData, if_pos h]

theorem eventData_exec (h : what m a = procEventExec) :
    eventData m a = some (.exec (dataPid m a 16) (dataPid m a 20)) := by
  rw [eventData, h]
  rfl

theorem eventData_exit (h : what m a = procEventExit) :
    eventData m a = some (.exit (dataPid m a 16) (dataU32 m a 24)) := by
  rw [eventData, h]
  rfl

theorem eventData_comm (h : what m a = procEventComm) :
    eventData m a = (commName m a).map (.comm (dataPid m a 16)) := by
  rw [eventData, h]
  rfl

theorem eventData_uid (h : what m a = procEventUid) :
    eventData m a = some (.uid (dataPid m a 16) (dataU32 m a 24) (dataU32 m a 28)) := by
  rw [eventData, h]
  rfl

theorem eventData_gid (h : what m a = procEventGid) :
    eventData m a = some (.gid (dataPid m a 16) (dataU32 m a 24) (dataU32 m a 28)) := by
  rw [eventData, h]
  rfl

theorem readEvenAt_of_data {d : EventData} (h : eventData m a = some d) :
    readEvenAt m a fuel w s = readEven fuel ⟨timestampNs m a, d⟩ (w a) s := by
  rw [readEvenAt, procEvent, h]
  rfl

theorem evenFork_congr (h : Agree m m' a (forkReads m a (w a) s)) :
    evenFork (dataPid m a 16) (dataPid m a 24) (timestampNs m a) (w a) s =
      evenFork (dataPid m' a 16) (dataPid m' a 24) (timestampNs m' a) (w a) s := by
  have hp := h.pid List.mem_cons_self
  rw [evenFork, evenFork, ← hp]
  rcases hf : findPare (dataPid m a 16) (w a 0) s with ⟨_ | p, s₁⟩
  · rfl
  · simp only [forkReads, hf] at h
    have hc := h.tail.pid List.mem_cons_self
    simp only [forkChil, ← hc]
    rcases hl : procLoad (dataPid m a 24) ((w a 1).files (dataPid m a 24)) (w a 1).procCalloc s₁
      with ⟨_ | c, s₂⟩
    · rfl
    · rw [hl] at h
      have ht : timestampNs m a = timestampNs m' a := h.tail.tail.num List.mem_cons_self
      simp only [ht]

/-- Without a record for its pid, an event of these kinds changes nothing. -/
theorem readEvenAt_of_none (hl : procLook s (dataPid m a 16) = none)
    (hk : what m a = procEventExit ∨ what m a = procEventComm ∨ what m a = procEventUid ∨
      what m a = procEventGid) : readEvenAt m a fuel w s = .ret s := by
  rcases hk with hk | hk | hk | hk
  · rw [readEvenAt_of_data (eventData_exit hk)]
    simp only [readEven, handle, evenExit, hl, Outcome.bind]
  · rcases hc : commName m a with _ | c
    · rw [readEvenAt, procEvent, eventData_comm hk, hc, hl]
      rfl
    · rw [readEvenAt_of_data (by rw [eventData_comm hk, hc]; rfl)]
      simp only [readEven, handle, evenComm, evenWrite, hl, Outcome.bind]
  · rw [readEvenAt_of_data (eventData_uid hk)]
    simp only [readEven, handle, evenUid, evenWrite, hl, Outcome.bind]
  · rw [readEvenAt_of_data (eventData_gid hk)]
    simp only [readEven, handle, evenGid, evenWrite, hl, Outcome.bind]

theorem readEvenAt_of_lookReads (hw : what m a = what m' a)
    (hk : what m a = procEventExit ∨ what m a = procEventComm ∨ what m a = procEventUid ∨
      what m a = procEventGid) (h : Agree m m' a (lookReads m a s l))
    (hl : dataPid m a 16 = dataPid m' a 16 → Agree m m' a l →
      readEvenAt m a fuel w s = readEvenAt m' a fuel w s) :
    readEvenAt m a fuel w s = readEvenAt m' a fuel w s := by
  have hp := h.pid List.mem_cons_self
  rcases hr : procLook s (dataPid m a 16) with _ | r
  · rw [readEvenAt_of_none hr hk, readEvenAt_of_none (hp ▸ hr) (hw ▸ hk)]
  · exact hl hp (h.found hr)

/-- **Only the fields that are read matter.** -/
theorem readEvenAt_congr (h : Agree m m' a (evenReads m a (w a) s)) :
    readEvenAt m a fuel w s = readEvenAt m' a fuel w s := by
  have hw : what m a = what m' a := h.num List.mem_cons_self
  have ht := h.tail
  by_cases hF : what m a = procEventFork
  · rw [if_pos hF] at ht
    rw [readEvenAt_of_data (eventData_fork hF), readEvenAt_of_data (eventData_fork (hw ▸ hF))]
    simp only [readEven, handle]
    rw [evenFork_congr ht]
  rw [if_neg hF] at ht
  by_cases hE : what m a = procEventExec
  · rw [if_pos hE] at ht
    rw [readEvenAt_of_data (eventData_exec hE), readEvenAt_of_data (eventData_exec (hw ▸ hE)),
      ht.pid (List.mem_cons_of_mem _ List.mem_cons_self)]
    simp only [readEven, handle]
  rw [if_neg hE] at ht
  by_cases hX : what m a = procEventExit
  · rw [if_pos hX] at ht
    refine readEvenAt_of_lookReads hw (.inl hX) ht fun hp hd => ?_
    have hts : timestampNs m a = timestampNs m' a :=
      hd.num (List.mem_cons_of_mem _ List.mem_cons_self)
    rw [readEvenAt_of_data (eventData_exit hX), readEvenAt_of_data (eventData_exit (hw ▸ hX)), hp,
      hts, hd.u32 List.mem_cons_self]
  rw [if_neg hX] at ht
  by_cases hC : what m a = procEventComm
  · rw [if_pos hC] at ht
    refine readEvenAt_of_lookReads hw (.inr (.inl hC)) ht fun hp hd => ?_
    rw [readEvenAt, readEvenAt, procEvent, procEvent, eventData_comm hC, eventData_comm (hw ▸ hC),
      hd.name List.mem_cons_self, hp]
    rcases commName m' a with _ | c
    · rfl
    · simp only [Option.map_some, readEven, handle]
  rw [if_neg hC] at ht
  by_cases hU : what m a = procEventUid
  · rw [if_pos hU] at ht
    refine readEvenAt_of_lookReads hw (.inr (.inr (.inl hU))) ht fun hp hd => ?_
    rw [readEvenAt_of_data (eventData_uid hU), readEvenAt_of_data (eventData_uid (hw ▸ hU)), hp,
      hd.u32 List.mem_cons_self, hd.u32 (List.mem_cons_of_mem _ List.mem_cons_self)]
    simp only [readEven, handle]
  rw [if_neg hU] at ht
  by_cases hG : what m a = procEventGid
  · rw [if_pos hG] at ht
    refine readEvenAt_of_lookReads hw (.inr (.inr (.inr hG))) ht fun hp hd => ?_
    rw [readEvenAt_of_data (eventData_gid hG), readEvenAt_of_data (eventData_gid (hw ▸ hG)), hp,
      hd.u32 List.mem_cons_self, hd.u32 (List.mem_cons_of_mem _ List.mem_cons_self)]
    simp only [readEven, handle]
  · have hother : ∀ {n : Mem}, what n a = what m a → eventData n a = some (.other (what n a)) := by
      intro n hn
      rw [eventData, hn, if_neg hF, if_neg hE, if_neg hX, if_neg hC, if_neg hU, if_neg hG]
    rw [readEvenAt_of_data (hother rfl), readEvenAt_of_data (hother hw.symm)]
    simp only [readEven, handle]

end Congr

/-! ### States in which all is read -/

/-- A world in which every process can be loaded. -/
def world : World := ⟨fun _ => procFiles ['0'] ['0'] none, true, true⟩

theorem canLoad_world (q : Pid) : canLoad world q = true := by
  have h : readable (procFiles ['0'] ['0'] none) = true := by decide
  exact h

/-- For every pid there is a run after which it has a record. -/
theorem exists_found (q : Pid) :
    ∃ tr, Steps Step init tr ∧ (procLook (final init tr) q).isSome := by
  obtain ⟨⟨x, t⟩, he⟩ := sound_init.evenFork_returns q q 0 fun _ => world
  have hstep : Step init ⟨⟨0, .fork q q⟩, fun _ => world⟩ t :=
    ⟨0, by simp only [readEven, handle, he, Outcome.bind]⟩
  refine ⟨[(⟨⟨0, .fork q q⟩, fun _ => world⟩, t)], ⟨hstep, trivial⟩, ?_⟩
  rcases evenFork_spec sound_init.lt_next he with ⟨-, -, hc, -⟩ | ⟨p, u, hf, ⟨-, hc, -⟩ |
    ⟨-, -, y, v, hy, ha, ht⟩⟩
  · rw [canLoad_world] at hc
    cases hc
  · rw [canLoad_world] at hc
    cases hc
  · obtain ⟨r, -, -, hr, -⟩ := forked_of_found sound_init hf hy ha
    rw [final_cons, ht]
    exact Option.isSome_iff_exists.mpr ⟨r, hr⟩

section Fields
variable {m : Mem} {a : ℕ}

theorem forkReads_init :
    forkReads m a (fun _ => world) init = [.num 16 4, .num 24 4, .num 8 8] := by
  have hcan := canLoad_world
  simp only [canLoad] at hcan
  rcases hf : findPare (dataPid m a 16) world init with ⟨o, s₁⟩
  rcases findPare_cases hf with ⟨-, hc, -⟩ | ⟨p, rfl, -⟩
  · rw [canLoad_world] at hc
    cases hc
  rcases hl : procLoad (dataPid m a 24) (world.files (dataPid m a 24)) world.procCalloc s₁ with
    ⟨o, s₂⟩
  rcases procLoad_cases hl with ⟨hc, -, -⟩ | ⟨x, -, rfl, -⟩
  · have := hcan (dataPid m a 24)
    simp [world] at this hc
    rw [this] at hc
    cases hc
  · simp only [forkReads, hf, hl]
    rfl

theorem forkReads_subset {w : ℕ → World} {s : State} :
    ∀ f ∈ forkReads m a w s, f ∈ ([.num 16 4, .num 24 4, .num 8 8] : List Field) := by
  intro f hf
  unfold forkReads at hf
  rcases hp : findPare (dataPid m a 16) (w 0) s with ⟨_ | p, s₁⟩ <;> rw [hp] at hf
  · rcases List.mem_cons.mp hf with rfl | hf
    · exact List.mem_cons_self
    · cases hf
  · dsimp only at hf
    split_ifs at hf
    · exact hf
    · exact List.mem_append_left [.num 8 8] hf

theorem lookReads_subset {s : State} {l : List Field} :
    ∀ f ∈ lookReads m a s l, f ∈ .num 16 4 :: l := by
  intro f hf
  unfold lookReads at hf
  split_ifs at hf
  · exact hf
  · exact List.mem_append_left l hf

theorem evenReads_subset {w : ℕ → World} {s : State} :
    ∀ f ∈ evenReads m a w s, f ∈ fields (what m a) := by
  intro f hf
  unfold evenReads at hf
  unfold fields
  rcases List.mem_cons.mp hf with rfl | hf
  · exact List.mem_cons_self
  refine List.mem_cons_of_mem _ ?_
  split_ifs at hf ⊢
  · exact forkReads_subset f hf
  · exact hf
  · exact lookReads_subset f hf
  · exact lookReads_subset f hf
  · exact lookReads_subset f hf
  · exact lookReads_subset f hf
  · exact hf

/-- For every event there are a run and answers for which the handler reads all the fields. -/
theorem exists_evenReads (m : Mem) (a : ℕ) :
    ∃ tr w, Steps Step init tr ∧ evenReads m a w (final init tr) = fields (what m a) := by
  by_cases hF : what m a = procEventFork
  · refine ⟨[], fun _ => world, trivial, ?_⟩
    rw [evenReads, fields, if_pos hF, if_pos hF]
    exact congrArg (List.cons _) forkReads_init
  · obtain ⟨tr, htr, hl⟩ := exists_found (dataPid m a 16)
    refine ⟨tr, fun _ => world, htr, ?_⟩
    unfold evenReads fields lookReads
    rw [if_neg hF, if_neg hF]
    simp only [if_pos hl]

theorem le_extent {wh off size : ℕ} (h : .num off size ∈ fields wh) : off + size ≤ extent wh := by
  unfold fields at h
  unfold extent
  split_ifs at h ⊢ <;> simp at h <;> omega

theorem exists_extent (wh : ℕ) :
    ∃ off size, .num off size ∈ fields wh ∧ off + size = extent wh ∧ 0 < size := by
  unfold fields extent
  split_ifs
  · exact ⟨24, 4, by decide⟩
  · exact ⟨20, 4, by decide⟩
  · exact ⟨24, 4, by decide⟩
  · exact ⟨16, 4, by decide⟩
  · exact ⟨28, 4, by decide⟩
  · exact ⟨28, 4, by decide⟩
  · exact ⟨0, 4, by decide⟩

theorem name_mem_fields {wh : ℕ} : Field.name ∈ fields wh ↔ wh = procEventComm := by
  constructor
  · intro h
    unfold fields at h
    split_ifs at h <;> simp_all
  · rintro rfl
    decide

end Fields

/-! ### The visited messages -/

section Visited
variable {m : Mem} {off o fuel : ℕ} {len : ℤ}

theorem head_le (h : off ∈ heads m fuel o len) : (off + nlmsgLen m off : ℤ) ≤ o + len := by
  induction fuel generalizing o len with
  | zero => cases h
  | succ fuel ih =>
    rcases hok : nlmsgOk m o len with _ | _
    · rw [heads_of_not_ok hok] at h
      cases h
    · obtain ⟨-, -, hle⟩ := nlmsgOk_iff.mp hok
      rw [heads_of_ok hok] at h
      rcases List.mem_cons.mp h with rfl | h
      · omega
      · split_ifs at h
        · cases h
        · have := ih h
          unfold nextOff at this
          push_cast at this
          omega

end Visited

/-- The loop skips the message at `off` without reading its connector header. -/
def Skips (m : Mem) (off : ℕ) : Prop := nlmsgType m off = nlmsgError ∨ nlmsgType m off = nlmsgNoop

/-- The address `i` lies in the message at `off` and in the `n` bytes received. -/
def Inside (m : Mem) (n off i : ℕ) : Prop := i < off + nlmsgLen m off ∧ i < n

/-- **Only complete events are dispatched**: what is read of the connector headers of the visited
messages, and of their events in any state of any run, lies in the message. -/
structure Contained (m : Mem) (n : ℕ) : Prop where
  header : ∀ off ∈ heads m (n / 16) 0 n, ¬Skips m off →
    ∀ i, off + nlmsgHdrlen ≤ i → i < evenAddr off → Inside m n off i
  even : ∀ off ∈ heads m (n / 16) 0 n, dispatches m off →
    ∀ tr, Steps Step init tr → ∀ w, ∀ f ∈ evenReads m (evenAddr off) w (final init tr),
      ∀ i ∈ f.bytes m (evenAddr off), Inside m n off i

/-- The message at `off` is long enough: for the connector header, and, if it is dispatched, for the
numbers of its event and for the end of its name. -/
structure Fits (m : Mem) (off : ℕ) : Prop where
  header : nlmsgHdrlen + cnMsgSize ≤ nlmsgLen m off
  even : dispatches m off →
    nlmsgHdrlen + cnMsgSize + extent (what m (evenAddr off)) ≤ nlmsgLen m off
  name : dispatches m off → what m (evenAddr off) = procEventComm →
    ∃ i, evenAddr off + 24 ≤ i ∧ i < off + nlmsgLen m off ∧ m i = 0

/-- The bytes that were received lie in this memory. -/
def received (bytes : List Byte) (beyond : Mem) : Mem := buffMem (bytes.take buffSize) beyond

/-- The number of bytes that were received. -/
def count (bytes : List Byte) : ℕ := (bytes.take buffSize).length

section Contained
variable {m : Mem} {n off : ℕ}

theorem not_skips (h : dispatches m off = true) : ¬Skips m off := by
  simp only [dispatches, decide_eq_true_eq] at h
  exact h.1

theorem inside_of_lt (h : off ∈ heads m (n / 16) 0 n) {i : ℕ} (hi : i < off + nlmsgLen m off) :
    Inside m n off i := by
  have := head_le h
  exact ⟨hi, by omega⟩

theorem contained_of_fits (h : ∀ off ∈ heads m (n / 16) 0 n, ¬Skips m off → Fits m off) :
    Contained m n where
  header off hoff hs i _ hi := by
    have hlen := (h off hoff hs).header
    refine inside_of_lt hoff ?_
    unfold evenAddr at hi
    omega
  even off hoff hd tr _ w f hf i hi := by
    have hfit := h off hoff (not_skips hd)
    have hmem := evenReads_subset f hf
    refine inside_of_lt hoff ?_
    cases f with
    | num o size =>
      have hext := le_extent hmem
      have hlen := hfit.even hd
      have haddr : evenAddr off = off + nlmsgHdrlen + cnMsgSize := rfl
      have := hi.2
      omega
    | name =>
      -- the reading stops at the end of the name
      obtain ⟨e, h1, h2, hz⟩ := hfit.name hd (name_mem_fields.mp hmem)
      rcases Nat.lt_or_ge e i with hlt | hle
      · exact absurd hz (hi.2 e h1 hlt)
      · omega

theorem fits_of_contained (h : Contained m n) (hoff : off ∈ heads m (n / 16) 0 n)
    (hs : ¬Skips m off) : Fits m off := by
  have hreads : dispatches m off = true → ∀ f ∈ fields (what m (evenAddr off)),
      ∀ i ∈ f.bytes m (evenAddr off), i < off + nlmsgLen m off := by
    intro hd f hf i hi
    obtain ⟨tr, w, htr, he⟩ := exists_evenReads m (evenAddr off)
    exact (h.even off hoff hd tr htr w f (by rw [he]; exact hf) i hi).1
  refine ⟨?_, fun hd => ?_, fun hd hC => ?_⟩
  · -- the last byte of the header
    have := (h.header off hoff hs (off + 35) (by unfold nlmsgHdrlen; omega)
      (Nat.lt_succ_self _)).1
    unfold nlmsgHdrlen cnMsgSize
    omega
  · -- the last byte of the last number
    obtain ⟨o, size, hf, he, hpos⟩ := exists_extent (what m (evenAddr off))
    have := hreads hd _ hf (evenAddr off + o + size - 1) ⟨by omega, by omega⟩
    have haddr : evenAddr off = off + nlmsgHdrlen + cnMsgSize := rfl
    omega
  · -- without an end of the name in the message its next byte would be read
    by_contra hno
    simp only [not_exists, not_and] at hno
    have hname := hreads hd .name (name_mem_fields.mpr hC)
      (max (evenAddr off + 24) (off + nlmsgLen m off))
      ⟨le_max_left _ _, fun j h1 h2 => hno j h1 (by omega)⟩
    exact absurd hname (not_lt.mpr (le_max_right _ _))

end Contained

/-- **All that is read of the messages of a datagram lies in them** exactly if those that the loop
visits, errors and noops apart, are long enough. -/
theorem contained_iff (bytes : List Byte) (beyond : Mem) :
    Contained (received bytes beyond) (count bytes) ↔
      ∀ off ∈ heads (received bytes beyond) (count bytes / 16) 0 (count bytes),
        ¬Skips (received bytes beyond) off → Fits (received bytes beyond) off :=
  ⟨fun h _ hoff hs => fits_of_contained h hoff hs, contained_of_fits⟩

/-- A message that ends with its connector header, which has the id of the process events. -/
def short : List Byte :=
  [36, 0, 0, 0, 3, 0, 0, 0, 0, 0, 0, 0, 0, 0, 0, 0, 1, 0, 0, 0, 1, 0, 0, 0, 0, 0, 0, 0, 0, 0, 0, 0,
    0, 0, 0, 0]

/-- The kind of the event is read behind its end. -/
theorem not_contained_short : ¬Contained (received short fun _ => 0) (count short) := fun h => by
  have := (h.even 0 (by decide) (by decide) [] trivial (fun _ => world) (.num 0 4)
    List.mem_cons_self 36 ⟨le_rfl, by decide⟩).1
  exact absurd this (by decide)

end Serie.Wire.Extent
