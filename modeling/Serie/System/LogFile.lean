import Serie.Log.Framing
import Serie.Log.Line
import Serie.System.Refine

/-! # The log file of a run

Whatever bytes and signals arrive and whatever fails, except for a write to a file that was opened,
the file of the program is the text of its flushes (`file_of_run`): each of them visits every record
of the table once and appends one line for each that could be logged, of a table that did not change
in between. No line is torn or mixed with another, so the file is read back line by line
(`file_read`). -/

namespace Serie.System.LogFile

open Serie.Lib.CText Serie.Lib.Lines Serie.Lib.Trace Serie.Model.Record Serie.Model.Table
open Serie.Model.CJson Serie.Model.Conn Serie.Model.JsonParse Serie.Model.Logg Serie.Model.Main
open Serie.Model.Program Serie.Tree.Invariant Serie.Json.Item Serie.Log.Framing Serie.Log.Line
open Serie.System.Refine

/-! ### The flushes of a run -/

/-- A flush that wrote: the table, and the answers at its records, in the order of the visits. -/
structure Flush where
  mem : State
  visits : List Visit

/-- The objects that a flush writes. -/
def Flush.objects (f : Flush) : List Object :=
  ((records f.mem).zip f.visits).filterMap fun x => logged f.mem (fun _ => x.2) x.1

/-- The visits of the current flush, and the flushes that wrote. -/
structure Notes where
  visits : List Visit
  flushes : List Flush

/-- What is noted of a step. -/
def note (n : Notes) (x : Act × Machine) : Notes :=
  match x.1 with
  | .test => ⟨[], n.flushes⟩
  | .visit v => ⟨n.visits ++ [v], n.flushes⟩
  | .write true => ⟨n.visits, n.flushes ++ [⟨x.2.mem, n.visits⟩]⟩
  | _ => n

/-- What is noted of a run. -/
def notes (tr : List (Act × Machine)) : Notes := tr.foldl note ⟨[], []⟩

/-- The flushes of a run that wrote. -/
def flushes (tr : List (Act × Machine)) : List Flush := (notes tr).flushes

/-- The objects of the file. -/
def objects (tr : List (Act × Machine)) : List Object := (flushes tr).flatMap Flush.objects

/-- The lines of the objects. -/
def textOf (js : List Object) : List Byte := unlines (ch '\n') (js.map printObject)

theorem textOf_append (js js' : List Object) : textOf (js ++ js') = textOf js ++ textOf js' := by
  unfold textOf
  rw [List.map_append, unlines_append]

/-! ### The invariant -/

/-- The buffer holds the lines of the records visited so far. -/
def Pending (visits : List Visit) (b : Machine) : Prop :=
  match b.place with
  | .parse rest buff => ∃ done, records b.mem = done ++ rest ∧ visits.length = done.length ∧
      Holds (textOf ((done.zip visits).filterMap fun x => logged b.mem (fun _ => x.2) x.1)) buff
  | _ => True

/-- The file holds the flushes, and each of them visited all records. -/
structure Kept (n : Notes) (b : Machine) : Prop where
  file : b.file = textOf (n.flushes.flatMap Flush.objects)
  visits : ∀ f ∈ n.flushes, f.visits.length = (records f.mem).length
  pending : Pending n.visits b

section Step
variable {n : Notes} {b b' : Machine} {l : Act}

theorem Kept.quiet (h : Kept n b) {c : Machine} (hfile : c.file = b.file)
    (hc : ∀ rest buff, c.place ≠ .parse rest buff) : Kept n c where
  file := hfile.trans h.file
  visits := h.visits
  pending := by
    unfold Pending
    split
    next rest buff he => exact absurd he (hc rest buff)
    next => trivial

theorem Kept.signal (h : Kept n b) (sig : Signal) : Kept n (catchSignal sig b) := by
  obtain ⟨hfile, hvisits, hpending⟩ := h
  cases sig <;> exact ⟨hfile, hvisits, hpending⟩

theorem Kept.test (h : Kept n b) : Kept ⟨[], n.flushes⟩ (testFlag b) where
  file := h.file
  visits := h.visits
  pending := by
    unfold testFlag Pending
    by_cases hr : b.loggRun = true
    · rw [if_pos hr]
      exact ⟨[], (List.nil_append _).symm, rfl, holds_init⟩
    · rw [if_neg hr]
      trivial

/-- **A visit** adds the line of its record, if there is one. -/
theorem Kept.visit (h : Kept n b) {r : Ref} {rest : List Ref} {buff buff' : Buff} {v : Visit}
    (hb : b.place = .parse (r :: rest) buff) (hl : loggProc b.mem v r buff = .ok buff') :
    Kept ⟨n.visits ++ [v], n.flushes⟩ { b with place := .parse rest buff' } := by
  have hpending := h.pending
  unfold Pending at hpending
  rw [hb] at hpending
  obtain ⟨done, hrec, hlen, hholds⟩ := hpending
  have hread : Readable b.mem (fun _ => v) r := by
    by_contra hn
    obtain ⟨e, he⟩ := loggProc_error hn buff
    rw [hl] at he
    cases he
  obtain ⟨buff₂, hl₂, hholds₂⟩ := hholds.loggProc hread
  obtain rfl : buff' = buff₂ := by
    rw [hl] at hl₂
    exact Except.ok.inj hl₂
  refine ⟨h.file, h.visits, done ++ [r], by rw [hrec, List.append_assoc]; rfl, by simp [hlen], ?_⟩
  rw [List.zip_append hlen.symm, List.filterMap_append, textOf_append]
  exact hholds₂

/-- **The write** appends the lines of all records. -/
theorem Kept.write (h : Kept n b) {buff : Buff} (hb : b.place = .parse [] buff) (fopen : Bool) :
    Kept (note n (.write fopen, flushed fopen buff b)) (flushed fopen buff b) := by
  cases fopen with
  | false => exact h.quiet rfl fun _ _ he => by cases he
  | true =>
    have hpending := h.pending
    unfold Pending at hpending
    rw [hb] at hpending
    obtain ⟨done, hrec, hlen, hholds⟩ := hpending
    rw [List.append_nil] at hrec
    subst hrec
    have htext : cstr buff.mem = textOf (Flush.mk b.mem n.visits).objects := by
      rw [hholds.mem]
      exact cstr_append_zero hholds.no_null
    refine ⟨?_, ?_, trivial⟩
    · show b.file ++ cstr buff.mem =
        textOf ((n.flushes ++ [Flush.mk b.mem n.visits]).flatMap Flush.objects)
      rw [List.flatMap_append, textOf_append, h.file, htext, List.flatMap_singleton]
    · exact List.forall_mem_append.mpr ⟨h.visits, List.forall_mem_singleton.mpr hlen⟩

/-- **A step** keeps the file in order. -/
theorem Kept.step (h : Kept n b) (hl : Exec b l b') : Kept (note n (l, b')) b' := by
  cases hl with
  | signal hc sig => exact h.signal sig
  | crea hb socket bind =>
    unfold crea
    split_ifs <;> exact h.quiet rfl fun _ _ he => by cases he
  | timer hb _ _ =>
    unfold timerSetup
    split_ifs <;> exact h.quiet rfl fun _ _ he => by cases he
  | calloc hb calloc =>
    unfold callocTable
    split_ifs <;> exact h.quiet rfl fun _ _ he => by cases he
  | tablInit hb calloc => cases calloc <;> exact h.quiet rfl fun _ _ he => by cases he
  | loop hb =>
    refine h.quiet rfl fun rest buff he => ?_
    dsimp only at he
    split_ifs at he
  | recv hb beyond recv =>
    cases recv with
    | error errno => exact h.quiet rfl fun _ _ he => by cases he
    | dgram bytes nlPid =>
      unfold received
      dsimp only
      split_ifs <;> exact h.quiet rfl fun _ _ he => by cases he
  | even hb hok hs hr =>
    refine h.quiet rfl fun rest buff he => ?_
    unfold evenRead nlmsgNext at he
    dsimp only at he
    split_ifs at he
  | test hb => exact h.test
  | visit hb hv => exact h.visit hb hv
  | write hb fopen => exact h.write hb fopen
  | regi | skip | reci | clear | dele | unre | close | dest =>
    exact h.quiet rfl fun _ _ he => by cases he

end Step

/-! ### Runs -/

section Run
variable {tr : List (Act × Machine)}

theorem notes_concat (x : Act × Machine) : notes (tr ++ [x]) = note (notes tr) x :=
  List.foldl_concat ..

theorem kept_of_exec (h : Steps Exec boot tr) : Kept (notes tr) (final boot tr) ∧
    ∀ f ∈ flushes tr, ∃ evs, Steps Step init evs ∧ final init evs = f.mem := by
  refine h.history (K := fun tr => Kept (notes tr) (final boot tr) ∧
    ∀ f ∈ flushes tr, ∃ evs, Steps Step init evs ∧ final init evs = f.mem)
    ⟨⟨rfl, fun _ hf => (by cases hf), trivial⟩, fun _ hf => by cases hf⟩ ?_
  rintro tr l b hst ⟨hkept, hreach⟩ hl
  rw [final_concat, flushes, notes_concat]
  refine ⟨hkept.step hl, ?_⟩
  have hsame : (note (notes tr) (l, b)).flushes = flushes tr ∨
      (note (notes tr) (l, b)).flushes = flushes tr ++ [⟨b.mem, (notes tr).visits⟩] ∧
        b.place = .clear := by
    cases hl with
    | write hb fopen =>
      cases fopen with
      | false => exact Or.inl rfl
      | true => exact Or.inr ⟨rfl, rfl⟩
    | _ => exact Or.inl rfl
  rcases hsame with hsame | ⟨hnew, hclear⟩
  · rwa [hsame]
  · rw [hnew]
    have hrun : Steps Exec boot (tr ++ [(l, b)]) := steps_concat.mpr ⟨hst, hl⟩
    have hevs := events_of_exec hrun (by rw [final_concat, hclear]; exact At.noConfusion)
    rw [final_concat] at hevs
    exact List.forall_mem_append.mpr ⟨hreach, List.forall_mem_singleton.mpr hevs⟩

/-- **The file is the text of the flushes**, each of which visits every record of its table once. -/
theorem file_of_run (h : Steps Exec boot tr) :
    (final boot tr).file = unlines (ch '\n') ((objects tr).map printObject) ∧
      ∀ f ∈ flushes tr, f.visits.length = (records f.mem).length ∧ (records f.mem).Nodup ∧
        (∀ r, r ∈ records f.mem ↔ r ∈ f.mem.tracked) ∧
          ∃ evs, Steps Step init evs ∧ final init evs = f.mem := by
  obtain ⟨hkept, hreach⟩ := kept_of_exec h
  refine ⟨hkept.file, fun f hf => ?_⟩
  obtain ⟨evs, hst, hend⟩ := hreach f hf
  have hs : Sound f.mem := hend ▸ sound_final hst
  exact ⟨hkept.visits f hf, hs.nodup_buckets _, fun r => hs.mem_buckets rfl, evs, hst, hend⟩

theorem made_of_mem {j : Object} (h : j ∈ objects tr) : Made keys j := by
  obtain ⟨f, -, hj⟩ := List.mem_flatMap.mp h
  obtain ⟨⟨r, v⟩, -, hl⟩ := List.mem_filterMap.mp hj
  unfold logged at hl
  split_ifs at hl
  rcases ho : loggProc2Json f.mem v (f.mem.heap r) with e | o <;> rw [ho] at hl <;> cases hl
  exact made_loggProc2Json ho

/-- **The file is read back**: its lines are the texts of the objects, and the parser makes the
objects of them. -/
theorem file_read {ν : Type} (round : ℚ → ν) (h : Steps Exec boot tr) :
    ((final boot tr).file.splitOn (ch '\n')).dropLast.map (parse (fun _ => true) round) =
      (objects tr).map fun j => .ok (some (mapNumbers (fun n : ℤ => round n) (ofObject j))) := by
  have hfile : (final boot tr).file = unlines (ch '\n') ((objects tr).map printObject) :=
    (kept_of_exec h).1.file
  have hsplit : (final boot tr).file.splitOn (ch '\n') = (objects tr).map printObject ++ [[]] := by
    rw [hfile]
    refine splitOn_unlines fun l hl hm => ?_
    obtain ⟨j, -, rfl⟩ := List.mem_map.mp hl
    exact absurd (printObject_gt hm) (by decide)
  rw [hsplit, List.dropLast_concat, List.map_map]
  exact List.map_congr_left fun j hj => parse_printObject round (made_of_mem hj)

end Run

/-! ### The steps of `logg_proc_parse` -/

section Parse
variable {b : Machine} {v : Ref → Visit}

theorem exec_of_loggChain : ∀ {l : List Ref} {b : Machine} {buff buff' : Buff},
    b.place = .parse l buff → loggChain b.mem v l buff = .ok buff' →
    ∃ tr, Steps Exec b tr ∧ final b tr = { b with place := .parse [] buff' }
  | [], b, buff, buff', hb, h => by
    cases h
    exact ⟨[], trivial, by rw [← hb]; rfl⟩
  | r :: l, b, buff, buff', hb, h => by
    rw [loggChain] at h
    rcases hp : loggProc b.mem (v r) r buff with e | buff₁ <;> rw [hp] at h
    · cases h
    obtain ⟨tr, hst, hf⟩ := exec_of_loggChain (b := { b with place := .parse l buff₁ }) rfl h
    refine ⟨(.visit (v r), _) :: tr, ⟨.visit hb hp, hst⟩, ?_⟩
    rw [final_cons, hf]

/-- **A call of `logg_proc_parse`** that comes to its end is a run. -/
theorem exec_of_loggProcParse {fopen : Bool} {text : Option (List Byte)}
    (hb : b.place = .parse (records b.mem) buffInit)
    (h : loggProcParse b.mem v fopen = .ok text) :
    ∃ tr, Steps Exec b tr ∧
      final b tr = { b with place := .clear, file := b.file ++ text.getD [] } := by
  rcases hc : loggChain b.mem v (records b.mem) buffInit with e | buff
  · rw [loggProcParse_eq hc] at h
    cases h
  rw [loggProcParse_eq hc] at h
  cases h
  obtain ⟨tr, hst, hf⟩ := exec_of_loggChain hb hc
  refine ⟨tr ++ [(.write fopen, flushed fopen buff (final b tr))],
    steps_concat.mpr ⟨hst, .write (by rw [hf]) fopen⟩, ?_⟩
  rw [final_concat, hf]
  cases fopen with
  | false => simp [flushed]
  | true => rfl

end Parse

/-! ### A run -/

/-- A tick arrives behind the fork, and the two records are logged. -/
theorem flushRun_steps : ∃ tr, Steps Exec boot tr ∧
    (final boot tr).file = snapshot forked fun _ => timeless := by
  have hread : ∀ r ∈ records forked, Readable forked (fun _ => timeless) r := by
    obtain ⟨evs, hst, hend⟩ := events_of_exec forkRun_steps At.noConfusion
    have hmem : (final boot forkRun).mem = forked := rfl
    have hs : Sound forked := hmem ▸ hend ▸ sound_final hst
    intro r hr _ hne
    have hnone : ∀ r < forked.next, (forked.heap r).fdPaths = none := by decide
    exact absurd (hnone r (hs.lt_next r ((hs.mem_buckets rfl).mp hr))) hne
  set b := testFlag (catchSignal .sigusr1 (final boot forkRun)) with hb
  obtain ⟨tr, hst, hf⟩ := exec_of_loggProcParse (b := b) rfl (framed_of_readable hread).1
  refine ⟨forkRun ++ (.signal .sigusr1, catchSignal .sigusr1 (final boot forkRun)) ::
    (.test, b) :: tr,
    steps_append.mpr ⟨forkRun_steps, .signal rfl .sigusr1, .test rfl, hst⟩, ?_⟩
  have hfile : b.file = [] := rfl
  rw [final_append_cons, final_cons, hf]
  simp only [hfile, Option.getD_some, List.nil_append]

theorem file_of_run_fork : ∃ tr, Steps Exec boot tr ∧
    unlines (ch '\n') ((objects tr).map printObject) = snapshot forked fun _ => timeless := by
  obtain ⟨tr, hst, hf⟩ := flushRun_steps
  exact ⟨tr, hst, (file_of_run hst).1.symm.trans hf⟩

theorem file_read_fork : ∃ tr, Steps Exec boot tr ∧
    (lines forked (fun _ => timeless) (records forked)).map (parse (fun _ => true) id) =
      (objects tr).map fun j => .ok (some (mapNumbers (fun n : ℤ => (n : ℚ)) (ofObject j))) := by
  obtain ⟨tr, hst, hf⟩ := flushRun_steps
  have hread := file_read id hst
  rw [hf, splitOn_snapshot, List.dropLast_concat] at hread
  exact ⟨tr, hst, hread⟩

end Serie.System.LogFile
