import Serie.Log.Framing
import Serie.Model.Main
import Serie.Records.Touched

/-! # What the log holds at the end

An interrupt ends the loop without a last flush. So what the events after the start of the last
flush change is not in the log when `proc_tabl_dest` frees the records, and everything else is
(`logged_iff_followed`). -/

namespace Serie.Log.Shutdown

open Serie.Lib.CText Serie.Lib.Lines Serie.Lib.Trace Serie.Model.Record Serie.Model.Table
open Serie.Model.CJson Serie.Model.Conn Serie.Model.Logg Serie.Model.Main Serie.Model.Steps
open Serie.Model.Runs Serie.Tree.Invariant Serie.Records.Touched Serie.Log.Framing

/-- No allocation fails while a record is visited, and the file can be written. -/
def Works (l : Label) : Prop :=
  match l with
  | .visit v => v.object = true ∧ (∀ name, v.item name = true) ∧ v.array = true ∧
      (∀ i, v.entry i = true) ∧ v.arrayText = true ∧ v.text = true ∧ v.realloc = true
  | .write fopen => fopen = true
  | _ => True

/-- The step is an event that inserts a record or changes one. -/
def Changes (p : Prog) (l : Label) (q : Prog) : Prop :=
  (∃ i, l = .even i) ∧ ∃ r ∈ q.mem.tracked, p.mem.next ≤ r ∨ q.mem.heap r ≠ p.mem.heap r

/-- The step begins a flush. -/
def Begins (l : Label) (q : Prog) : Prop := l = .test ∧ q.pc.flushing = true

/-- **Every record was written by a flush** after the last event that changed it. -/
def Logged (p : Prog) : Prop := ∀ r ∈ p.mem.tracked, ∃ n, p.written r = some n ∧ p.changed r ≤ n

/-! ### What is in the buffer -/

/-- While a flush runs, the buffer holds a line for each of the records `lines`, made from the
record. -/
def Buffered (p : Prog) : Prop :=
  match p.pc with
  | .parse _ buff => ∃ js : List Object, Holds (unlines (ch '\n') (js.map printObject)) buff ∧
      List.Forall₂ (fun j r => ∃ v, loggProc2Json p.mem v (p.mem.heap r) = .ok j) js.reverse p.lines
  | _ => True

theorem Buffered.visited {p : Prog} (h : Buffered p) {r : Ref} {rest : List Ref} {buff buff' : Buff}
    {v : Visit} (hpc : p.pc = .parse (r :: rest) buff)
    (hl : loggProc p.mem v r buff = .ok buff') : Buffered (visited v r rest buff' p) := by
  unfold Buffered at h
  rw [hpc] at h
  obtain ⟨js, hh, hjs⟩ := h
  unfold loggProc at hl
  split_ifs at hl with ho
  · -- no object, no line
    cases hl
    have hlines : (Model.Main.visited v r rest buff p).lines = p.lines := by
      simp [Model.Main.visited, ho]
    exact ⟨js, hh, hlines ▸ hjs⟩
  rcases hj : loggProc2Json p.mem v (p.mem.heap r) with e | j <;> rw [hj] at hl <;> cases hl
  have hw := hh.loggMemWrit v j
  rcases hc : v.text && v.realloc with _ | _ <;> rw [hc] at hw
  · have hlines : (Model.Main.visited v r rest (loggMemWrit v j buff).2 p).lines = p.lines := by
      simp [Model.Main.visited, Bool.and_assoc, hc]
    refine ⟨js, by simpa using hw, hlines ▸ hjs⟩
  · have hlines :
        (Model.Main.visited v r rest (loggMemWrit v j buff).2 p).lines = r :: p.lines := by
      simp [Model.Main.visited, hc, ho]
    refine ⟨js ++ [j], ?_, ?_⟩
    · rw [List.map_append, unlines_append]
      simpa [unlines] using hw
    · rw [List.reverse_append, hlines]
      exact .cons ⟨v, hj⟩ hjs

/-- **The text that a flush writes** consists of the lines of the records `lines`. -/
theorem buffered_of_run {tr : List (Label × Prog)} (hr : Steps Move start tr) :
    ∀ x ∈ tr, Buffered x.2 := by
  refine hr.forall_mem (J := Buffered) (fun p l q h hm => ?_) (show Buffered start from trivial)
  cases hm with
  | signal sig => cases sig <;> exact h
  | loop =>
    unfold whileRunning Buffered
    dsimp only
    split_ifs <;> trivial
  | even hpc hst =>
    unfold Buffered
    rw [show (handled _ p).pc = .reci from hpc]
    trivial
  | test =>
    unfold testLoggRun
    split_ifs
    · exact ⟨[], holds_init, .nil⟩
    · trivial
  | visit hpc hl => exact h.visited hpc hl
  | write hpc fopen => unfold writeFile; split_ifs <;> trivial
  | reci | clear => trivial

/-! ### The invariants -/

/-- What the history says about the past. -/
structure Past (p : Prog) : Prop where
  sound : Sound p.mem
  changed_le : ∀ r, p.changed r ≤ p.events
  written_le : ∀ r n, p.written r = some n → n ≤ p.events

/-- Every change is in the log, or in the buffer, or will be in it. -/
def Fresh (p : Prog) : Prop :=
  match p.pc with
  | .parse rest _ => ∀ r ∈ p.mem.tracked, r ∈ p.lines ∨ r ∈ rest
  | _ => Logged p

/-- No flush has begun since a record changed. -/
def Missed (p : Prog) : Prop :=
  p.pc.flushing = false ∧ ∃ r ∈ p.mem.tracked, ∀ n, p.written r = some n → n < p.changed r

theorem past_start : Past start :=
  ⟨sound_init, fun _ => le_rfl, fun _ _ h => (by cases h)⟩

theorem fresh_start : Fresh start := fun r hr => absurd hr (notMem_init r)

section Step
variable {p q : Prog} {l : Label} {t : State}

/-- A record of the new table that was there before was in the table before. -/
theorem tracked_of_lt (hs : Sound p.mem) {i : Input} (hst : Step p.mem i t) {r : Ref}
    (hr : r ∈ t.tracked) (hlt : r < p.mem.next) : r ∈ p.mem.tracked := by
  obtain ⟨b, hb⟩ := hr
  obtain ⟨new, hnew, hle⟩ := (Keeps.step hs hst).buckets b
  rw [hnew] at hb
  rcases List.mem_append.mp hb with hb | hb
  · exact absurd hlt (Nat.not_lt.mpr (hle r hb))
  · exact ⟨b, hb⟩

theorem tracked_mono (hs : Sound p.mem) {i : Input} (hst : Step p.mem i t) {r : Ref}
    (hr : r ∈ p.mem.tracked) : r ∈ t.tracked := by
  obtain ⟨b, hb⟩ := hr
  obtain ⟨new, hnew, -⟩ := (Keeps.step hs hst).buckets b
  exact ⟨b, by rw [hnew]; exact List.mem_append_right _ hb⟩

theorem Past.handled (h : Past p) {i : Input} (hst : Step p.mem i t) : Past (handled t p) where
  sound := h.sound.step hst
  changed_le r := by
    have hle := h.changed_le r
    unfold Model.Main.handled
    dsimp only
    split_ifs
    · omega
    · exact le_rfl
  written_le r n hn := Nat.le_succ_of_le (h.written_le r n hn)

theorem Past.move (h : Past p) (hm : Move p l q) : Past q := by
  cases hm with
  | signal sig => cases sig <;> exact ⟨h.sound, h.changed_le, h.written_le⟩
  | loop | reci | visit | clear => exact ⟨h.sound, h.changed_le, h.written_le⟩
  | even hpc hst => exact h.handled hst
  | test hpc =>
    unfold testLoggRun
    split_ifs <;> exact ⟨h.sound, h.changed_le, h.written_le⟩
  | write hpc fopen =>
    unfold writeFile
    split_ifs
    · refine ⟨h.sound, h.changed_le, fun r n hn => ?_⟩
      dsimp only at hn
      split_ifs at hn
      · cases hn; exact le_rfl
      · exact h.written_le r n hn
    · exact ⟨h.sound, h.changed_le, h.written_le⟩

/-- **A flush begins** with all records of the table before it. -/
theorem fresh_of_begins (h : Past p) (hm : Move p l q) (hb : Begins l q) : Fresh q := by
  obtain ⟨rfl, hf⟩ := hb
  cases hm with
  | test hpc =>
    unfold testLoggRun at hf ⊢
    split_ifs at hf ⊢
    · exact fun r hr => Or.inr ((h.sound.mem_buckets rfl).mpr hr)
    · cases hf

/-- Except while the lines are made, the log itself has every change. -/
theorem Fresh.logged (hf : Fresh p) (hpc : ∀ rest buff, p.pc ≠ .parse rest buff) : Logged p := by
  unfold Fresh at hf
  split at hf
  next rest buff he => exact absurd he (hpc rest buff)
  next => exact hf

theorem Logged.handled (hl : Logged p) (h : Past p) {i : Input} (hst : Step p.mem i t)
    (hc : ¬ Changes p (.even i) (handled t p)) : Logged (handled t p) := by
  intro r hr
  have hsame : r < p.mem.next ∧ t.heap r = p.mem.heap r := by
    by_contra hn
    refine hc ⟨⟨i, rfl⟩, r, hr, ?_⟩
    show p.mem.next ≤ r ∨ t.heap r ≠ p.mem.heap r
    by_cases hlt : r < p.mem.next
    · exact Or.inr fun he => hn ⟨hlt, he⟩
    · exact Or.inl (Nat.not_lt.mp hlt)
  obtain ⟨n, hn, hle⟩ := hl r (tracked_of_lt h.sound hst hr hsame.1)
  refine ⟨n, hn, ?_⟩
  unfold Model.Main.handled
  dsimp only
  rw [if_pos hsame]
  exact hle

theorem Fresh.visited (hf : Fresh p) {r : Ref} {rest : List Ref} {buff buff' : Buff} {v : Visit}
    (hpc : p.pc = .parse (r :: rest) buff) (hw : Works (.visit v)) :
    Fresh (visited v r rest buff' p) := by
  have hall : ∀ r' ∈ p.mem.tracked, r' ∈ p.lines ∨ r' ∈ r :: rest := by
    unfold Fresh at hf; rwa [hpc] at hf
  obtain ⟨ho, -, -, -, -, ht, hr⟩ := hw
  intro r' hr'
  have hlines : (Model.Main.visited v r rest buff' p).lines = r :: p.lines := by
    simp [Model.Main.visited, ho, ht, hr]
  rw [hlines]
  rcases hall r' hr' with hm | hm
  · exact Or.inl (List.mem_cons_of_mem _ hm)
  · rcases List.mem_cons.mp hm with rfl | hm
    · exact Or.inl List.mem_cons_self
    · exact Or.inr hm

theorem Fresh.written (hf : Fresh p) (h : Past p) {buff : Buff} (hpc : p.pc = .parse [] buff) :
    Logged (writeFile true buff p) := by
  have hall : ∀ r ∈ p.mem.tracked, r ∈ p.lines ∨ r ∈ [] := by
    unfold Fresh at hf; rwa [hpc] at hf
  intro r hr
  have hmem : r ∈ p.lines := (hall r hr).resolve_right List.not_mem_nil
  refine ⟨p.events, ?_, h.changed_le r⟩
  show (if r ∈ p.lines then some p.events else p.written r) = some p.events
  rw [if_pos hmem]

theorem Fresh.move (hf : Fresh p) (h : Past p) (hm : Move p l q) (hw : Works l)
    (hc : ¬ Changes p l q) : Fresh q := by
  cases hm with
  | signal sig => cases sig <;> exact hf
  | loop hpc =>
    have hl : Logged p := hf.logged (by simp [hpc])
    unfold whileRunning Fresh
    dsimp only
    split_ifs <;> exact hl
  | @even i t hpc hst =>
    have hl : Logged p := hf.logged (by simp [hpc])
    unfold Fresh
    rw [show (handled t p).pc = .reci from hpc]
    exact hl.handled h hst hc
  | reci hpc => exact hf.logged (by simp [hpc])
  | test hpc =>
    have hl : Logged p := hf.logged (by simp [hpc])
    by_cases hr : p.loggRun = true
    · exact fresh_of_begins h (.test hpc) ⟨rfl, by simp [testLoggRun, hr, Pc.flushing]⟩
    · unfold testLoggRun
      rw [if_neg hr]
      exact hl
  | visit hpc => exact hf.visited hpc hw
  | @write buff hpc fopen =>
    obtain rfl : fopen = true := hw
    exact hf.written h hpc
  | clear hpc => exact hf.logged (by simp [hpc])

/-- **A changed record** is not in the log yet. -/
theorem missed_of_changes (h : Past p) (hm : Move p l q) (hc : Changes p l q) : Missed q := by
  obtain ⟨⟨i, rfl⟩, r, hr, hne⟩ := hc
  cases hm with
  | @even i t hpc hst =>
    refine ⟨by show p.pc.flushing = false; rw [hpc]; rfl, r, hr, fun n hn => ?_⟩
    have hle := h.written_le r n hn
    have hno : ¬ (r < p.mem.next ∧ t.heap r = p.mem.heap r) := by
      rintro ⟨hlt, he⟩
      rcases hne with hge | hne
      · exact absurd hge (Nat.not_le.mpr hlt)
      · exact hne he
    show n < if r < p.mem.next ∧ t.heap r = p.mem.heap r then p.changed r else p.events + 1
    rw [if_neg hno]
    omega

theorem Missed.move (hi : Missed p) (h : Past p) (hm : Move p l q) (hb : ¬ Begins l q) :
    Missed q := by
  obtain ⟨hf, r, hr, hn⟩ := hi
  cases hm with
  | signal sig => cases sig <;> exact ⟨hf, r, hr, hn⟩
  | loop hpc =>
    refine ⟨?_, r, hr, hn⟩
    unfold whileRunning
    dsimp only
    split_ifs <;> rfl
  | @even i t hpc hst =>
    refine ⟨hf, r, tracked_mono h.sound hst hr, fun n hw => ?_⟩
    have hlt := hn n hw
    have hle := h.changed_le r
    show n < if r < p.mem.next ∧ t.heap r = p.mem.heap r then p.changed r else p.events + 1
    split_ifs <;> omega
  | reci hpc => exact ⟨rfl, r, hr, hn⟩
  | test hpc =>
    unfold testLoggRun at hb ⊢
    split_ifs at hb ⊢
    · exact absurd ⟨rfl, rfl⟩ hb
    · exact ⟨rfl, r, hr, hn⟩
  | visit hpc => rw [hpc] at hf; cases hf
  | write hpc => rw [hpc] at hf; cases hf
  | clear hpc => rw [hpc] at hf; cases hf

end Step

/-! ### Runs -/

/-- **After a run without failures the log misses nothing exactly if a flush began after every event
that changed a record.** -/
theorem past_of_run {tr : List (Label × Prog)}
    (hr : Steps (fun p l q => Move p l q ∧ Works l) start tr) :
    Past (final start tr) ∧ (Followed Changes Begins start tr → Fresh (final start tr)) ∧
      (¬ Followed Changes Begins start tr → Missed (final start tr)) := by
  refine hr.history (K := fun tr => Past (final start tr) ∧
    (Followed Changes Begins start tr → Fresh (final start tr)) ∧
      (¬ Followed Changes Begins start tr → Missed (final start tr)))
    ⟨past_start, fun _ => fresh_start, fun h => absurd followed_nil h⟩ ?_
  rintro tr l q - ⟨h, hfresh, hmissed⟩ ⟨hm, hw⟩
  rw [final_concat, followed_concat]
  refine ⟨h.move hm, fun ⟨hc, hb⟩ => ?_, fun hn => ?_⟩
  · by_cases hbg : Begins l q
    · exact fresh_of_begins h hm hbg
    · exact (hfresh (hb.resolve_left hbg)).move h hm hw hc
  · by_cases hc : Changes (final start tr) l q
    · exact missed_of_changes h hm hc
    · have hb : ¬ Begins l q := fun hb => hn ⟨hc, Or.inl hb⟩
      have hf : ¬ Followed Changes Begins start tr := fun hf => hn ⟨hc, Or.inr hf⟩
      exact (hmissed hf).move h hm hb

/-- **When the program comes to its end without failures, the log misses nothing exactly if a flush
began after every event that changed a record.** -/
theorem logged_iff_followed {tr : List (Label × Prog)}
    (hr : Steps (fun p l q => Move p l q ∧ Works l) start tr) (hd : (final start tr).pc = .dest) :
    Logged (final start tr) ↔ Followed Changes Begins start tr := by
  obtain ⟨h, hfresh, hmissed⟩ := past_of_run hr
  constructor
  · intro hl
    by_contra hn
    obtain ⟨-, r, hrt, hw⟩ := hmissed hn
    obtain ⟨n, hn, hle⟩ := hl r hrt
    have hlt := hw n hn
    omega
  · intro hf
    have hfr := hfresh hf
    unfold Fresh at hfr
    rwa [hd] at hfr

/-- A fork, and the interrupt before the next tick. -/
def interrupted : List (Label × Prog) :=
  let i := input 1 (.fork 1 2) [(1, ['0']), (2, ['1'])]
  let p₁ := whileRunning start
  let p₂ := handled (after 2 init i) p₁
  let p₃ := { p₂ with pc := .test }
  let p₄ := testLoggRun p₃
  let p₅ := sigintHand .sigint p₄
  [(.loop, p₁), (.even i, p₂), (.reci, p₃), (.test, p₄), (.signal .sigint, p₅),
    (.loop, whileRunning p₅)]

theorem interrupted_steps :
    Steps (fun p l q => Move p l q ∧ Works l) start interrupted := by
  have hst : Step init (input 1 (.fork 1 2) [(1, ['0']), (2, ['1'])]) _ := adopted_steps.1
  exact ⟨⟨.loop rfl, trivial⟩, ⟨.even rfl hst, trivial⟩, ⟨.reci rfl, trivial⟩, ⟨.test rfl, trivial⟩,
    ⟨.signal _ _, trivial⟩, ⟨.loop rfl, trivial⟩, trivial⟩

theorem logged_iff_followed_interrupted :
    Logged (final start interrupted) ↔ Followed Changes Begins start interrupted :=
  logged_iff_followed interrupted_steps rfl

/-- The two records are freed and were never written. -/
theorem not_logged_interrupted :
    Steps (fun p l q => Move p l q ∧ Works l) start interrupted ∧
      (final start interrupted).pc = .dest ∧ ¬ Logged (final start interrupted) := by
  refine ⟨interrupted_steps, rfl, fun hl => ?_⟩
  obtain ⟨n, hn, -⟩ := hl 1 ⟨2, by decide⟩
  cases hn

end Serie.Log.Shutdown
