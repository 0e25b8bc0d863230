import Serie.Model.Steps

/-! # The loop of `even_exit`

One turn of the loop takes the first child off the list of the dead record, refreshes it and
attaches it to the parent that is found for it (`exitTurn_cases`). `LoopAt` follows the full turns;
`LoopAt.inv` is the invariant rule of the loop and `LoopEnd` says how the loop ends. -/

namespace Serie.Model.Loop

open Serie.Lib.Intrusive Serie.Model.Record Serie.Model.Prfs Serie.Model.Refresh Serie.Model.Table
open Serie.Model.Conn Serie.Model.Steps

/-! ### One turn -/

section Turn
variable {s t : State} {d c : Ref} {w : World} {x : ℤ}

/-- The state after the first child `c` of `d` was taken off and refreshed. -/
def orphaned (d c : Ref) (w : World) (s : State) : ℤ × State :=
  lookRec c (w.files ((headOff d c s).heap c).pid) (headOff d c s)

theorem orphaned_tracked : (orphaned d c w s).2.tracked = s.tracked :=
  (headOff_relinked (p := d) (c := c) (s := s)).tracked

theorem orphaned_next : (orphaned d c w s).2.next = s.next :=
  (headOff_relinked (p := d) (c := c) (s := s)).next

theorem orphaned_links : (orphaned d c w s).2.links = s.links.detachHead d c :=
  lookRec_links.trans headOff_links

theorem orphaned_pare (r : Ref) :
    ((orphaned d c w s).2.heap r).pare = if r = c then none else (s.heap r).pare :=
  (lookRec_field Proc.pare prfsLook_pare r).trans (headOff_pare r)

theorem orphaned_field {α : Type} (g : Proc → α) (hb : ∀ p, g (bare p) = g p)
    (hg : ∀ p m f, g (prfsLook p m f).2.1 = g p) (r : Ref) :
    g ((orphaned d c w s).2.heap r) = g (s.heap r) :=
  (lookRec_field g hg r).trans (headOff_relinked.field g hb r)

theorem orphaned_pid (r : Ref) : ((orphaned d c w s).2.heap r).pid = (s.heap r).pid :=
  orphaned_field Proc.pid (fun _ => rfl) prfsLook_pid r

theorem orphaned_alive {r : Ref} (h : (s.heap r).alive = true) :
    ((orphaned d c w s).2.heap r).alive = true :=
  lookRec_alive (by rw [headOff_relinked.alive, h])

theorem orphaned_of_ne {r : Ref} (h : r ≠ c) :
    bare ((orphaned d c w s).2.heap r) = bare (s.heap r) := by
  rw [orphaned, lookRec_of_ne h]
  exact headOff_relinked.bare r

/-- **One turn of the loop** takes the first child off and refreshes it. If the refresh fails, or no
parent is found, or the child itself is found, the turn ends there with `-1`. -/
theorem exitTurn_cases (hf : (s.heap d).firsChil = some c) :
    let u := orphaned d c w s
    (u.1 = -1 ∧ exitTurn d c w s = .ret (-1, u.2)) ∨
    u.1 ≠ -1 ∧ ∃ o v, findPare (u.2.heap c).ppid w u.2 = (o, v) ∧
      ((o = none ∨ o = some c) ∧ exitTurn d c w s = .ret (-1, v) ∨
      ∃ p, o = some p ∧ p ≠ c ∧ exitTurn d c w s = .ret (0, (attaChil (some p) (some c) v).2)) := by
  intro u
  have hu : exitTurn d c w s = if u.1 = -1 then .ret (-1, u.2) else
      if (rePare c w u.2).1 = -1 then .ret (-1, (rePare c w u.2).2)
      else .ret (0, (rePare c w u.2).2) := by
    simp only [exitTurn, detaChil_head hf, Outcome.bind, show ¬((0 : ℤ) = -1) by decide, if_false]
    rfl
  rw [hu]
  by_cases hc : u.1 = -1
  · exact Or.inl ⟨hc, by simp [hc]⟩
  rcases hfp : findPare (u.2.heap c).ppid w u.2 with ⟨o, v⟩
  refine Or.inr ⟨hc, o, v, rfl, ?_⟩
  rw [if_neg hc]
  rcases o with _ | p
  · exact Or.inl ⟨Or.inl rfl, by simp [rePare, hfp]⟩
  by_cases hpc : p = c
  · subst hpc
    exact Or.inl ⟨Or.inr rfl, by simp [rePare, hfp, attaChil_self]⟩
  · exact Or.inr ⟨p, rfl, hpc, by simp [rePare, hfp, attaChil_of_ne hpc]⟩

theorem procLook_orphaned (q : Pid) : procLook (orphaned d c w s).2 q = procLook s q :=
  (procLook_lookRec q).trans (headOff_relinked.procLook q)

theorem orphaned_code :
    (orphaned d c w s).1 = if readable (w.files (s.heap c).pid) then 0 else -1 := by
  rw [orphaned, headOff_relinked.pid]
  exact prfsLook_readable _ _ _

theorem orphaned_ppid :
    ((orphaned d c w s).2.heap c).ppid =
      ((statRead (w.files (s.heap c).pid)).map StatFields.ppid).getD (s.heap c).ppid := by
  rw [orphaned, lookRec_self, prfsLook_ppid, headOff_relinked.pid, headOff_relinked.ppid]

/-- **What a turn does, by what is read.** The child cannot be read; or it is its own parent; or
there is no record of its parent and none can be made; or there is one, and the child goes there. -/
theorem exitTurn_spec (hf : (s.heap d).firsChil = some c) (hc : c < s.next) :
    let u := (orphaned d c w s).2
    let f := w.files (s.heap c).pid
    (readable f = false ∧ exitTurn d c w s = .ret (-1, u)) ∨
    ∃ g, readable f = true ∧ statRead f = some g ∧
      (procLook s g.ppid = some c ∧ exitTurn d c w s = .ret (-1, u) ∨
      (∃ v, procLook s g.ppid = none ∧ canLoad w g.ppid = false ∧ Quiet u v ∧
        exitTurn d c w s = .ret (-1, v)) ∨
      ∃ p v, p ≠ c ∧ Found g.ppid w u p v ∧
        exitTurn d c w s = .ret (0, (attaChil (some p) (some c) v).2)) := by
  intro u f
  have hcode : (orphaned d c w s).1 = if readable f then 0 else -1 := orphaned_code
  rcases exitTurn_cases (w := w) hf with ⟨h1, he⟩ | ⟨h1, o, v, hv, ho⟩
  · refine Or.inl ⟨?_, he⟩
    by_contra hr
    rw [hcode, if_pos (by simpa using hr)] at h1
    cases h1
  have hr : readable f = true := by
    by_contra hr
    rw [hcode, if_neg hr] at h1
    exact h1 rfl
  obtain ⟨g, hg⟩ := statRead_of_readable hr
  have hpp : (u.heap c).ppid = g.ppid := by
    rw [show u = (orphaned d c w s).2 from rfl, orphaned_ppid, show statRead _ = some g from hg]
    rfl
  refine Or.inr ⟨g, hr, hg, ?_⟩
  rw [show (orphaned d c w s).2 = u from rfl, hpp] at hv
  have hlk : procLook u g.ppid = procLook s g.ppid := procLook_orphaned _
  rcases findPare_cases hv with ⟨hp, hcl, rfl, hq⟩ | ⟨p, rfl, hfd⟩
  · rcases ho with ⟨-, he⟩ | ⟨p', hpp', -⟩
    · exact Or.inr (Or.inl ⟨v, hlk ▸ hp, hcl, hq, he⟩)
    · cases hpp'
  · rcases ho with ⟨hoc | hoc, he⟩ | ⟨p', hpp', hne, he⟩
    · cases hoc
    · obtain rfl := Option.some.inj hoc
      obtain ⟨hp, rfl⟩ := hfd.old_of_lt (by rw [show u.next = s.next from orphaned_next]; exact hc)
      exact Or.inl ⟨hlk ▸ hp, he⟩
    · cases hpp'
      exact Or.inr (Or.inr ⟨p, v, hne, hfd, he⟩)

theorem exitTurn_code (hf : (s.heap d).firsChil = some c) :
    (∃ v, exitTurn d c w s = .ret (-1, v)) ∨ ∃ v, exitTurn d c w s = .ret (0, v) := by
  rcases exitTurn_cases (w := w) hf with ⟨-, he⟩ | ⟨-, o, v, -, ⟨-, he⟩ | ⟨p, -, -, he⟩⟩
  · exact Or.inl ⟨_, he⟩
  · exact Or.inl ⟨_, he⟩
  · exact Or.inr ⟨_, he⟩

theorem exitTurn_of_procLook (hf : (s.heap d).firsChil = some c) (hc : c < s.next)
    (hr : readable (w.files (s.heap c).pid) = true) {g : StatFields}
    (hg : statRead (w.files (s.heap c).pid) = some g) {p : Ref} (hp : procLook s g.ppid = some p)
    (hpc : p ≠ c) : exitTurn d c w s =
      .ret (0, (attaChil (some p) (some c) (orphaned d c w s).2).2) := by
  rcases exitTurn_spec (w := w) hf hc with ⟨hr', -⟩ | ⟨g', -, hg', hcase⟩
  · rw [hr] at hr'; cases hr'
  rw [hg] at hg'; cases hg'
  rcases hcase with ⟨hp', -⟩ | ⟨v, hp', -⟩ | ⟨p', v, -, hfd, ht⟩
  · rw [hp] at hp'; exact absurd (Option.some.inj hp') hpc
  · rw [hp] at hp'; cases hp'
  · have hlo : procLook (orphaned d c w s).2 g.ppid = some p := (procLook_orphaned _).trans hp
    cases hfd with
    | old hp' => rw [hlo] at hp'; cases hp'; exact ht
    | new hp' => rw [hlo] at hp'; cases hp'

/-- Why a turn fails: the child cannot be read, or it reports itself as its parent, or there is no
record of its parent and none can be made. -/
def turnFails (c : Ref) (w : World) (s : State) : Prop :=
  readable (w.files (s.heap c).pid) = false ∨
    ∃ g, statRead (w.files (s.heap c).pid) = some g ∧
      (procLook s g.ppid = some c ∨ procLook s g.ppid = none ∧ canLoad w g.ppid = false)

theorem exitTurn_failed (hf : (s.heap d).firsChil = some c) (hc : c < s.next) (hd : d < s.next)
    (he : exitTurn d c w s = .ret (-1, t)) :
    turnFails c w s ∧ (t.heap d).firsChil = (s.heap c).nextSibl := by
  have hu : ((orphaned d c w s).2.heap d).firsChil = (s.heap c).nextSibl := by
    have := congrArg (fun l : Links Ref => l.first d) (orphaned_links (d := d) (c := c) (w := w)
      (s := s))
    simpa [State.links, Links.detachHead] using this
  rcases exitTurn_spec (w := w) hf hc with ⟨hr, ht⟩ | ⟨g, -, hg, ⟨hp, ht⟩ | ⟨v, hp, hcl, hv, ht⟩ |
    ⟨p, v, -, -, ht⟩⟩ <;> rw [ht] at he <;> cases he
  · exact ⟨Or.inl hr, hu⟩
  · exact ⟨Or.inr ⟨g, hg, Or.inl hp⟩, hu⟩
  · refine ⟨Or.inr ⟨g, hg, Or.inr ⟨hp, hcl⟩⟩, ?_⟩
    rw [hv.heap d (by rw [orphaned_next]; exact hd)]; exact hu

theorem exitTurn_of_fails (hf : (s.heap d).firsChil = some c) (hc : c < s.next)
    (h : turnFails c w s) : ∃ v, exitTurn d c w s = .ret (-1, v) := by
  rcases exitTurn_spec (w := w) hf hc with ⟨-, ht⟩ | ⟨g, hr, hg, ⟨-, ht⟩ | ⟨v, -, -, -, ht⟩ |
    ⟨p, v, hpc, hfd, -⟩⟩
  · exact ⟨_, ht⟩
  · exact ⟨_, ht⟩
  · exact ⟨_, ht⟩
  · rcases h with h | ⟨g', hg', h⟩
    · rw [hr] at h; cases h
    rw [hg] at hg'; cases hg'
    rw [← procLook_orphaned (d := d) (c := c) (w := w)] at h
    cases hfd with
    | old hp =>
      rcases h with h | ⟨h, -⟩ <;> rw [hp] at h <;> cases h
      exact absurd rfl hpc
    | new hp hcl =>
      rcases h with h | ⟨-, h⟩
      · rw [hp] at h; cases h
      · rw [hcl] at h; cases h

/-- From `s` to `t` the record `c` was refreshed, `c` moved in the tree, and records were added; the
other records keep their fields and their parents. -/
structure Handed (c : Ref) (s t : State) : Prop where
  next_le : s.next ≤ t.next
  other : ∀ r < s.next, r ≠ c → bare (t.heap r) = bare (s.heap r) ∧
    (t.heap r).pare = (s.heap r).pare
  field : ∀ r < s.next, ∀ {α : Type} (g : Proc → α), (∀ p, g (bare p) = g p) →
    (∀ p m f, g (prfsLook p m f).2.1 = g p) → g (t.heap r) = g (s.heap r)
  alive : ∀ r < s.next, (s.heap r).alive = true → (t.heap r).alive = true

namespace Handed

theorem other_field (h : Handed c s t) {α : Type} (g : Proc → α) (hg : ∀ p, g (bare p) = g p)
    {r : Ref} (hr : r < s.next) (hrc : r ≠ c) : g (t.heap r) = g (s.heap r) := by
  rw [← hg, (h.other r hr hrc).1, hg]

theorem orphaned : Handed c s (orphaned d c w s).2 where
  next_le := orphaned_next.ge
  other _ _ hrc := ⟨orphaned_of_ne hrc, by rw [orphaned_pare, if_neg hrc]⟩
  field r _ _ g hb hl := orphaned_field g hb hl r
  alive _ _ ha := orphaned_alive ha

theorem grow (h : Handed c s t) {v : State} (hn : t.next ≤ v.next)
    (hv : ∀ r < t.next, v.heap r = t.heap r) : Handed c s v where
  next_le := h.next_le.trans hn
  other r hr := by rw [hv r (lt_of_lt_of_le hr h.next_le)]; exact h.other r hr
  field r hr := by rw [hv r (lt_of_lt_of_le hr h.next_le)]; exact h.field r hr
  alive r hr := by rw [hv r (lt_of_lt_of_le hr h.next_le)]; exact h.alive r hr

theorem attach (h : Handed c s t) {p : Ref} (hp : p ≠ c) :
    Handed c s (attaChil (some p) (some c) t).2 where
  next_le := by rw [(attaChil_relinked _ _).next]; exact h.next_le
  other r hr hrc := by
    rw [(attaChil_relinked _ _).bare, attaChil_pare hp, if_neg hrc]
    exact h.other r hr hrc
  field r hr _ g hb hl := by
    rw [(attaChil_relinked _ _).field g hb]
    exact h.field r hr g hb hl
  alive r hr ha := by
    rw [(attaChil_relinked _ _).alive]
    exact h.alive r hr ha

end Handed

/-- **A turn changes the other records little.** -/
theorem exitTurn_handed (hf : (s.heap d).firsChil = some c) (hc : c < s.next)
    (he : exitTurn d c w s = .ret (x, t)) : Handed c s t := by
  have hu : Handed c s (orphaned d c w s).2 := Handed.orphaned
  rcases exitTurn_spec (w := w) hf hc with ⟨-, ht⟩ | ⟨g, -, -, ⟨-, ht⟩ | ⟨v, -, -, hv, ht⟩ |
    ⟨p, v, hpc, hfd, ht⟩⟩ <;> rw [ht] at he <;> cases he
  · exact hu
  · exact hu
  · exact hu.grow hv.next hv.heap
  · cases hfd with
    | old => exact hu.attach hpc
    | new _ _ _ ha =>
      refine (hu.grow (by rw [ha.next]; exact Nat.le_succ _) fun r hr => ?_).attach hpc
      rw [ha.heap, Function.update_of_ne hr.ne]

theorem exitTurn_mem_or_pare {r : Ref} (hf : (s.heap d).firsChil = some c)
    (hc : c < s.next) (he : exitTurn d c w s = .ret (x, t)) (hr : r ∈ t.tracked) :
    r ∈ s.tracked ∨ (t.heap r).pare = none := by
  have hut : (orphaned d c w s).2.tracked = s.tracked := orphaned_tracked
  rcases exitTurn_spec (w := w) hf hc with ⟨-, ht⟩ | ⟨g, -, -, ⟨-, ht⟩ | ⟨v, -, -, hv, ht⟩ |
    ⟨p, v, hpc, hfd, ht⟩⟩ <;> rw [ht] at he <;> cases he
  · exact Or.inl (hut ▸ hr)
  · exact Or.inl (hut ▸ hr)
  · exact Or.inl (hut ▸ hv.tracked ▸ hr)
  · rw [(attaChil_relinked _ _).tracked] at hr
    cases hfd with
    | old => exact Or.inl (hut ▸ hr)
    | new _ _ hx ha =>
      rw [ha.tracked, hut] at hr
      refine hr.symm.imp_right ?_
      rintro rfl
      have hne : (orphaned d c w s).2.next ≠ c := by rw [orphaned_next]; exact hc.ne'
      rw [attaChil_pare hpc, if_neg hne, ha.heap, Function.update_self, hx.pare]

end Turn

/-! ### All turns -/

/-- The loop of `even_exit`, at its head for turn `k` in state `s`, comes to its head for turn `k'`
in state `t`. -/
inductive LoopAt (d : Ref) (w : ℕ → World) : ℕ → State → ℕ → State → Prop where
  | here (k : ℕ) (s : State) : LoopAt d w k s k s
  | next {k k' : ℕ} {s s' t : State} {c : Ref} (hf : (s.heap d).firsChil = some c)
      (ht : exitTurn d c (w k) s = .ret (0, s')) (hl : LoopAt d w (k + 1) s' k' t) :
      LoopAt d w k s k' t

section Loop
variable {d : Ref} {w : ℕ → World}

/-- What holds at the head of the loop and is kept by a full turn holds whenever the loop is at its
head. -/
theorem LoopAt.inv {I : ℕ → State → Prop} (hstep : ∀ k s c s', I k s →
    (s.heap d).firsChil = some c → exitTurn d c (w k) s = .ret (0, s') → I (k + 1) s')
    {k k' : ℕ} {s t : State} (h : LoopAt d w k s k' t) (h0 : I k s) : I k' t := by
  induction h with
  | here => exact h0
  | next hf ht _ ih => exact ih (hstep _ _ _ _ h0 hf ht)

theorem LoopAt.step {k k' : ℕ} {s s' t : State} {c : Ref} (h : LoopAt d w k s k' s')
    (hf : (s'.heap d).firsChil = some c) (ht : exitTurn d c (w k') s' = .ret (0, t)) :
    LoopAt d w k s (k' + 1) t := by
  induction h with
  | here k s => exact .next hf ht (.here _ _)
  | next hf' ht' _ ih => exact .next hf' ht' (ih hf ht)

theorem exitLoop_nil {fuel k : ℕ} {s : State} (hf : (s.heap d).firsChil = none) :
    exitLoop d w fuel k s = .ret (0, s) := by
  unfold exitLoop; rw [hf]

theorem exitLoop_zero {k : ℕ} {s : State} {c : Ref} (hf : (s.heap d).firsChil = some c) :
    exitLoop d w 0 k s = .spin := by
  unfold exitLoop; rw [hf]

theorem exitLoop_fail {fuel k : ℕ} {s t : State} {c : Ref} (hf : (s.heap d).firsChil = some c)
    (ht : exitTurn d c (w k) s = .ret (-1, t)) : exitLoop d w (fuel + 1) k s = .ret (-1, t) := by
  unfold exitLoop; rw [hf]; dsimp only; rw [ht]; rfl

theorem exitLoop_turn {fuel k : ℕ} {s t : State} {c : Ref} (hf : (s.heap d).firsChil = some c)
    (ht : exitTurn d c (w k) s = .ret (0, t)) :
    exitLoop d w (fuel + 1) k s = exitLoop d w fuel (k + 1) t := by
  conv_lhs => unfold exitLoop
  rw [hf]; dsimp only; rw [ht]; rfl

/-- **Termination of the loop.** `I` holds at its head of the turn, the state and the list of the
children; a turn takes the first child off the list, or fails. So there is at most one turn for each
child. -/
theorem exitLoop_ret {I : ℕ → State → List Ref → Prop}
    (hnil : ∀ k s, I k s [] → (s.heap d).firsChil = none)
    (hcons : ∀ k s c l, I k s (c :: l) → (s.heap d).firsChil = some c ∧
      ((∃ t, exitTurn d c (w k) s = .ret (-1, t)) ∨
        ∃ t, exitTurn d c (w k) s = .ret (0, t) ∧ I (k + 1) t l)) :
    ∀ {l : List Ref} {k : ℕ} {s : State}, I k s l → ∃ y, exitLoop d w l.length k s = .ret y
  | [], k, s, h => ⟨_, exitLoop_nil (hnil k s h)⟩
  | c :: l, k, s, h => by
    obtain ⟨hf, ⟨t, ht⟩ | ⟨t, ht, hi⟩⟩ := hcons k s c l h
    · exact ⟨_, exitLoop_fail hf ht⟩
    · obtain ⟨y, hy⟩ := exitLoop_ret hnil hcons hi
      exact ⟨y, by rw [List.length_cons, exitLoop_turn hf ht, hy]⟩

/-- The loop starts in `s` for turn `k` and ends in `t`: at its head, without children left, or in a
turn that fails. -/
def LoopEnd (d : Ref) (w : ℕ → World) (k : ℕ) (s t : State) : Prop :=
  ∃ k' s', LoopAt d w k s k' s' ∧ ((s'.heap d).firsChil = none ∧ t = s' ∨
    ∃ c, (s'.heap d).firsChil = some c ∧ exitTurn d c (w k') s' = .ret (-1, t))

/-- What every turn keeps, a failing one included, holds where the loop ends. -/
theorem LoopEnd.inv {I : State → Prop} (hstep : ∀ k s c x s', I s → (s.heap d).firsChil = some c →
    exitTurn d c (w k) s = .ret (x, s') → I s') {k : ℕ} {s t : State} (h : LoopEnd d w k s t)
    (h0 : I s) : I t := by
  obtain ⟨k', s', hl, hend⟩ := h
  have hs' : I s' :=
    hl.inv (I := fun _ => I) (fun k s c s' hs hf ht => hstep k s c 0 s' hs hf ht) h0
  rcases hend with ⟨-, rfl⟩ | ⟨c, hf, ht⟩
  · exact hs'
  · exact hstep k' s' c (-1) t hs' hf ht

theorem LoopEnd.nil {k : ℕ} {s t : State} (h : LoopEnd d w k s t)
    (hf : (s.heap d).firsChil = none) : t = s := by
  obtain ⟨k', s', hl, hend⟩ := h
  cases hl with
  | here =>
    rcases hend with ⟨-, ht⟩ | ⟨c, hf', -⟩
    · exact ht
    · rw [hf] at hf'; cases hf'
  | next hf' => rw [hf] at hf'; cases hf'

theorem LoopEnd.cons {k : ℕ} {s t : State} {c : Ref} (h : LoopEnd d w k s t)
    (hf : (s.heap d).firsChil = some c) : exitTurn d c (w k) s = .ret (-1, t) ∨
      ∃ s', exitTurn d c (w k) s = .ret (0, s') ∧ LoopEnd d w (k + 1) s' t := by
  obtain ⟨k', s', hl, hend⟩ := h
  cases hl with
  | here =>
    rcases hend with ⟨hn, -⟩ | ⟨c', hf', ht⟩
    · rw [hf] at hn; cases hn
    · rw [hf] at hf'; cases hf'; exact Or.inl ht
  | next hf' ht hl =>
    rw [hf] at hf'; cases hf'
    exact Or.inr ⟨_, ht, _, _, hl, hend⟩

/-- The end is the same from every head the loop comes to. -/
theorem LoopEnd.of_loopAt {k k' : ℕ} {s s' t : State} (h : LoopEnd d w k s t)
    (hl : LoopAt d w k s k' s') : LoopEnd d w k' s' t := by
  induction hl with
  | here => exact h
  | next hf ht _ ih =>
    rcases h.cons hf with he | ⟨s₁, he, h₁⟩ <;> rw [ht] at he <;> cases he
    exact ih h₁

/-- **The loop of `even_exit`** ends at its head, or in a turn that fails. -/
theorem loopEnd_of_exitLoop {fuel k : ℕ} {s t : State} {x : ℤ}
    (h : exitLoop d w fuel k s = .ret (x, t)) : LoopEnd d w k s t := by
  induction fuel generalizing k s with
  | zero =>
    rcases hf : (s.heap d).firsChil with _ | c
    · rw [exitLoop_nil hf] at h; cases h
      exact ⟨k, _, .here _ _, Or.inl ⟨hf, rfl⟩⟩
    · rw [exitLoop_zero hf] at h; cases h
  | succ fuel ih =>
    rcases hf : (s.heap d).firsChil with _ | c
    · rw [exitLoop_nil hf] at h; cases h
      exact ⟨k, _, .here _ _, Or.inl ⟨hf, rfl⟩⟩
    · rcases exitTurn_code (w := w k) hf with ⟨v, he⟩ | ⟨v, he⟩
      · rw [exitLoop_fail hf he] at h; cases h
        exact ⟨k, s, .here _ _, Or.inr ⟨c, hf, he⟩⟩
      · rw [exitLoop_turn hf he] at h
        obtain ⟨k', s', hl, hend⟩ := ih h
        exact ⟨k', s', .next hf he hl, hend⟩

/-- The loop takes heads off lists, which needs no scan. -/
theorem exitLoop_ne_crash : ∀ {fuel k : ℕ} {s : State}, exitLoop d w fuel k s ≠ .crash
  | 0, k, s => by
    rcases hf : (s.heap d).firsChil with _ | c
    · rw [exitLoop_nil hf]; simp
    · rw [exitLoop_zero hf]; simp
  | fuel + 1, k, s => by
    rcases hf : (s.heap d).firsChil with _ | c
    · rw [exitLoop_nil hf]; simp
    · rcases exitTurn_code (w := w k) hf with ⟨v, he⟩ | ⟨v, he⟩
      · rw [exitLoop_fail hf he]; simp
      · rw [exitLoop_turn hf he]; exact exitLoop_ne_crash

end Loop

end Serie.Model.Loop
