import Serie.Lib.Ancestry
import Serie.Model.Runs
import Serie.Tree.Rule

/-! # Cycles

Following `pare` from every record of the table ends, and so does the recursive print of the tree,
exactly as long as no turn of the loop of `even_exit` attaches a child to a record below it
(`acyclic_iff_ok`). `atta_chil` refuses only the child itself. A cycle, once closed, stays: what
hangs on the dead record is not on it. -/

namespace Serie.Tree.Cycle

open Serie.Lib.Trace Serie.Lib.Chain Serie.Lib.Ancestry Serie.Lib.Intrusive Serie.Model.Record
open Serie.Model.Prfs Serie.Model.Refresh Serie.Model.Table Serie.Model.Conn Serie.Model.Steps
open Serie.Model.Loop Serie.Model.Runs Serie.Tree.Invariant Serie.Tree.Rule

/-- The parents. -/
def pares (s : State) (r : Ref) : Option Ref := (s.heap r).pare

/-- Following `pare` from any record ends. -/
def Acyclic (s : State) : Prop := ∀ r ∈ s.tracked, Ends (pares s) (some r)

/-- A turn of the loop does not find a record that the child is above, other than the child. -/
def TurnOk (d : Ref) (w : World) (s : State) : Prop :=
  ∀ c g p, (s.heap d).firsChil = some c → readable (w.files (s.heap c).pid) = true →
    statRead (w.files (s.heap c).pid) = some g → procLook s g.ppid = some p → p ≠ c →
      ¬ Above (pares s) c p

/-- The condition on an event: every turn of the loop of an exit is in order. -/
def Ok (s : State) (i : Input) : Prop :=
  match i.even.data with
  | .exit q code => ∀ d p t, procLook s q = some d → (s.heap d).pare = some p →
      detaChil (some p) (some d) (s.upd d (markDead code i.even.timestampNs)) = .ret (0, t) →
        ∀ k s', LoopAt d i.world 0 t k s' → TurnOk d (i.world k) s'
  | _ => True

/-! ### The recursive print -/

mutual

/-- `proc_tree_prin`: the pids in the order in which they are printed, with their depths. -/
def procTreePrin (s : State) (fuel : ℕ) (root : Option Ref) (depth : ℕ) : Option (List (ℕ × Pid)) :=
  match root, fuel with
  | none, _ => some []
  | some _, 0 => none
  | some r, fuel + 1 =>
    (procTreeChil s fuel (s.heap r).firsChil (depth + 1)).map fun l => (depth, (s.heap r).pid) :: l

/-- The loop of `proc_tree_prin` over the children. -/
def procTreeChil (s : State) (fuel : ℕ) (child : Option Ref) (depth : ℕ) :
    Option (List (ℕ × Pid)) :=
  match child, fuel with
  | none, _ => some []
  | some _, 0 => none
  | some c, fuel + 1 =>
    (procTreePrin s fuel (some c) depth).bind fun l =>
      (procTreeChil s fuel (s.heap c).nextSibl depth).map fun l' => l ++ l'

end

section Print
variable {s : State}

theorem procTree_mono (s : State) : ∀ (fuel : ℕ) (root : Option Ref) (depth : ℕ),
    ((procTreePrin s fuel root depth).isSome = true →
      (procTreePrin s (fuel + 1) root depth).isSome = true) ∧
    ((procTreeChil s fuel root depth).isSome = true →
      (procTreeChil s (fuel + 1) root depth).isSome = true)
  | _, none, _ => by simp [procTreePrin, procTreeChil]
  | 0, some r, depth => by simp [procTreePrin, procTreeChil]
  | fuel + 1, some r, depth => by
    have hc := (procTree_mono s fuel (s.heap r).firsChil (depth + 1)).2
    have hp := (procTree_mono s fuel (some r) depth).1
    have hn := (procTree_mono s fuel (s.heap r).nextSibl depth).2
    constructor
    · intro h
      rw [procTreePrin, Option.isSome_map] at h ⊢
      exact hc h
    · intro h
      rw [procTreeChil] at h ⊢
      obtain ⟨l, hl⟩ := Option.isSome_iff_exists.mp h
      obtain ⟨a, ha, hl⟩ := Option.bind_eq_some_iff.mp hl
      obtain ⟨b, hb, -⟩ := Option.map_eq_some_iff.mp hl
      obtain ⟨a', ha'⟩ := Option.isSome_iff_exists.mp (hp (by rw [ha]; rfl))
      obtain ⟨b', hb'⟩ := Option.isSome_iff_exists.mp (hn (by rw [hb]; rfl))
      rw [ha', Option.bind_some, hb']
      rfl

theorem procTree_mono_le {fuel fuel' : ℕ} (hle : fuel ≤ fuel') {root : Option Ref} {depth : ℕ} :
    ((procTreePrin s fuel root depth).isSome = true →
      (procTreePrin s fuel' root depth).isSome = true) ∧
    ((procTreeChil s fuel root depth).isSome = true →
      (procTreeChil s fuel' root depth).isSome = true) := by
  induction hle with
  | refl => exact ⟨id, id⟩
  | step _ ih =>
    exact ⟨fun h => (procTree_mono s _ root depth).1 (ih.1 h),
      fun h => (procTree_mono s _ root depth).2 (ih.2 h)⟩

theorem procTreeChil_ends : ∀ {l : List Ref} {a : Option Ref} (depth : ℕ),
    IsChain (fun r => (s.heap r).nextSibl) a l →
    (∀ c ∈ l, ∃ fuel, (procTreePrin s fuel (some c) depth).isSome = true) →
      ∃ fuel, (procTreeChil s fuel a depth).isSome = true
  | [], _, _, h, _ => ⟨0, by rw [isChain_nil.mp h, procTreeChil]; rfl⟩
  | c :: l, a, depth, ⟨ha, h⟩, hl => by
    obtain ⟨m, hm⟩ := hl c (by simp)
    obtain ⟨n, hn⟩ := procTreeChil_ends depth h fun c hc => hl c (List.mem_cons_of_mem _ hc)
    refine ⟨max m n + 1, ?_⟩
    obtain ⟨x, hx⟩ := Option.isSome_iff_exists.mp
      ((procTree_mono_le (le_max_left m n)).1 hm)
    obtain ⟨y, hy⟩ := Option.isSome_iff_exists.mp
      ((procTree_mono_le (le_max_right m n)).2 hn)
    rw [ha, procTreeChil, hx, Option.bind_some, hy]
    rfl

theorem isChain_child {r c : Ref} {l : List Ref} (hc : (s.heap c).pare = some r)
    (hl : IsChain (pares s) (some r) l) :
    IsChain (pares s) (some c) (c :: l) := by
  refine ⟨rfl, ?_⟩
  rw [show pares s c = some r from hc]
  exact hl

/-- **Without cycles the print ends.** The line of a child is one longer than that of its parent,
and no line is longer than the number of records allocated. -/
theorem procTreePrin_ends (h : Sound s) (hac : Acyclic s) {r : Ref} (hr : r ∈ s.tracked)
    (depth : ℕ) : ∃ fuel, (procTreePrin s fuel (some r) depth).isSome = true := by
  obtain ⟨kids, hk⟩ := h.forest
  have hlen : ∀ (c : Ref) (l : List Ref), c ∈ s.tracked →
      IsChain (pares s) (some c) l → l.length ≤ s.next := fun c l hc hl =>
    Links.length_le_next hl.nodup fun x hx => h.lt_next x
      (mem_of_isChain hk.up_mem (fun y hy => by cases hy; exact hc) hl x hx)
  obtain ⟨b, hb⟩ : ∃ b : ℕ, b = s.next := ⟨_, rfl⟩
  rw [← hb] at hlen
  have key : ∀ (n : ℕ) (r : Ref) (l : List Ref) (depth : ℕ), r ∈ s.tracked →
      IsChain (pares s) (some r) l → b - l.length ≤ n →
        ∃ fuel, (procTreePrin s fuel (some r) depth).isSome = true := by
    intro n
    induction n with
    | zero =>
      intro r l depth hr hl hn
      -- the line is as long as it can be, so there are no children
      suffices hf : (s.heap r).firsChil = none from ⟨1, by rw [procTreePrin, hf, procTreeChil]; rfl⟩
      by_contra hf
      obtain ⟨c, hc⟩ := Option.ne_none_iff_exists'.mp hf
      obtain ⟨hct, hcp, -⟩ := h.firsChil hr hc
      have := hlen c (c :: l) hct (isChain_child hcp hl)
      rw [List.length_cons] at this
      omega
    | succ n ih =>
      intro r l depth hr hl hn
      obtain ⟨m, hm⟩ := procTreeChil_ends (depth + 1) (hk.chain r hr) fun c hc => by
        have hcp : (s.heap c).pare = some r := hk.up_of_mem hr hc
        refine ih c (c :: l) (depth + 1) (hk.kids_mem r hr c hc) (isChain_child hcp hl) ?_
        rw [List.length_cons]
        omega
      exact ⟨m + 1, by rw [procTreePrin, Option.isSome_map]; exact hm⟩
  obtain ⟨l, hl⟩ := hac r hr
  exact key _ r l depth hr hl le_rfl

end Print

/-! ### What closes no cycle -/

section Keep
variable {s t : State} {d c p : Ref}

theorem Acyclic.of_pares (ha : Acyclic s) (h : Sound s)
    (hold : ∀ r ∈ s.tracked, pares t r = none ∨ pares t r = pares s r)
    (hnew : ∀ r ∈ t.tracked, r ∈ s.tracked ∨ pares t r = none) : Acyclic t := by
  intro r hr
  rcases hnew r hr with hr | hr
  · refine Ends.transfer (L := s.tracked) (fun x hx => ?_) hr (ha r hr)
    rcases hold x hx with hx' | hx'
    · exact Or.inl (Ends.of_root hx')
    · exact Or.inr ⟨hx', fun y hy => h.pare_mem hx hy⟩
  · exact Ends.of_root hr

theorem Acyclic.quiet (ha : Acyclic s) (h : Sound s) (hq : Quiet s t) : Acyclic t :=
  ha.of_pares h (fun r hr => Or.inr (by rw [pares, hq.heap r (h.lt_next r hr)]; rfl))
    fun r hr => Or.inl (by rw [← hq.tracked]; exact hr)

theorem Acyclic.adds (ha : Acyclic s) (h : Sound s) {x : Proc} (hx : Adds s x t)
    (hp : x.pare = none) : Acyclic t := by
  refine ha.of_pares h (fun r hr => Or.inr ?_) fun r hr => ?_
  · rw [pares, hx.heap, Function.update_of_ne (h.lt_next r hr).ne]; rfl
  · rw [hx.tracked] at hr
    rcases hr with rfl | hr
    · exact Or.inr (by rw [pares, hx.heap, Function.update_self, hp])
    · exact Or.inl hr

theorem acyclic_grows : Grows Acyclic where
  quiet h hq ha := ha.quiet h hq
  adds h hx hp ha := ha.adds h hx hp

theorem pares_attaChil (hne : p ≠ c) (r : Ref) :
    pares (attaChil (some p) (some c) s).2 r = if r = c then some p else pares s r :=
  attaChil_pare hne r

/-- **A record goes under one it is not above.** -/
theorem Acyclic.attach (ha : Acyclic s) (h : Sound s) (hp : p ∈ s.tracked) (hne : p ≠ c)
    (hn : ¬ Above (pares s) c p) : Acyclic (attaChil (some p) (some c) s).2 := by
  have hc : Ends (pares (attaChil (some p) (some c) s).2) (some c) :=
    (ha p hp).attach hn (by rw [pares_attaChil hne, if_pos rfl])
      (fun x hx => by rw [pares_attaChil hne, if_neg hx])
  intro r hr
  rw [(attaChil_relinked _ _).tracked] at hr
  refine Ends.transfer (L := s.tracked) (fun x hx => ?_) hr (ha r hr)
  by_cases hxc : x = c
  · rw [hxc]; exact Or.inl hc
  · exact Or.inr ⟨by rw [pares_attaChil hne, if_neg hxc], fun y hy => h.pare_mem hx hy⟩

theorem pares_orphaned {w : World} (r : Ref) :
    pares (orphaned d c w s).2 r = if r = c then none else pares s r := orphaned_pare r

theorem above_orphaned {w : World} :
    Above (pares (orphaned d c w s).2) c p ↔ Above (pares s) c p := by
  constructor <;> exact Above.congr fun x hx => by rw [pares_orphaned, if_neg hx]

theorem Acyclic.turn (ha : Acyclic s) (h : InLoop d s) {w : World} {x : ℤ}
    (hf : (s.heap d).firsChil = some c) (hok : TurnOk d w s)
    (he : exitTurn d c w s = .ret (x, t)) : Acyclic t := by
  have hus := (h.sound.orphan h.mem hf w).1
  have hu : Acyclic (orphaned d c w s).2 := by
    refine ha.of_pares h.sound (fun r _ => ?_) fun r hr => Or.inl (by rwa [orphaned_tracked] at hr)
    rw [pares_orphaned]
    split_ifs
    · exact Or.inl rfl
    · exact Or.inr rfl
  refine acyclic_grows.turn h hf hu (fun g p v hr hg hpc hfd hvs hv => ?_) he
  refine hv.attach hvs (hus.found hfd).2.1 hpc ?_
  cases hfd with
  | old hl =>
    rw [procLook_orphaned] at hl
    rw [above_orphaned]
    exact hok c g p hf hr hg hl hpc
  | new _ _ hx hadd =>
    -- a new record has no ancestors
    have hroot : pares v (orphaned d c w s).2.next = none := by
      rw [pares, hadd.heap, Function.update_self]; exact hx.pare
    exact fun hab => hpc (hab.eq_of_root hroot)

theorem Acyclic.loopEnd {w : ℕ → World} (ha : Acyclic s) (h : InLoop d s)
    (hok : ∀ k s', LoopAt d w 0 s k s' → TurnOk d (w k) s') (hl : LoopEnd d w 0 s t) :
    Acyclic t :=
  inv_of_loopEnd (fun _ _ _ _ _ hi hv hf hok he => Acyclic.turn hv hi hf hok he) h ha hok hl

theorem Acyclic.fork (ha : Acyclic s) (h : Sound s) {q c : Pid} {ts : ℕ} {w : ℕ → World} {x : ℤ}
    (he : evenFork q c ts w s = .ret (x, t)) : Acyclic t := by
  refine acyclic_grows.fork h ha (fun p s₁ y s₂ hfd _ h₁ hs₁ hy hadd hs₂ => ?_) he
  have hp := (h.found hfd).2.1
  have h₂ := h₁.adds hadd hy.pare hy.firsChil hy.nextSibl
  refine hs₂.attach h₂ (by rw [hadd.tracked]; exact Or.inr hp) (h₁.lt_next p hp).ne fun hab => ?_
  obtain ⟨l, hl⟩ := hs₁ p hp
  have hmem := mem_of_isChain (fun x hx y hy => h₁.pare_mem hx hy)
    (fun y hy => by cases hy; exact hp) hl
  have hl₂ : IsChain (pares s₂) (some p) l := hl.congr fun x hx => by
    rw [pares, hadd.heap, Function.update_of_ne (h₁.lt_next x (hmem x hx)).ne]; rfl
  exact (h₁.lt_next _ (hmem _ (hab.mem hl₂))).false

end Keep

/-! ### A closed cycle stays -/

section Stay
variable {s t : State} {d c a : Ref}

/-- The line of a child of `d` ends: `d` has no parent. -/
theorem ends_child (h : InLoop d s) (hf : (s.heap d).firsChil = some c) :
    Ends (pares s) (some c) :=
  Ends.of_step (h.sound.firsChil h.mem hf).2.1
    (Ends.of_root (h.sound.root_of_dead d h.mem h.dead))

theorem not_ends_turn (h : InLoop d s) (ha : a ∈ s.tracked) (hn : ¬ Ends (pares s) (some a))
    {w : World} {x : ℤ} (hf : (s.heap d).firsChil = some c)
    (he : exitTurn d c w s = .ret (x, t)) : ¬ Ends (pares t) (some a) := by
  have hct := (h.sound.firsChil h.mem hf).1
  have hh := exitTurn_handed hf (h.sound.lt_next c hct) he
  refine fun hend => hn (Ends.transfer (L := s.tracked) (fun y hy => ?_) ha hend)
  by_cases hyc : y = c
  · rw [hyc]; exact Or.inl (ends_child h hf)
  · have hp : pares t y = pares s y := (hh.other y (h.sound.lt_next y hy) hyc).2
    exact Or.inr ⟨hp.symm, fun z hz => h.sound.pare_mem hy (hp.symm.trans hz)⟩

theorem not_acyclic_loopEnd (h : InLoop d s) (ha : a ∈ s.tracked)
    (hn : ¬ Ends (pares s) (some a)) {w : ℕ → World} {k : ℕ} (hl : LoopEnd d w k s t) :
    ¬ Acyclic t := by
  obtain ⟨-, hat, hnt⟩ := hl.inv
    (I := fun u => InLoop d u ∧ a ∈ u.tracked ∧ ¬ Ends (pares u) (some a))
    (fun _ _ _ _ _ ⟨hi, hau, hnu⟩ hf he => ⟨hi.turn hf he,
      (hi.sound.exitTurn hi.mem hf he).2 hau, not_ends_turn hi hau hnu hf he⟩) ⟨h, ha, hn⟩
  exact fun hac => hnt (hac a hat)

/-- **A turn that is not in order** closes a cycle. -/
theorem not_acyclic_of_turn (h : InLoop d s) {w : ℕ → World} {k : ℕ} (hok : ¬ TurnOk d (w k) s)
    (hl : LoopEnd d w k s t) : ¬ Acyclic t := by
  simp only [TurnOk, not_forall, not_not] at hok
  obtain ⟨c, g, p, hf, hr, hg, hp, hpc, hab⟩ := hok
  have hct := (h.sound.firsChil h.mem hf).1
  have hturn := exitTurn_of_procLook hf (h.sound.lt_next c hct) hr hg hp hpc
  have hn : ¬ Ends (pares (attaChil (some p) (some c) (orphaned d c (w k) s).2).2) (some c) :=
    not_ends_attach (above_orphaned.mpr hab) (by rw [pares_attaChil hpc, if_pos rfl])
      (fun x hx => by rw [pares_attaChil hpc, if_neg hx])
  rcases hl.cons hf with he | ⟨s', he, hl'⟩ <;> rw [hturn] at he <;> cases he
  exact not_acyclic_loopEnd (h.turn hf hturn) ((h.sound.exitTurn h.mem hf hturn).2 hct) hn hl'

end Stay

/-! ### Runs -/

section Step
variable {s t : State} {i : Input}

theorem Acyclic.step (ha : Acyclic s) (h : Sound s) (hok : Ok s i) (hst : Step s i t) :
    Acyclic t := by
  obtain ⟨fuel, x, he⟩ := handle_of_step hst
  obtain ⟨⟨ts, data⟩, w⟩ := i
  cases data with
  | fork q c => exact ha.fork h he
  | exec q g =>
    rcases handle_exec he with ⟨-, rfl⟩ | ⟨r, -, rfl⟩
    · exact ha
    · exact ha.of_pares h (fun r _ => Or.inr (lookRec_field Proc.pare prfsLook_pare r))
        fun r hr => Or.inl hr
  | exit q code =>
    rcases h.evenExit_inv he with ⟨-, rfl⟩ | ⟨d, hl, hd, ⟨-, rfl⟩ | ⟨p, t₀, hp, ht, hend⟩⟩
    · exact ha
    · exact ha.of_pares h (fun r _ => Or.inr (Sound.markDead_pare d code ts r))
        fun r hr => Or.inl hr
    · refine Acyclic.loopEnd ?_ (ht.inLoop hd) (hok d p t₀ hl hp ht.run) hend
      refine ha.of_pares h (fun r _ => ?_) fun r hr => Or.inl (by rwa [ht.tracked] at hr)
      rw [pares, ht.pare]
      split_ifs
      · exact Or.inl rfl
      · exact Or.inr rfl
  | comm | uid | gid | other =>
    have hr := handle_renamed he rfl
    exact ha.of_pares h (fun r _ => Or.inr (hr.pare r)) fun r hrt => Or.inl (hr.tracked ▸ hrt)

theorem not_acyclic_step (h : Sound s) (hok : ¬ Ok s i) (hst : Step s i t) : ¬ Acyclic t := by
  obtain ⟨fuel, x, he⟩ := handle_of_step hst
  obtain ⟨⟨ts, data⟩, w⟩ := i
  cases data with
  | exit q code =>
    simp only [Ok, not_forall] at hok
    obtain ⟨d, p, t₀, hl, hp, hrun, k, s', hat, hturn⟩ := hok
    rcases h.evenExit_inv he with ⟨hl', -⟩ | ⟨d', hl', hd, ⟨hp', -⟩ | ⟨p', t₁, hp', ht, hend⟩⟩ <;>
      rw [hl] at hl' <;> cases hl' <;> rw [hp] at hp' <;> cases hp'
    have hrun' := ht.run
    rw [hrun] at hrun'; cases hrun'
    exact not_acyclic_of_turn ((ht.inLoop hd).loopAt hat) hturn (hend.of_loopAt hat)
  | fork | exec | comm | uid | gid | other => exact absurd trivial hok

end Step

/-- **The tree is acyclic and its print ends after every event of a run exactly when every turn of
the run is in order.** -/
theorem acyclic_iff_ok {tr : List (Input × State)} (hr : Steps Step init tr) :
    (∀ x ∈ tr, Acyclic x.2 ∧ ∀ r ∈ x.2.tracked, ∀ depth,
      ∃ fuel, (procTreePrin x.2 fuel (some r) depth).isSome = true) ↔
      Steps (fun s i _ => Ok s i) init tr := by
  refine Steps.forall_mem_iff (J := fun s => Sound s ∧ Acyclic s) (G := Ok)
    (P := fun s => Acyclic s ∧ ∀ r ∈ s.tracked, ∀ depth,
      ∃ fuel, (procTreePrin s fuel (some r) depth).isSome = true)
    (fun s hs => ⟨hs.2, fun r hr depth => procTreePrin_ends hs.1 hs.2 hr depth⟩)
    (fun s i t hs hst hok => ⟨hs.1.step hst, hs.2.step hs.1 hok hst⟩)
    (fun s i t hs hst hok hP => not_acyclic_step hs.1 hok hst hP.1) ⟨sound_init, ?_⟩ hr
  exact fun r ht => absurd ht (notMem_init r)

theorem acyclic_iff_ok_adopted : (∀ x ∈ trace 2 init adopted, Acyclic x.2 ∧
    ∀ r ∈ x.2.tracked, ∀ depth,
      ∃ fuel, (procTreePrin x.2 fuel (some r) depth).isSome = true) ↔
    Steps (fun s i _ => Ok s i) init (trace 2 init adopted) :=
  acyclic_iff_ok adopted_steps

/-- A line of three processes; the first exits, and its child reports its own child as its parent.
-/
def childAdopts : List Input := [
  input 1 (.fork 5 1) [(5, ['0']), (1, ['5'])],
  input 2 (.fork 1 2) [(2, ['1'])],
  input 3 (.fork 2 3) [(3, ['2'])],
  input 4 (.exit 1 0) [(2, ['3'])]]

/-- The two are each other's parents. -/
theorem not_acyclic_childAdopts : Steps Step init (trace 1 init childAdopts) ∧
    ¬ ∀ x ∈ trace 1 init childAdopts, Acyclic x.2 := by
  refine ⟨steps_trace (by decide), fun hi => ?_⟩
  have hac := forall_final (P := Acyclic) (s := init) hi (by simp [childAdopts, trace]) 2
  have h2 : pares (final init (trace 1 init childAdopts)) 2 = some 3 := by decide
  have h3 : pares (final init (trace 1 init childAdopts)) 3 = some 2 := by decide
  obtain ⟨l, hl⟩ := hac ⟨2, by decide⟩
  obtain ⟨m, rfl, hm⟩ := isChain_some.mp hl
  rw [h2] at hm
  obtain ⟨n, rfl, hn⟩ := isChain_some.mp hm
  rw [h3] at hn
  have := congrArg List.length (hn.unique hl)
  simp only [List.length_cons] at this
  omega

end Serie.Tree.Cycle
