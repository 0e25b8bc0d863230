import Serie.Tree.Orphans

/-! # New parents for the children of a dead record

If no child reports the dying process or itself, and the parents reported are in the table or can be
loaded, a turn of the loop fails only because its child cannot be refreshed. The loop ends there
(`loopEnd_spec`). So every child that can be refreshed finds its new parent, and no child is left
behind, exactly if no child but the last cannot be refreshed (`rehomes_iff`). -/

namespace Serie.Tree.Rehome

open Serie.Lib.Trace Serie.Lib.Chain Serie.Model.Record Serie.Model.Table Serie.Model.Conn
open Serie.Model.Steps Serie.Model.Loop Serie.Model.Runs Serie.Tree.Invariant Serie.Tree.Children
open Serie.Tree.Orphans

/-- What the children report from visit `k` on: a process other than the dying one and the child
itself, which is in the table, was reported by a child before, or can be loaded. -/
def Rehomable (w : ℕ → World) (k : ℕ) (s : State) (q : Pid) (l : List Ref) : Prop :=
  ∀ i c a, l[i]? = some c → reported (w (k + i)) s c = some a →
    a ≠ q ∧ a ≠ (s.heap c).pid ∧ (procLook s a ≠ none ∨ canLoad (w (k + i)) a = true ∨
      ∃ j < i, ∃ b, l[j]? = some b ∧ reported (w (k + j)) s b = some a)

/-- Every child but the last can be refreshed. -/
def Refreshed (w : ℕ → World) (k : ℕ) (s : State) (l : List Ref) : Prop :=
  ∀ i c, l[i]? = some c → i + 1 < l.length → reported (w (k + i)) s c ≠ none

/-- Every child that could be refreshed is a child of the record found for the parent that it
reported. -/
def Adopted (w : ℕ → World) (k : ℕ) (s : State) (l : List Ref) (t : State) : Prop :=
  ∀ i c a, l[i]? = some c → reported (w (k + i)) s c = some a →
    ∃ p m, procLook t a = some p ∧ (t.heap c).pare = some p ∧ Kids t p m ∧ c ∈ m

section Loop
variable {s t : State} {d c p : Ref} {q : Pid} {l : List Ref} {w : ℕ → World} {k : ℕ}

theorem procLook_loopEnd (h : InLoop d s) (hl : LoopEnd d w k s t) {a : Pid} {r : Ref}
    (hr : procLook s a = some r) : procLook t a = some r :=
  (hl.inv (I := fun u => InLoop d u ∧ procLook u a = some r)
    (fun _ _ _ _ _ ⟨hi, hu⟩ hf he => ⟨hi.turn hf he, procLook_turn hi hf he hu⟩) ⟨h, hr⟩).2

theorem pare_loopEnd (h : InLoop d s) (hl : LoopEnd d w k s t) (hc : c ∈ s.tracked) (hpd : p ≠ d)
    (hp : (s.heap c).pare = some p) : c ∈ t.tracked ∧ (t.heap c).pare = some p := by
  refine (hl.inv (I := fun u => InLoop d u ∧ c ∈ u.tracked ∧ (u.heap c).pare = some p) ?_
    ⟨h, hc, hp⟩).2
  rintro k u b x v ⟨hi, hcu, hpu⟩ hf he
  obtain ⟨hbt, hbd, -⟩ := hi.sound.firsChil hi.mem hf
  have hh := exitTurn_handed hf (hi.sound.lt_next b hbt) he
  have hcb : c ≠ b := by
    rintro rfl
    rw [hpu] at hbd
    exact hpd (Option.some.inj hbd)
  have hsub := (hi.sound.exitTurn hi.mem hf he).2
  exact ⟨hi.turn hf he, hsub hcu, by rw [(hh.other c (hi.sound.lt_next c hcu) hcb).2, hpu]⟩

/-- A turn fails only because its child cannot be refreshed. -/
theorem reported_of_turnFails (hw : Rehomable w k s q (c :: l)) (hf : turnFails c (w k) s) :
    reported (w k) s c = none := by
  rcases turnFails_iff.mp hf with hno | ⟨a, ha, hl⟩
  · exact hno
  obtain ⟨-, hself, hfind⟩ := hw 0 c a rfl ha
  rcases hl with hl | ⟨hl, hcl⟩
  · exact absurd (procLook_some hl).2.symm hself
  · rcases hfind with hfind | hfind | ⟨j, hj, -⟩
    · exact absurd hl hfind
    · rw [Nat.add_zero] at hfind
      rw [hcl] at hfind; cases hfind
    · exact absurd hj (Nat.not_lt_zero j)

theorem reported_later {x : ℤ} (h : InLoop d s) (hk : Kids s d (c :: l))
    (ht : exitTurn d c (w k) s = .ret (x, t)) {i : ℕ} {b : Ref} (hb : l[i]? = some b) :
    reported (w (k + 1 + i)) t b = reported (w (k + (i + 1))) s b := by
  have hbl : b < s.next := kids_lt h hk (List.mem_cons_of_mem c (List.mem_of_getElem? hb))
  rw [reported_turn h hk.1 ht hbl, show k + 1 + i = k + (i + 1) by omega]

theorem Rehomable.turn (h : InLoop d s) (hk : Kids s d (c :: l)) (hw : Rehomable w k s q (c :: l))
    {a : Pid} (ha : reported (w k) s c = some a) (ht : exitTurn d c (w k) s = .ret (0, t))
    (hp : procLook t a = some p) : Rehomable w (k + 1) t q l := by
  intro i b a' hb hr
  have hbl : b < s.next := kids_lt h hk (List.mem_cons_of_mem c (List.mem_of_getElem? hb))
  rw [reported_later h hk ht hb] at hr
  obtain ⟨hq, hself, hfind⟩ := hw (i + 1) b a' (by simpa using hb) hr
  refine ⟨hq, by rwa [exitTurn_pid h hk.1 ht hbl], ?_⟩
  rcases hfind with hfind | hfind | ⟨j, hj, b', hb', hr'⟩
  · obtain ⟨r, hr⟩ := Option.ne_none_iff_exists'.mp hfind
    exact Or.inl (by rw [procLook_turn h hk.1 ht hr]; simp)
  · exact Or.inr (Or.inl (by rwa [show k + 1 + i = k + (i + 1) by omega]))
  · rcases j with _ | j
    · obtain rfl : c = b' := by simpa using hb'
      obtain rfl : a = a' := by
        rw [Nat.add_zero, ha] at hr'
        exact Option.some.inj hr'
      exact Or.inl (by rw [hp]; simp)
    · have hb'l : l[j]? = some b' := by simpa using hb'
      exact Or.inr (Or.inr ⟨j, by omega, b', hb'l, (reported_later h hk ht hb'l).trans hr'⟩)

/-- If the first child cannot be refreshed, it has to be the only one. -/
theorem refreshed_iff_of_fails (hno : reported (w k) s c = none) :
    Refreshed w k s (c :: l) ↔ l = [] := by
  constructor
  · intro hall
    by_contra hl
    have hlen := List.length_pos_of_ne_nil hl
    exact hall 0 c rfl (by simpa using hlen) hno
  · rintro rfl i b hb hi
    simp at hi

theorem refreshed_turn {x : ℤ} (h : InLoop d s) (hk : Kids s d (c :: l))
    (ht : exitTurn d c (w k) s = .ret (x, t)) (ha : reported (w k) s c ≠ none) :
    Refreshed w (k + 1) t l ↔ Refreshed w k s (c :: l) := by
  constructor
  · intro hall i b hb hlen
    rcases i with _ | i
    · obtain rfl : c = b := by simpa using hb
      rwa [Nat.add_zero]
    · have hb' : l[i]? = some b := by simpa using hb
      rw [← reported_later h hk ht hb']
      exact hall i b hb' (by simpa using hlen)
  · intro hall i b hb hlen
    rw [reported_later h hk ht hb]
    exact hall (i + 1) b (by simpa using hb) (by simpa using hlen)

theorem adopted_turn {v : State} {x : ℤ} (h : InLoop d s) (hk : Kids s d (c :: l))
    (ht : exitTurn d c (w k) s = .ret (x, v))
    (hc : ∀ a, reported (w k) s c = some a →
      ∃ p m, procLook t a = some p ∧ (t.heap c).pare = some p ∧ Kids t p m ∧ c ∈ m)
    (hl : Adopted w (k + 1) v l t) : Adopted w k s (c :: l) t := by
  intro i b a hb hr
  rcases i with _ | i
  · obtain rfl : c = b := by simpa using hb
    exact hc a hr
  · have hb' : l[i]? = some b := by simpa using hb
    rw [← reported_later h hk ht hb'] at hr
    exact hl i b a hb' hr

theorem ne_dead (hq : (s.heap d).pid = q) (hw : Rehomable w k s q (c :: l)) (h : InLoop d s)
    (hf : (s.heap d).firsChil = some c) {a : Pid} (ha : reported (w k) s c = some a)
    (ht : exitTurn d c (w k) s = .ret (0, t)) (hp : procLook t a = some p) : p ≠ d := by
  rintro rfl
  have hpid : (t.heap p).pid = (s.heap p).pid :=
    exitTurn_pid h hf ht (h.sound.lt_next p h.mem)
  have haq : a = q := (procLook_some hp).2.symm.trans (hpid.trans hq)
  exact (hw 0 c a rfl ha).1 haq

theorem exitLoop_returns (h : InLoop d s) (hq : (s.heap d).pid = q) (hk : Kids s d l)
    (hw : Rehomable w k s q l) : ∃ y, exitLoop d w l.length k s = .ret y := by
  refine exitLoop_ret (I := fun k s l => InLoop d s ∧ (s.heap d).pid = q ∧ Kids s d l ∧
    Rehomable w k s q l) (fun _ _ hs => hs.2.2.1) ?_ ⟨h, hq, hk, hw⟩
  rintro k s c l ⟨h, hq, hk, hw⟩
  have hf : (s.heap d).firsChil = some c := hk.1
  refine ⟨hf, ?_⟩
  rcases exitTurn_kids (w := w k) h hk with ⟨-, v, ht, -⟩ | ⟨-, a, p, v, ha, ht, hp, -, hcase⟩
  · exact Or.inl ⟨v, ht⟩
  · have hpd : p ≠ d := ne_dead hq hw h hf ha ht hp
    have hkv : Kids v d l := (hcase.resolve_left fun hd => hpd hd.1).2
    have hqv : (v.heap d).pid = q := (exitTurn_pid h hf ht (h.sound.lt_next d h.mem)).trans hq
    exact Or.inr ⟨v, ht, h.turn hf ht, hqv, hkv, hw.turn h hk ha ht hp⟩

/-- **Where the loop ends.** No child is left exactly if every child but the last could be
refreshed, and then the children that could be refreshed have their new parents. -/
theorem loopEnd_spec : ∀ {l : List Ref} {s : State} {k : ℕ}, InLoop d s → (s.heap d).pid = q →
    Kids s d l → Rehomable w k s q l → LoopEnd d w k s t →
      (Kids t d [] ↔ Refreshed w k s l) ∧ (Refreshed w k s l → Adopted w k s l t)
  | [], s, k, _, _, hk, _, hend => by
    obtain rfl := hend.nil hk
    refine ⟨iff_of_true hk fun i c hc => ?_, fun _ i c a hc => ?_⟩ <;> simp at hc
  | c :: l, s, k, h, hq, hk, hw, hend => by
    have hf : (s.heap d).firsChil = some c := hk.1
    rcases exitTurn_kids (w := w k) h hk with ⟨hfail, v, ht, hkv⟩ | ⟨-, a, p, v, ha, ht, hp, hcp,
      hcase⟩
    · -- the loop ends with the children in `l` left
      have hno : reported (w k) s c = none := reported_of_turnFails hw hfail
      obtain rfl : v = t := by
        rcases hend.cons hf with he | ⟨s', he, -⟩ <;> rw [ht] at he <;> cases he
        rfl
      have hnil : Kids v d [] ↔ l = [] := by
        refine ⟨fun h' => IsChain.unique hkv h', ?_⟩
        rintro rfl
        exact hkv
      refine ⟨hnil.trans (refreshed_iff_of_fails hno).symm, fun hall => ?_⟩
      refine adopted_turn h hk ht (fun a ha => ?_) ?_
      · rw [hno] at ha; cases ha
      · rw [(refreshed_iff_of_fails hno).mp hall]
        intro i b a hb
        simp at hb
    · have hpd : p ≠ d := ne_dead hq hw h hf ha ht hp
      have hkv : Kids v d l := (hcase.resolve_left fun hd => hpd hd.1).2
      have hqv : (v.heap d).pid = q :=
        (exitTurn_pid h hf ht (h.sound.lt_next d h.mem)).trans hq
      have hi : InLoop d v := h.turn hf ht
      have hv : LoopEnd d w (k + 1) v t := by
        rcases hend.cons hf with he | ⟨s', he, hs'⟩ <;> rw [ht] at he <;> cases he
        exact hs'
      obtain ⟨hiff, hado⟩ := loopEnd_spec hi hqv hkv (hw.turn h hk ha ht hp) hv
      have hshift := refreshed_turn h hk ht (by rw [ha]; simp)
      refine ⟨hiff.trans hshift, fun hall => adopted_turn h hk ht (fun a' ha' => ?_)
        (hado (hshift.mpr hall))⟩
      rw [ha] at ha'; cases ha'
      -- the record found for the reported parent, and the child under it, stay to the end
      have hcv : c ∈ v.tracked :=
        (h.sound.exitTurn h.mem hf ht).2 (h.sound.firsChil h.mem hf).1
      obtain ⟨hct, hpt⟩ := pare_loopEnd hi hv hcv hpd hcp
      have hlt := procLook_loopEnd hi hv hp
      obtain ⟨m, hm, -, hmem⟩ := exists_kids (hi.loopEnd hv).sound (procLook_some hlt).1
      exact ⟨p, m, hlt, hpt, hm, (hmem c).mpr ⟨hct, hpt⟩⟩

end Loop

/-! ### The call -/

section Call
variable {s t : State} {d p : Ref} {q : Pid} {code ts : ℕ} {l : List Ref} {w : ℕ → World}

theorem rehomable_detached (ht : Detached s d p code ts t) (h : Rehomable w 0 s q l) :
    Rehomable w 0 t q l := by
  intro i c a hc hr
  rw [reported_detached ht] at hr
  obtain ⟨hq, hself, hfind⟩ := h i c a hc hr
  refine ⟨hq, ?_, ?_⟩
  · rwa [ht.relinked.pid, Sound.markDead_pid]
  · rw [procLook_detached ht]
    refine hfind.imp_right (Or.imp_right ?_)
    rintro ⟨j, hj, b, hb, hr'⟩
    exact ⟨j, hj, b, hb, (reported_detached ht b).trans hr'⟩

/-- The exit returns, and then the dead record has no children and the children that could be
refreshed have their new parents. Whether the refreshes make a wrong access, which is noted in
`strs.faults` and leaves the links as they are, is not part of it (`Serie.Tree.Handover`). -/
def Rehomes (s : State) (q : Pid) (code ts : ℕ) (w : ℕ → World) (d : Ref) (l : List Ref) : Prop :=
  (∃ fuel y, evenExit fuel q code ts w s = .ret y) ∧
    ∀ fuel x t, evenExit fuel q code ts w s = .ret (x, t) → Kids t d [] ∧ Adopted w 0 s l t

/-- **The children of a dead record are all taken care of exactly if every child but the last can be
refreshed.** -/
theorem rehomes_iff {tr : List (Input × State)} (hr : Steps Step init tr) (q : Pid) (code ts : ℕ)
    (hl : procLook (final init tr) q = some d) (hp : ((final init tr).heap d).pare ≠ none)
    (hk : Kids (final init tr) d l) (hw : Rehomable w 0 (final init tr) q l) :
    Rehomes (final init tr) q code ts w d l ↔ Refreshed w 0 (final init tr) l := by
  have h := sound_final hr
  have hd := (procLook_some hl).1
  obtain ⟨p, hp⟩ := Option.ne_none_iff_exists'.mp hp
  obtain ⟨t₀, ht⟩ := h.detached hd hp code ts
  have hi : InLoop d t₀ := ht.inLoop hd
  have hq : (t₀.heap d).pid = q := by
    rw [ht.relinked.pid, Sound.markDead_pid]; exact (procLook_some hl).2
  have hkt : Kids t₀ d l := kids_detached h hd hp ht hk
  have hwt : Rehomable w 0 t₀ q l := rehomable_detached ht hw
  have hrun : ∀ fuel, evenExit fuel q code ts w (final init tr) = exitLoop d w fuel 0 t₀ := by
    intro fuel
    simp only [evenExit, hl, Sound.markDead_pare, hp, ht.run]
    rfl
  -- what the loop says of the state before it holds of the state before the call
  have hspec : ∀ t, LoopEnd d w 0 t₀ t → (Kids t d [] ↔ Refreshed w 0 (final init tr) l) ∧
      (Refreshed w 0 (final init tr) l → Adopted w 0 (final init tr) l t) := by
    intro t hend
    have hs := loopEnd_spec hi hq hkt hwt hend
    simpa only [Refreshed, Adopted, reported_detached ht] using hs
  obtain ⟨y, hy⟩ := exitLoop_returns hi hq hkt hwt
  constructor
  · rintro ⟨-, hall⟩
    obtain ⟨hnil, -⟩ := hall l.length y.1 y.2 ((hrun _).trans hy)
    exact (hspec y.2 (loopEnd_of_exitLoop hy)).1.mp hnil
  · intro hok
    refine ⟨⟨l.length, y, (hrun _).trans hy⟩, fun fuel x t he => ?_⟩
    obtain ⟨hnil, hado⟩ := hspec t (loopEnd_of_exitLoop ((hrun fuel).symm.trans he))
    exact ⟨hnil.mpr hok, hado hok⟩

end Call

/-- The exit of process `2`, whose child is taken over by process `1`. -/
theorem rehomes_iff_adopted :
    let s := final init ((trace 2 init adopted).take 2)
    let w := answers [(3, ['1'])]
    (procLook s 2 = some 1 ∧ (s.heap 1).pare ≠ none ∧ Kids s 1 [2] ∧ Rehomable w 0 s 2 [2]) ∧
      (Rehomes s 2 0 3 w 1 [2] ↔ Refreshed w 0 s [2]) := by
  intro s w
  have hr : Steps Step init ((trace 2 init adopted).take 2) := adopted_steps.take 2
  have hl : procLook s 2 = some 1 := by decide
  have hp : (s.heap 1).pare ≠ none := by decide
  have hlast : (s.heap 2).nextSibl = none := by decide
  have hk : Kids s 1 [2] := ⟨by decide, hlast⟩
  have hw : Rehomable w 0 s 2 [2] := by
    rintro (_ | i) c a hc ha
    · obtain rfl : 2 = c := by simpa using hc
      have h1 : reported (w (0 + 0)) s 2 = some 1 := by decide
      obtain rfl : 1 = a := by
        rw [h1] at ha
        exact Option.some.inj ha
      exact ⟨by decide, by decide, Or.inl (by decide)⟩
    · simp at hc
  exact ⟨⟨hl, hp, hk, hw⟩, rehomes_iff hr 2 0 3 hl hp hk hw⟩

/-- A process with two children exits; the child at the head of the list has exited, too. -/
def headExited : List Input := [
  input 1 (.fork 1 2) [(1, ['0']), (2, ['1'])],
  input 2 (.fork 2 3) [(3, ['2'])],
  input 3 (.fork 2 4) [(4, ['2'])],
  input 4 (.exit 2 0) [(3, ['1'])]]

/-- The other child stays with the dead record. -/
theorem not_rehomes_headExited :
    let s := final init ((trace 1 init headExited).take 3)
    let w := answers [(3, ['1'])]
    Steps Step init ((trace 1 init headExited).take 3) ∧ procLook s 2 = some 1 ∧
      (s.heap 1).pare ≠ none ∧ Kids s 1 [3, 2] ∧ Rehomable w 0 s 2 [3, 2] ∧
      ¬ Rehomes s 2 0 4000000000 w 1 [3, 2] := by
  intro s w
  have hr : Steps Step init (trace 1 init headExited) := steps_trace (by decide)
  have hlast : (s.heap 2).nextSibl = none := by decide
  have hk : Kids s 1 [3, 2] := ⟨by decide, by decide, hlast⟩
  refine ⟨hr.take 3, by decide, by decide, hk, ?_, ?_⟩
  · rintro (_ | _ | i) c a hc ha
    · obtain rfl : 3 = c := by simpa using hc
      have h1 : reported (w (0 + 0)) s 3 = none := by decide
      rw [h1] at ha; cases ha
    · obtain rfl : 2 = c := by simpa using hc
      have h1 : reported (w (0 + 1)) s 2 = some 1 := by decide
      obtain rfl : 1 = a := by
        rw [h1] at ha
        exact Option.some.inj ha
      exact ⟨by decide, by decide, Or.inl (by decide)⟩
    · simp at hc
  · rintro ⟨-, hall⟩
    obtain ⟨fuel, x, he⟩ := handle_of_step hr.2.2.2.1
    have hleft : ((final init (trace 1 init headExited)).heap 1).firsChil = some 2 := by decide
    have hnil := (hall fuel x _ he).1
    have hnone : ((final init (trace 1 init headExited)).heap 1).firsChil = none := hnil
    rw [hleft] at hnone
    cases hnone

end Serie.Tree.Rehome
