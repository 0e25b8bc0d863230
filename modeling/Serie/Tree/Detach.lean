import Serie.Model.Runs
import Serie.Tree.Invariant

/-! # `deta_chil` as a membership test

On a record of a forest and a record that may be its child, `deta_chil` is asked to erase the child
from the list, or else to return `-1` and to change nothing (`Decides`). The scan for the left
neighbour starts with a read through `firs_chil` of the parent, so the answer is right exactly for
the parents that have a child (`decides_iff`): on an empty list the read is through `NULL`. -/

namespace Serie.Tree.Detach

open Serie.Lib.Trace Serie.Lib.Chain Serie.Lib.Intrusive Serie.Model.Record Serie.Model.Table
open Serie.Model.Conn Serie.Model.Steps Serie.Model.Runs Serie.Tree.Links Serie.Tree.Invariant

variable {s t : State} {L : Set Ref} {kids : Ref → List Ref} {p c : Ref}

/-- From `s` to `t` the child `c` of `p` was taken off the list of `p`, and nothing else changed. -/
structure Removed (L : Set Ref) (kids : Ref → List Ref) (p c : Ref) (s t : State) : Prop where
  forest : Forest t.links L (Function.update kids p ((kids p).erase c))
  pare : (t.heap c).pare = none
  nextSibl : (t.heap c).nextSibl = none
  pare_other : ∀ r, r ≠ c → (t.heap r).pare = (s.heap r).pare
  relinked : Relinked s t

/-- `deta_chil` erases `c` from the children of `p` if it is one of them; otherwise it returns `-1`
and changes nothing. -/
def Decides (L : Set Ref) (kids : Ref → List Ref) (p c : Ref) (s : State) : Prop :=
  (c ∈ kids p → ∃ t, detaChil (some p) (some c) s = .ret (0, t) ∧ Removed L kids p c s t) ∧
    (c ∉ kids p → detaChil (some p) (some c) s = .ret (-1, s))

theorem detaScan_of_notMem : ∀ {l : List Ref} {n : ℕ} {b : Ref},
    IsChain s.links.next (s.links.next b) l → l.length < n → c ∉ l →
      detaScan s c n (some b) = .ret none
  | [], n + 1, b, h, _, _ => by
    have hnx : (s.heap b).nextSibl = none := h
    simp [detaScan, hnx]
  | x :: l, n + 1, b, h, hl, hc => by
    have hnx : (s.heap b).nextSibl = some x := h.1
    rw [List.mem_cons, not_or] at hc
    have ih := detaScan_of_notMem h.2 (by simpa using hl) hc.2
    simp [detaScan, hnx, Ne.symm hc.1, ih]

/-- A record that is no child of `p` is looked for on the whole list of `p`. -/
theorem detaChil_of_notMem (h : Forest s.links L kids) (hlt : ∀ r ∈ L, r < s.next) (hp : p ∈ L)
    (hc : c ∉ kids p) (hf : (s.heap p).firsChil ≠ none) :
    detaChil (some p) (some c) s = .ret (-1, s) := by
  obtain ⟨b, hb⟩ := Option.ne_none_iff_exists'.mp hf
  obtain ⟨l, hl, hch⟩ := h.kids_eq_cons hp hb
  have hnd := h.nodup hp
  have hmem := h.kids_mem p hp
  rw [hl] at hc hnd hmem
  rw [List.mem_cons, not_or] at hc
  have hlen : l.length < s.next := by
    have := length_le_next (s := s) hnd fun r hr => hlt r (hmem r hr)
    rwa [List.length_cons] at this
  have hne : (s.heap p).firsChil ≠ some c := by
    rw [hb]
    rintro ⟨⟩
    exact hc.1 rfl
  rw [detaChil_scan hne, hb, detaScan_of_notMem hch hlen hc.2]
  rfl

/-- Without a child, `firs_chil` is read through although it is `NULL`. -/
theorem detaChil_of_firsChil_none (hf : (s.heap p).firsChil = none) :
    detaChil (some p) (some c) s = .crash := by
  rw [detaChil_scan (by rw [hf]; simp), hf]
  unfold detaScan
  rfl

theorem removed_of_mem (h : Forest s.links L kids) (hlt : ∀ r ∈ L, r < s.next) (hp : p ∈ L)
    (hc : c ∈ kids p) :
    ∃ t, detaChil (some p) (some c) s = .ret (0, t) ∧ Removed L kids p c s t := by
  obtain ⟨t, ht, hup, hfo⟩ := detaChil_of_mem h hlt hp hc
  have hpare : ∀ r, (t.heap r).pare = Function.update s.links.up c none r := congrFun hup
  have hroot : (t.heap c).pare = none := by rw [hpare, Function.update_self]
  refine ⟨t, ht, hfo, hroot, ?_, fun r hr => ?_, detaChil_relinked ht⟩
  · exact hfo.root c (h.kids_mem p hp c hc) hroot
  · rw [hpare, Function.update_of_ne hr]
    rfl

theorem not_decides_of_nil (h : Forest s.links L kids) (hp : p ∈ L)
    (hf : (s.heap p).firsChil = none) : ¬ Decides L kids p c s := by
  intro hd
  have hc : c ∉ kids p := by
    rw [(h.kids_eq_nil hp).mpr hf]
    exact List.not_mem_nil
  have hret := hd.2 hc
  rw [detaChil_of_firsChil_none hf] at hret
  cases hret

/-- **`deta_chil` decides membership exactly for the parents that have a child.** -/
theorem decides_iff (h : Forest s.links L kids) (hlt : ∀ r ∈ L, r < s.next) (hp : p ∈ L) :
    Decides L kids p c s ↔ (s.heap p).firsChil ≠ none := by
  constructor
  · exact fun hd hf => not_decides_of_nil h hp hf hd
  · intro hf
    exact ⟨removed_of_mem h hlt hp, fun hc => detaChil_of_notMem h hlt hp hc hf⟩

/-- A fork: the record `0` gets the child `1`. -/
def oneFork : List Input := [input 1 (.fork 1 2) [(1, ['0']), (2, ['1'])]]

theorem oneFork_steps : Steps Step init (trace 0 init oneFork) := steps_trace (by decide)

theorem mem_oneFork : 0 ∈ (final init (trace 0 init oneFork)).tracked ∧
    1 ∈ (final init (trace 0 init oneFork)).tracked :=
  ⟨⟨1, by decide⟩, ⟨2, by decide⟩⟩

theorem decides_iff_oneFork :
    ∃ kids, Decides (final init (trace 0 init oneFork)).tracked kids 0 1
      (final init (trace 0 init oneFork)) := by
  have hs := sound_final oneFork_steps
  obtain ⟨kids, hk⟩ := hs.forest
  exact ⟨kids, (decides_iff hk hs.lt_next mem_oneFork.1).mpr (by decide)⟩

/-- The child has no children: asked whether the parent is one of them, `deta_chil` reads through
`NULL`. -/
theorem not_decides_oneFork : Steps Step init (trace 0 init oneFork) ∧
    ∃ kids, Forest (final init (trace 0 init oneFork)).links
        (final init (trace 0 init oneFork)).tracked kids ∧
      detaChil (some 1) (some 0) (final init (trace 0 init oneFork)) = .crash ∧
      ¬ Decides (final init (trace 0 init oneFork)).tracked kids 1 0
        (final init (trace 0 init oneFork)) := by
  have hf : ((final init (trace 0 init oneFork)).heap 1).firsChil = none := by decide
  obtain ⟨kids, hk⟩ := (sound_final oneFork_steps).forest
  exact ⟨oneFork_steps, kids, hk, detaChil_of_firsChil_none hf,
    not_decides_of_nil hk mem_oneFork.2 hf⟩

end Serie.Tree.Detach
