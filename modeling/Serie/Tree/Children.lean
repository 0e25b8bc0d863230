import Serie.Tree.Shape

/-! # The children of a record

The list of the children of a record, from its `firs_chil` along `next_sibl`. -/

namespace Serie.Tree.Children

open Serie.Lib.Chain Serie.Lib.Intrusive Serie.Model.Record Serie.Model.Table Serie.Model.Conn
open Serie.Model.Steps Serie.Model.Loop Serie.Tree.Invariant Serie.Tree.Shape

/-- **The children of `p`**, in the order of the list. -/
def Kids (s : State) (p : Ref) (l : List Ref) : Prop :=
  IsChain (fun r => (s.heap r).nextSibl) (s.heap p).firsChil l

theorem exists_kids {s : State} (h : Sound s) {p : Ref} (hp : p ∈ s.tracked) :
    ∃ l, Kids s p l ∧ l.Nodup ∧ ∀ c, c ∈ l ↔ c ∈ s.tracked ∧ (s.heap c).pare = some p :=
  (treeOk_of_sound h).chain p hp

theorem mem_kids_iff {s : State} (h : Sound s) {p : Ref} (hp : p ∈ s.tracked) {l : List Ref}
    (hl : Kids s p l) {c : Ref} : c ∈ l ↔ c ∈ s.tracked ∧ (s.heap c).pare = some p := by
  obtain ⟨l', hl', -, hmem⟩ := exists_kids h hp
  rw [IsChain.unique hl hl']
  exact hmem c

/-! ### The list after a change -/

section Change
variable {s t : State} {d p c : Ref} {l : List Ref} {w : World}

theorem Kids.congr (h : Kids s d l) (hf : (t.heap d).firsChil = (s.heap d).firsChil)
    (hn : ∀ r ∈ l, (t.heap r).nextSibl = (s.heap r).nextSibl) : Kids t d l := by
  unfold Kids
  rw [hf]
  exact IsChain.congr hn h

theorem Kids.orphaned (h : Kids s d (c :: l)) : Kids (orphaned d c w s).2 d l := by
  have hc : c ∉ l := (List.nodup_cons.mp (IsChain.nodup h)).1
  have hl : (Model.Loop.orphaned d c w s).2.links = s.links.detachHead d c := orphaned_links
  change IsChain (Model.Loop.orphaned d c w s).2.links.next
    ((Model.Loop.orphaned d c w s).2.links.first d) l
  rw [hl]
  simp only [Links.detachHead, Function.update_self]
  exact IsChain.update hc h.2

theorem Kids.attach_of_ne (h : Kids s d l) (hpd : p ≠ d) (hpc : p ≠ c) (hc : c ∉ l) :
    Kids (attaChil (some p) (some c) s).2 d l := by
  change IsChain (attaChil (some p) (some c) s).2.links.next
    ((attaChil (some p) (some c) s).2.links.first d) l
  rw [attaChil_links hpc]
  simp only [Links.attach, Function.update_of_ne hpd.symm]
  exact IsChain.update hc h

theorem Kids.attach (h : Kids s d l) (hdc : d ≠ c) (hc : c ∉ l) :
    Kids (attaChil (some d) (some c) s).2 d (c :: l) := by
  change IsChain (attaChil (some d) (some c) s).2.links.next
    ((attaChil (some d) (some c) s).2.links.first d) (c :: l)
  rw [attaChil_links hdc]
  simp only [Links.attach, isChain_cons, Function.update_self, true_and]
  exact IsChain.update hc h

theorem Kids.found {q : Pid} (h : Kids s d l) (hf : Found q w s p t) (hd : d < s.next)
    (hl : ∀ r ∈ l, r < s.next) : Kids t d l := by
  cases hf with
  | old => exact h
  | new _ _ _ ha =>
    refine h.congr ?_ fun r hr => ?_
    · rw [ha.heap, Function.update_of_ne hd.ne]
    · rw [ha.heap, Function.update_of_ne (hl r hr).ne]

end Change

end Serie.Tree.Children
