import Serie.Model.Steps
import Mathlib.Data.List.Perm.Subperm

/-! # The tree operations on lists of children

On links that represent a forest, `deta_chil(pare, chil)` finds a child of `pare` on the list of
`pare`, at its head or behind its left neighbour, and erases it (`detaChil_of_mem`). -/

namespace Serie.Tree.Links

open Serie.Lib.Chain Serie.Lib.Intrusive Serie.Model.Record Serie.Model.Table Serie.Model.Steps

variable {s t : State} {L : Set Ref} {kids : Ref → List Ref} {p c r : Ref}

theorem length_le_next {l : List Ref} (hn : l.Nodup) (hl : ∀ r ∈ l, r < s.next) :
    l.length ≤ s.next := by
  have hsub : l ⊆ List.range s.next := fun r hr => List.mem_range.mpr (hl r hr)
  have h := (List.subperm_of_subset hn hsub).length_le
  rwa [List.length_range] at h

theorem detaScan_of_mem : ∀ {l : List Ref} {n : ℕ} {b : Ref},
    IsChain s.links.next (s.links.next b) l → l.length < n → c ∈ l →
      ∃ b', (b' = b ∨ b' ∈ l) ∧ s.links.next b' = some c ∧
        detaScan s c n (some b) = .ret (some b')
  | [], _, _, _, _, hc => by simp at hc
  | x :: l, n + 1, b, h, hl, hc => by
    have hnx : (s.heap b).nextSibl = some x := h.1
    by_cases hx : x = c
    · subst hx
      exact ⟨b, Or.inl rfl, h.1, by simp [detaScan, hnx]⟩
    · obtain ⟨b', hb', hn, hs⟩ := detaScan_of_mem h.2 (by simpa using hl)
        ((List.mem_cons.mp hc).resolve_left (Ne.symm hx))
      refine ⟨b', Or.inr ?_, hn, by simp [detaScan, hnx, hx, hs]⟩
      rcases hb' with rfl | hb'
      · simp
      · simp [hb']

/-- **`deta_chil` on a child of `pare`** returns `0` and erases it from the list. -/
theorem detaChil_of_mem (h : Forest s.links L kids) (hlt : ∀ r ∈ L, r < s.next) (hp : p ∈ L)
    (hc : c ∈ kids p) : ∃ t, detaChil (some p) (some c) s = .ret (0, t) ∧
      t.links.up = Function.update s.links.up c none ∧
      Forest t.links L (Function.update kids p ((kids p).erase c)) := by
  by_cases hf : (s.heap p).firsChil = some c
  · refine ⟨headOff p c s, detaChil_head hf, ?_, ?_⟩
    · rw [headOff_links]; rfl
    · rw [headOff_links]; exact h.detachHead hp hf
  · obtain ⟨b, l, hl⟩ := List.exists_cons_of_ne_nil (List.ne_nil_of_mem hc)
    have hch := h.chain p hp
    have hnd := h.nodup hp
    have hmem := h.kids_mem p hp
    rw [hl] at hch hc hnd hmem
    have hfb : (s.heap p).firsChil = some b := hch.1
    have hcb : c ≠ b := by rintro rfl; exact hf hfb
    have hlen : l.length < s.next := by
      have := length_le_next (s := s) hnd fun r hr => hlt r (hmem r hr)
      rw [List.length_cons] at this
      omega
    obtain ⟨b', hb', hn, hs⟩ := detaScan_of_mem hch.2 hlen ((List.mem_cons.mp hc).resolve_left hcb)
    have hbk : b' ∈ kids p := by
      rw [hl]
      rcases hb' with rfl | hb'
      · simp
      · simp [hb']
    refine ⟨linkOff b' c s, by rw [detaChil_scan hf, hfb, hs]; rfl, ?_, ?_⟩
    · rw [linkOff_links]; rfl
    · rw [linkOff_links]; exact h.detachAfter hp hbk hn

end Serie.Tree.Links
