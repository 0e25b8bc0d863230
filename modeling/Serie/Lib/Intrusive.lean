import Serie.Lib.Chain
import Mathlib.Data.Set.Insert

/-! # Intrusive child lists

Records that carry their own tree links: `up`, the parent; `first`, the head of the list of
children; `next`, the next record on the parent's list. `Forest lk L kids` says that the links `lk`
represent, on the records of `L`, the abstract forest in which `kids p` is the list of the children
of `p`. The pointer updates that attach a record at the head of a list, take off the head, and
unlink an inner record are `Links.attach`, `Links.detachHead` and `Links.detachAfter`; on the
abstract side they are `::` and `List.erase` (`Forest.attach`, `Forest.detachHead`,
`Forest.detachAfter`). -/

namespace Serie.Lib.Intrusive

open Serie.Lib.Chain

/-- The links of a family of records. -/
structure Links (ρ : Type*) where
  up : ρ → Option ρ
  first : ρ → Option ρ
  next : ρ → Option ρ

variable {ρ : Type*}

/-- **The links represent the forest `kids` on `L`.** -/
structure Forest (lk : Links ρ) (L : Set ρ) (kids : ρ → List ρ) : Prop where
  chain : ∀ p ∈ L, IsChain lk.next (lk.first p) (kids p)
  mem_iff : ∀ p ∈ L, ∀ c ∈ L, c ∈ kids p ↔ lk.up c = some p
  kids_mem : ∀ p ∈ L, ∀ c ∈ kids p, c ∈ L
  up_mem : ∀ c ∈ L, ∀ p, lk.up c = some p → p ∈ L
  root : ∀ c ∈ L, lk.up c = none → lk.next c = none

namespace Forest

variable {lk lk' : Links ρ} {L L' : Set ρ} {kids kids' : ρ → List ρ} {p q c : ρ}

theorem nodup (h : Forest lk L kids) (hp : p ∈ L) : (kids p).Nodup := (h.chain p hp).nodup

theorem up_of_mem (h : Forest lk L kids) (hp : p ∈ L) (hc : c ∈ kids p) : lk.up c = some p :=
  (h.mem_iff p hp c (h.kids_mem p hp c hc)).mp hc

theorem notMem_of_root (h : Forest lk L kids) (hp : p ∈ L) (hc : lk.up c = none) : c ∉ kids p :=
  fun hm => by rw [h.up_of_mem hp hm] at hc; cases hc

theorem parent_unique (h : Forest lk L kids) (hp : p ∈ L) (hq : q ∈ L) (hcp : c ∈ kids p)
    (hcq : c ∈ kids q) : p = q :=
  Option.some.inj ((h.up_of_mem hp hcp).symm.trans (h.up_of_mem hq hcq))

theorem kids_eq_nil (h : Forest lk L kids) (hp : p ∈ L) : kids p = [] ↔ lk.first p = none := by
  have hc := h.chain p hp
  constructor
  · intro hk; rw [hk] at hc; exact hc
  · intro hf; rw [hf] at hc; exact isChain_none.mp hc

theorem kids_eq_cons (h : Forest lk L kids) (hp : p ∈ L) (hf : lk.first p = some c) :
    ∃ l, kids p = c :: l ∧ IsChain lk.next (lk.next c) l := by
  have hc := h.chain p hp
  rw [hf] at hc
  exact isChain_some.mp hc

theorem first_mem (h : Forest lk L kids) (hp : p ∈ L) (hf : lk.first p = some c) : c ∈ kids p := by
  obtain ⟨l, hl, -⟩ := h.kids_eq_cons hp hf
  rw [hl]; simp

theorem up_next (h : Forest lk L kids) (hc : c ∈ L) (hn : lk.next c = some q) :
    ∃ p ∈ L, q ∈ kids p ∧ c ∈ kids p := by
  rcases hu : lk.up c with _ | p
  · rw [h.root c hc hu] at hn; cases hn
  · have hp := h.up_mem c hc p hu
    have hck := (h.mem_iff p hp c hc).mpr hu
    exact ⟨p, hp, (h.chain p hp).next_mem hck q hn, hck⟩

theorem congr (h : Forest lk L kids) (hu : ∀ r ∈ L, lk'.up r = lk.up r)
    (hf : ∀ r ∈ L, lk'.first r = lk.first r) (hn : ∀ r ∈ L, lk'.next r = lk.next r) :
    Forest lk' L kids where
  chain p hp := by
    rw [hf p hp]
    exact (h.chain p hp).congr fun x hx => hn x (h.kids_mem p hp x hx)
  mem_iff p hp c hc := by rw [hu c hc]; exact h.mem_iff p hp c hc
  kids_mem := h.kids_mem
  up_mem c hc p hp := h.up_mem c hc p (by rwa [hu c hc] at hp)
  root c hc hr := by rw [hn c hc]; exact h.root c hc (by rwa [hu c hc] at hr)

theorem congr_kids (h : Forest lk L kids) (hk : ∀ p ∈ L, kids' p = kids p) :
    Forest lk L kids' where
  chain p hp := by
    rw [hk p hp]
    exact h.chain p hp
  mem_iff p hp := by
    rw [hk p hp]
    exact h.mem_iff p hp
  kids_mem p hp := by
    rw [hk p hp]
    exact h.kids_mem p hp
  up_mem := h.up_mem
  root := h.root

end Forest

/-! ### Attaching and detaching -/

section Update
variable [DecidableEq ρ]

/-- `c` becomes the first child of `p`. -/
def Links.attach (lk : Links ρ) (p c : ρ) : Links ρ where
  up := Function.update lk.up c (some p)
  first := Function.update lk.first p (some c)
  next := Function.update lk.next c (lk.first p)

/-- `c`, the first child of `p`, is taken off. -/
def Links.detachHead (lk : Links ρ) (p c : ρ) : Links ρ where
  up := Function.update lk.up c none
  first := Function.update lk.first p (lk.next c)
  next := Function.update lk.next c none

/-- `c`, which follows `b` on a list, is taken off. -/
def Links.detachAfter (lk : Links ρ) (b c : ρ) : Links ρ where
  up := Function.update lk.up c none
  first := lk.first
  next := Function.update (Function.update lk.next b (lk.next c)) c none

namespace Forest

variable {lk lk' : Links ρ} {L : Set ρ} {kids : ρ → List ρ} {p b c r : ρ}

theorem insert (h : Forest lk L kids) (hr : r ∉ L) (hu : lk.up r = none) (hf : lk.first r = none)
    (hn : lk.next r = none) : Forest lk (insert r L) (Function.update kids r []) where
  chain p hp := by
    rcases hp with rfl | hp
    · rw [Function.update_self, hf]; rfl
    · rw [Function.update_of_ne (by rintro rfl; exact hr hp)]; exact h.chain p hp
  mem_iff p hp c hc := by
    rcases hp with rfl | hp
    · rw [Function.update_self]
      simp only [List.not_mem_nil, false_iff]
      rcases hc with rfl | hc
      · rw [hu]; simp
      · exact fun hcu => hr (h.up_mem c hc _ hcu)
    · rw [Function.update_of_ne (by rintro rfl; exact hr hp)]
      rcases hc with rfl | hc
      · rw [hu]
        simp only [reduceCtorEq, iff_false]
        exact fun hc => hr (h.kids_mem p hp _ hc)
      · exact h.mem_iff p hp c hc
  kids_mem p hp c hc := by
    rcases hp with rfl | hp
    · rw [Function.update_self] at hc; simp at hc
    · rw [Function.update_of_ne (by rintro rfl; exact hr hp)] at hc
      exact Or.inr (h.kids_mem p hp c hc)
  up_mem c hc p hp := by
    rcases hc with rfl | hc
    · rw [hu] at hp; cases hp
    · exact Or.inr (h.up_mem c hc p hp)
  root c hc hcu := by
    rcases hc with rfl | hc
    · exact hn
    · exact h.root c hc hcu

theorem attach (h : Forest lk L kids) (hp : p ∈ L) (hc : c ∈ L) (hu : lk.up c = none) :
    Forest (lk.attach p c) L (Function.update kids p (c :: kids p)) where
  chain q hq := by
    have hcq := h.notMem_of_root hq hu
    by_cases he : q = p
    · subst he
      simp only [Links.attach, Function.update_self]
      exact ⟨rfl, by rw [Function.update_self]; exact (h.chain q hq).update hcq⟩
    · simp only [Links.attach, Function.update_of_ne he]
      exact (h.chain q hq).update hcq
  mem_iff q hq x hx := by
    have hcq := h.notMem_of_root hq hu
    have hm := h.mem_iff q hq x hx
    simp only [Links.attach]
    by_cases he : q = p <;> by_cases hxc : x = c
    · subst he hxc; simp
    · subst he; rw [Function.update_self, Function.update_of_ne hxc]; simp [hxc, hm]
    · subst hxc
      rw [Function.update_of_ne he, Function.update_self]
      simp [hcq, Ne.symm he]
    · rw [Function.update_of_ne he, Function.update_of_ne hxc]; exact hm
  kids_mem q hq x hx := by
    by_cases he : q = p
    · subst he
      rw [Function.update_self] at hx
      rcases List.mem_cons.mp hx with rfl | hx
      · exact hc
      · exact h.kids_mem q hq x hx
    · rw [Function.update_of_ne he] at hx; exact h.kids_mem q hq x hx
  up_mem x hx q hq := by
    simp only [Links.attach] at hq
    by_cases hxc : x = c
    · subst hxc
      rw [Function.update_self] at hq
      rwa [← Option.some.inj hq]
    · rw [Function.update_of_ne hxc] at hq; exact h.up_mem x hx q hq
  root x hx hxu := by
    simp only [Links.attach] at hxu ⊢
    by_cases hxc : x = c
    · subst hxc; rw [Function.update_self] at hxu; cases hxu
    · rw [Function.update_of_ne hxc] at hxu ⊢; exact h.root x hx hxu

/-- What the two ways of detaching share: they clear `c` and leave the lists without it. -/
theorem of_detach (h : Forest lk L kids) (hp : p ∈ L) (hc : c ∈ kids p)
    (hup : lk'.up = Function.update lk.up c none) (hnc : lk'.next c = none)
    (hroot : ∀ x ∈ L, lk.up x = none → lk'.next x = lk.next x)
    (hchain : IsChain lk'.next (lk'.first p) ((kids p).erase c))
    (hother : ∀ q ∈ L, q ≠ p → IsChain lk'.next (lk'.first q) (kids q)) :
    Forest lk' L (Function.update kids p ((kids p).erase c)) where
  chain q hq := by
    by_cases he : q = p
    · subst he; rw [Function.update_self]; exact hchain
    · rw [Function.update_of_ne he]; exact hother q hq he
  mem_iff q hq x hx := by
    have hm := h.mem_iff q hq x hx
    have hcu := h.up_of_mem hp hc
    rw [hup]
    by_cases he : q = p <;> by_cases hxc : x = c
    · subst he hxc; simp [(h.nodup hq).mem_erase_iff]
    · subst he
      rw [Function.update_self, Function.update_of_ne hxc]
      simp [(h.nodup hq).mem_erase_iff, hxc, hm]
    · subst hxc
      rw [Function.update_of_ne he, Function.update_self, hm, hcu]
      simp [Ne.symm he]
    · rw [Function.update_of_ne he, Function.update_of_ne hxc]; exact hm
  kids_mem q hq x hx := by
    by_cases he : q = p
    · subst he
      rw [Function.update_self] at hx
      exact h.kids_mem q hq x (List.mem_of_mem_erase hx)
    · rw [Function.update_of_ne he] at hx; exact h.kids_mem q hq x hx
  up_mem x hx q hq := by
    rw [hup] at hq
    by_cases hxc : x = c
    · subst hxc; rw [Function.update_self] at hq; cases hq
    · rw [Function.update_of_ne hxc] at hq; exact h.up_mem x hx q hq
  root x hx hxu := by
    by_cases hxc : x = c
    · rw [hxc]; exact hnc
    · rw [hup, Function.update_of_ne hxc] at hxu
      rw [hroot x hx hxu]; exact h.root x hx hxu

theorem detachHead (h : Forest lk L kids) (hp : p ∈ L) (hf : lk.first p = some c) :
    Forest (lk.detachHead p c) L (Function.update kids p ((kids p).erase c)) := by
  obtain ⟨l, hl, hch⟩ := h.kids_eq_cons hp hf
  have hc := h.first_mem hp hf
  have hcl : c ∉ l := (List.nodup_cons.mp (hl ▸ h.nodup hp)).1
  refine h.of_detach hp hc rfl (by simp [Links.detachHead]) (fun x hx hxu => ?_) ?_ ?_
  · by_cases hxc : x = c
    · subst hxc; rw [h.up_of_mem hp hc] at hxu; cases hxu
    · simp [Links.detachHead, Function.update_of_ne hxc]
  · rw [hl, List.erase_cons_head]
    simp only [Links.detachHead, Function.update_self]
    exact hch.update hcl
  · intro q hq he
    simp only [Links.detachHead, Function.update_of_ne he]
    exact (h.chain q hq).update fun hcq => he (h.parent_unique hq hp hcq hc)

theorem detachAfter (h : Forest lk L kids) (hp : p ∈ L) (hb : b ∈ kids p)
    (hn : lk.next b = some c) :
    Forest (lk.detachAfter b c) L (Function.update kids p ((kids p).erase c)) := by
  have hch := h.chain p hp
  have hc : c ∈ kids p := hch.next_mem hb c hn
  obtain ⟨l₁, l', hl⟩ := List.append_of_mem hb
  have hch' := hch
  rw [hl] at hch'
  obtain ⟨l₂, rfl, -⟩ : ∃ l₂, l' = c :: l₂ ∧ _ := isChain_some.mp (hn ▸ hch'.of_append)
  have hnd := hl ▸ h.nodup hp
  have hcl : c ∉ l₁ ++ b :: l₂ := by
    simp only [List.nodup_append, List.nodup_cons, List.mem_cons] at hnd ⊢
    simp only [List.mem_append, List.mem_cons, not_or]
    exact ⟨fun hc1 => hnd.2.2 c hc1 c (by simp) rfl, by rintro rfl; simp at hnd, hnd.2.1.2.1⟩
  have her : (kids p).erase c = l₁ ++ b :: l₂ := by
    simp only [List.mem_append, List.mem_cons, not_or] at hcl
    rw [hl, List.erase_append_right _ hcl.1, List.erase_cons_tail (by simp [Ne.symm hcl.2.1]),
      List.erase_cons_head]
  refine h.of_detach hp hc rfl (by simp [Links.detachAfter]) (fun x hx hxu => ?_) ?_ ?_
  · have hxc : x ≠ c := by rintro rfl; rw [h.up_of_mem hp hc] at hxu; cases hxu
    have hxb : x ≠ b := by rintro rfl; rw [h.up_of_mem hp hb] at hxu; cases hxu
    simp [Links.detachAfter, Function.update_of_ne hxc, Function.update_of_ne hxb]
  · rw [her]
    exact (IsChain.unlink hch').update hcl
  · intro q hq he
    have hcq : c ∉ kids q := fun hcq => he (h.parent_unique hq hp hcq hc)
    have hbq : b ∉ kids q := fun hbq => he (h.parent_unique hq hp hbq hb)
    exact ((h.chain q hq).update hbq).update hcq

end Forest

end Update

end Serie.Lib.Intrusive
