import Serie.Lib.Chain
import Mathlib.Data.Set.Basic

/-! # Lines of ancestors

For a parent function `up`, the ancestors of a node are the chain of `up` that starts at it. `Ends`
says that this chain is finite, `Above up c a` that `c` is met on the way up from `a`. Giving a node
the parent `p` closes a cycle exactly when the node is above `p` (`Ends.attach`,
`not_ends_attach`). -/

namespace Serie.Lib.Ancestry

open Serie.Lib.Chain

variable {ρ : Type*}

/-- Following `up` from `a` reaches `none`. -/
def Ends (up : ρ → Option ρ) (a : Option ρ) : Prop := ∃ l, IsChain up a l

/-- Following `up` from a node meets `c`. -/
inductive Above (up : ρ → Option ρ) (c : ρ) : ρ → Prop where
  | here : Above up c c
  | step {a b : ρ} (h : up a = some b) (hb : Above up c b) : Above up c a

section Basic
variable {up up' : ρ → Option ρ} {a b c p x : ρ} {l : List ρ}

theorem ends_some : Ends up (some a) ↔ Ends up (up a) := by
  constructor
  · rintro ⟨l, hl⟩
    obtain ⟨l', -, hl'⟩ := isChain_some.mp hl
    exact ⟨l', hl'⟩
  · rintro ⟨l, hl⟩
    exact ⟨a :: l, rfl, hl⟩

theorem Ends.of_root (h : up a = none) : Ends up (some a) := ends_some.mpr ⟨[], h⟩

theorem Ends.of_step (h : up a = some b) (hb : Ends up (some b)) : Ends up (some a) :=
  ends_some.mpr (by rw [h]; exact hb)

/-- **A line of ancestors carries over** to another parent function if each of its nodes has the
same parent there, or a finite line anyway. -/
theorem Ends.transfer {L : Set ρ} (h : ∀ x ∈ L, Ends up' (some x) ∨
    up' x = up x ∧ ∀ y, up x = some y → y ∈ L) (ha : a ∈ L) (he : Ends up (some a)) :
    Ends up' (some a) := by
  obtain ⟨l, hl⟩ := he
  induction l generalizing a with
  | nil => cases hl
  | cons x l ih =>
    obtain ⟨hx, hl⟩ := hl
    obtain rfl := Option.some.inj hx
    rcases h a ha with h' | ⟨h', hL⟩
    · exact h'
    · refine ends_some.mpr ?_
      rw [h']
      rcases hu : up a with _ | y
      · exact ⟨[], rfl⟩
      · exact ih (hL y hu) (hu ▸ hl)

theorem mem_of_isChain {L : Set ρ} (hL : ∀ x ∈ L, ∀ y, up x = some y → y ∈ L) :
    ∀ {l : List ρ} {a : Option ρ}, (∀ y, a = some y → y ∈ L) → IsChain up a l → ∀ x ∈ l, x ∈ L
  | [], _, _, _ => by simp
  | y :: l, a, ha, ⟨hy, hl⟩ => by
    have hyL := ha y hy
    intro x hx
    rcases List.mem_cons.mp hx with rfl | hx
    · exact hyL
    · exact mem_of_isChain hL (hL y hyL) hl x hx

/-- The parent of `c` itself does not matter for what `c` is above. -/
theorem Above.congr (hup : ∀ x, x ≠ c → up' x = up x) (h : Above up c a) : Above up' c a := by
  induction h with
  | here => exact .here
  | @step a b hab _ ih =>
    by_cases hac : a = c
    · rw [hac]; exact .here
    · exact .step ((hup a hac).trans hab) ih

theorem Above.eq_of_root (h : Above up c a) (ha : up a = none) : a = c := by
  cases h with
  | here => rfl
  | step hab => rw [ha] at hab; cases hab

theorem above_of_mem : ∀ {l : List ρ} {a : ρ}, IsChain up (some a) l → x ∈ l → Above up x a
  | y :: l, a, ⟨hy, hl⟩, hx => by
    obtain rfl := Option.some.inj hy
    rcases List.mem_cons.mp hx with rfl | hx
    · exact .here
    · rcases hu : up a with _ | b <;> rw [hu] at hl
      · rw [isChain_none.mp hl] at hx; cases hx
      · exact .step hu (above_of_mem hl hx)

theorem Above.mem (h : Above up c a) : ∀ {l : List ρ}, IsChain up (some a) l → c ∈ l := by
  induction h with
  | here =>
    intro l hl
    obtain ⟨l', rfl, -⟩ := isChain_some.mp hl
    exact List.mem_cons_self
  | @step a b hab _ ih =>
    intro l hl
    obtain ⟨l', rfl, hl'⟩ := isChain_some.mp hl
    exact List.mem_cons_of_mem _ (ih (hab ▸ hl'))

/-! ### A new parent -/

theorem Ends.attach (h : Ends up (some p)) (hn : ¬ Above up c p) (hc : up' c = some p)
    (hup : ∀ x, x ≠ c → up' x = up x) : Ends up' (some c) := by
  obtain ⟨l, hl⟩ := h
  refine Ends.of_step hc ⟨l, hl.congr fun x hx => hup x ?_⟩
  rintro rfl
  exact hn (above_of_mem hl hx)

/-- **A parent below it closes a cycle**: the line of `c` would meet `c` again. -/
theorem not_ends_attach (h : Above up c p) (hc : up' c = some p)
    (hup : ∀ x, x ≠ c → up' x = up x) : ¬ Ends up' (some c) := by
  rintro ⟨l, hl⟩
  obtain ⟨m, rfl, hm⟩ := isChain_some.mp hl
  rw [hc] at hm
  exact (List.nodup_cons.mp hl.nodup).1 ((h.congr hup).mem hm)

end Basic

end Serie.Lib.Ancestry
