import Mathlib.Data.Set.Basic
import Mathlib.Logic.Function.Basic

/-! # Programs with a footprint

The state of a program is a map from keys to values. A program is local to a set of keys if it
writes to no other key, and if its result and what it writes depend on no other key (`Local`).
Reading and writing at a key of the set is local to it, and so is every program put together from
such programs (`Local.bind`). Programs that are local to disjoint sets commute (`Local.comm`). -/

namespace Serie.Lib.Footprint

universe u

variable {κ β ρ τ : Type u}

/-- **The program reads and writes keys of `A` only.** -/
structure Local (A : Set κ) (m : StateM (κ → β) ρ) : Prop where
  frame : ∀ b, ∀ k ∉ A, (m.run b).2 k = b k
  reads : ∀ b b', (∀ k ∈ A, b k = b' k) →
    (m.run b).1 = (m.run b').1 ∧ ∀ k ∈ A, (m.run b).2 k = (m.run b').2 k

/-- The value at a key. -/
def fetch (k : κ) : StateM (κ → β) β := fun b => (b k, b)

/-- A write at a key. -/
def store [DecidableEq κ] (k : κ) (v : β) : StateM (κ → β) PUnit :=
  fun b => (⟨⟩, Function.update b k v)

@[simp] theorem run_fetch (k : κ) (b : κ → β) : (fetch k : StateM (κ → β) β).run b = (b k, b) := rfl

theorem run_then (m : StateM (κ → β) ρ) (f : ρ → StateM (κ → β) τ) (b : κ → β) :
    (m >>= f).run b = (f (m.run b).1).run (m.run b).2 := rfl

namespace Local

variable {A B : Set κ} {m : StateM (κ → β) ρ} {n : StateM (κ → β) τ}

theorem pure (x : ρ) : Local A (Pure.pure x : StateM (κ → β) ρ) where
  frame _ _ _ := rfl
  reads _ _ h := ⟨rfl, h⟩

theorem fetch {k : κ} (hk : k ∈ A) : Local A (fetch k : StateM (κ → β) β) where
  frame _ _ _ := rfl
  reads _ _ h := ⟨h k hk, h⟩

theorem store [DecidableEq κ] {k : κ} (hk : k ∈ A) (v : β) : Local A (store k v) where
  frame b j hj := by
    have hjk : j ≠ k := by
      rintro rfl
      exact hj hk
    exact Function.update_of_ne hjk v b
  reads b b' h := by
    refine ⟨rfl, fun j hj => ?_⟩
    change Function.update b k v j = Function.update b' k v j
    by_cases hjk : j = k
    · subst hjk; simp
    · rw [Function.update_of_ne hjk, Function.update_of_ne hjk, h j hj]

theorem bind {f : ρ → StateM (κ → β) τ} (hm : Local A m) (hf : ∀ x, Local A (f x)) :
    Local A (m >>= f) where
  frame b k hk := by
    have h1 := (hf (m.run b).1).frame (m.run b).2 k hk
    exact h1.trans (hm.frame b k hk)
  reads b b' h := by
    obtain ⟨hx, hb⟩ := hm.reads b b' h
    have h1 := (hf (m.run b).1).reads (m.run b).2 (m.run b').2 hb
    rw [hx] at h1
    change (((f (m.run b).1).run (m.run b).2).1 = ((f (m.run b').1).run (m.run b').2).1) ∧
      ∀ k ∈ A, ((f (m.run b).1).run (m.run b).2).2 k = ((f (m.run b').1).run (m.run b').2).2 k
    rw [hx]
    exact h1

/-- **Programs that are local to disjoint sets commute.** -/
theorem comm (hm : Local A m) (hn : Local B n) (h : ∀ k ∈ A, k ∉ B) (b : κ → β) :
    (m.run b).1 = (m.run (n.run b).2).1 ∧ (n.run b).1 = (n.run (m.run b).2).1 ∧
      (n.run (m.run b).2).2 = (m.run (n.run b).2).2 := by
  have hA : ∀ k ∈ A, b k = (n.run b).2 k := fun k hk => (hn.frame b k (h k hk)).symm
  have hB : ∀ k ∈ B, b k = (m.run b).2 k := fun k hk => (hm.frame b k fun hkA => h k hkA hk).symm
  obtain ⟨hx, hmA⟩ := hm.reads b _ hA
  obtain ⟨hy, hnB⟩ := hn.reads b _ hB
  refine ⟨hx, hy, funext fun k => ?_⟩
  rcases Classical.em (k ∈ A) with hk | hk
  · rw [hn.frame _ k (h k hk), hmA k hk]
  · rw [hm.frame _ k hk]
    rcases Classical.em (k ∈ B) with hkB | hkB
    · exact (hnB k hkB).symm
    · rw [hn.frame _ k hkB, hn.frame _ k hkB, hm.frame _ k hk]

end Local

end Serie.Lib.Footprint
