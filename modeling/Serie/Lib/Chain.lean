import Mathlib.Logic.Function.Basic
import Mathlib.Data.List.Nodup
import Mathlib.Tactic.Common

/-! # Linked chains

A pointer field `next : ρ → Option ρ` and a head pointer `a : Option ρ` form the chain `l` if
following `next` from `a` passes through the cells of `l`, in order, and then reaches `none`. A
chain is determined by its head (`IsChain.unique`), visits no cell twice (`IsChain.nodup`), and does
not see writes to cells it does not pass through (`IsChain.congr`). -/

namespace Serie.Lib.Chain

variable {ρ : Type*}

/-- Following `next` from `a` visits exactly the cells of `l`, in order. -/
def IsChain (next : ρ → Option ρ) : Option ρ → List ρ → Prop
  | a, [] => a = none
  | a, x :: l => a = some x ∧ IsChain next (next x) l

section Basic
variable {next next' : ρ → Option ρ} {a : Option ρ} {x b : ρ} {l l' l₁ l₂ : List ρ}

@[simp] theorem isChain_nil : IsChain next a [] ↔ a = none := Iff.rfl

@[simp] theorem isChain_cons :
    IsChain next a (x :: l) ↔ a = some x ∧ IsChain next (next x) l := Iff.rfl

@[simp] theorem isChain_none : IsChain next none l ↔ l = [] := by
  cases l <;> simp

theorem isChain_some : IsChain next (some x) l ↔ ∃ l', l = x :: l' ∧ IsChain next (next x) l' := by
  cases l with
  | nil => simp
  | cons y l =>
    simp only [isChain_cons, Option.some.injEq, List.cons.injEq]
    constructor
    · rintro ⟨rfl, h⟩; exact ⟨l, ⟨rfl, rfl⟩, h⟩
    · rintro ⟨l', ⟨rfl, rfl⟩, h⟩; exact ⟨rfl, h⟩

theorem IsChain.unique : ∀ {l l' : List ρ} {a : Option ρ}, IsChain next a l →
    IsChain next a l' → l = l'
  | [], [], _, _, _ => rfl
  | [], _ :: _, _, h, h' => by rw [isChain_nil] at h; rw [h] at h'; simp at h'
  | _ :: _, [], _, h, h' => by rw [isChain_nil] at h'; rw [h'] at h; simp at h
  | x :: l, y :: l', a, ⟨hx, h⟩, ⟨hy, h'⟩ => by
    obtain rfl : x = y := by rw [hx] at hy; exact Option.some.inj hy
    rw [IsChain.unique h h']

theorem IsChain.congr : ∀ {l : List ρ} {a : Option ρ}, (∀ x ∈ l, next' x = next x) →
    IsChain next a l → IsChain next' a l
  | [], _, _, h => h
  | x :: l, a, he, ⟨hx, h⟩ =>
    ⟨hx, by rw [he x (by simp)]; exact IsChain.congr (fun y hy => he y (by simp [hy])) h⟩

theorem IsChain.of_append : ∀ {l₁ : List ρ} {a : Option ρ}, IsChain next a (l₁ ++ x :: l₂) →
    IsChain next (next x) l₂
  | [], _, h => h.2
  | _ :: _, _, h => IsChain.of_append h.2

/-- A chain that ends visits no cell twice: two visits of a cell would be followed by equal rests.
-/
theorem IsChain.nodup : ∀ {l : List ρ} {a : Option ρ}, IsChain next a l → l.Nodup
  | [], _, _ => List.nodup_nil
  | x :: l, a, h => by
    refine List.nodup_cons.mpr ⟨fun hx => ?_, IsChain.nodup h.2⟩
    obtain ⟨l₁, l₂, rfl⟩ := List.append_of_mem hx
    have h2 : IsChain next (next x) l₂ := IsChain.of_append h.2
    have := congrArg List.length (IsChain.unique h.2 h2)
    simp at this
    omega

/-- The cell after the last one visited is `none`, so a cell of the chain points into the chain. -/
theorem IsChain.next_mem : ∀ {l : List ρ} {a : Option ρ}, IsChain next a l → x ∈ l →
    ∀ y, next x = some y → y ∈ l
  | z :: l, a, h, hx, y, hy => by
    rcases List.mem_cons.mp hx with rfl | hx
    · have h2 := h.2
      rw [hy] at h2
      obtain ⟨l', rfl, -⟩ := isChain_some.mp h2
      simp
    · exact List.mem_cons_of_mem _ (IsChain.next_mem h.2 hx y hy)

theorem IsChain.exists_prev : ∀ {l : List ρ} {a : Option ρ}, IsChain next a l → x ∈ l →
    a = some x ∨ ∃ b ∈ l, b ≠ x ∧ next b = some x
  | y :: l, a, h, hx => by
    rcases List.mem_cons.mp hx with rfl | hx
    · exact Or.inl h.1
    have hyx : y ≠ x := by
      rintro rfl
      exact (List.nodup_cons.mp h.nodup).1 hx
    rcases IsChain.exists_prev h.2 hx with hy | ⟨b, hb, hbx, hn⟩
    · exact Or.inr ⟨y, List.mem_cons_self, hyx, hy⟩
    · exact Or.inr ⟨b, List.mem_cons_of_mem y hb, hbx, hn⟩

theorem IsChain.map_eq {ρ' ν : Type*} {next' : ρ' → Option ρ'} {f : ρ → ν} {g : ρ' → ν} :
    ∀ {l : List ρ} {l' : List ρ'} {a : Option ρ} {a' : Option ρ'}, IsChain next a l →
      IsChain next' a' l' → a.map f = a'.map g →
      (∀ x ∈ l, ∀ x' ∈ l', f x = g x' → (next x).map f = (next' x').map g) → l.map f = l'.map g
  | [], [], _, _, _, _, _, _ => rfl
  | [], _ :: _, _, _, h, h', he, _ => by
    rw [isChain_nil.mp h, h'.1] at he
    cases he
  | _ :: _, [], _, _, h, h', he, _ => by
    rw [h.1, isChain_nil.mp h'] at he
    cases he
  | x :: l, x' :: l', _, _, h, h', he, hn => by
    have hx : f x = g x' := by
      rw [h.1, h'.1] at he
      exact Option.some.inj he
    have hnext := hn x (by simp) x' (by simp) hx
    have ih := IsChain.map_eq h.2 h'.2 hnext fun y hy y' hy' =>
      hn y (List.mem_cons_of_mem x hy) y' (List.mem_cons_of_mem x' hy')
    rw [List.map_cons, List.map_cons, hx, ih]

end Basic

section Update
variable [DecidableEq ρ] {next : ρ → Option ρ} {a v : Option ρ} {x b : ρ} {l l₁ l₂ : List ρ}

theorem IsChain.update (hx : x ∉ l) (h : IsChain next a l) :
    IsChain (Function.update next x v) a l :=
  h.congr fun y hy => Function.update_of_ne (fun e => hx (by rwa [e] at hy)) _ _

/-- Writing the successor's successor into `b` unlinks the successor. -/
theorem IsChain.unlink : ∀ {l₁ : List ρ} {a : Option ρ}, IsChain next a (l₁ ++ b :: x :: l₂) →
    IsChain (Function.update next b (next x)) a (l₁ ++ b :: l₂)
  | [], a, h => by
    have hn := h.nodup
    simp only [List.nil_append, List.nodup_cons, List.mem_cons, not_or] at hn
    exact ⟨h.1, by rw [Function.update_self]; exact h.2.2.update hn.1.2⟩
  | z :: l₁, a, h => by
    have hz : z ≠ b := by
      have hn := (List.nodup_cons.mp h.nodup).1
      rintro rfl; exact hn (by simp)
    exact ⟨h.1, by rw [Function.update_of_ne hz]; exact IsChain.unlink h.2⟩

end Update

end Serie.Lib.Chain
