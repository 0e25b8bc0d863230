import Mathlib.Data.List.Find
import Mathlib.Logic.Function.Basic
import Mathlib.Tactic.Common

/-! # Chained hash tables

A hash table keeps one chain for every value of the hash function `h`. It stands for the list `l` if
every chain is the part of `l` with its hash value, in the order of `l` (`Hashed`). Putting an item
in front of its chain is `::` on the list (`Hashed.cons`); searching and erasing the first match of
a predicate give the same on the one chain where a match can be as on the whole list
(`Hashed.find?`, `Hashed.eraseP`). -/

namespace Serie.Lib.HashTable

variable {ρ : Type*} {h h' : ρ → ℕ} {chains : ℕ → List ρ} {l : List ρ}

/-- **The chains represent the list.** -/
def Hashed (h : ρ → ℕ) (chains : ℕ → List ρ) (l : List ρ) : Prop :=
  ∀ b, chains b = l.filter fun r => h r = b

namespace Hashed

theorem nil : Hashed h (fun _ => []) [] := fun _ => rfl

theorem congr (hc : Hashed h chains l) (he : ∀ r ∈ l, h' r = h r) : Hashed h' chains l := by
  intro b
  rw [hc b]
  refine List.filter_congr fun r hr => ?_
  rw [he r hr]

theorem mem_iff (hc : Hashed h chains l) {b : ℕ} {r : ρ} : r ∈ chains b ↔ r ∈ l ∧ h r = b := by
  rw [hc b, List.mem_filter, decide_eq_true_iff]

/-- **Putting an item in front of its chain.** -/
theorem cons (hc : Hashed h chains l) (r : ρ) :
    Hashed h (Function.update chains (h r) (r :: chains (h r))) (r :: l) := by
  intro b
  by_cases hb : h r = b
  · subst hb
    rw [Function.update_self, List.filter_cons_of_pos (by simp), hc]
  · rw [Function.update_of_ne (Ne.symm hb), List.filter_cons_of_neg (by simpa using hb), hc]

section Search
variable {p : ρ → Bool} {b : ℕ}

/-- **The first match on its chain is the first match on the list.** -/
theorem find? (hc : Hashed h chains l) (hp : ∀ r ∈ l, p r = true → h r = b) :
    (chains b).find? p = l.find? p := by
  rw [hc b, List.find?_filter]
  refine List.find?_congr fun r hr => ?_
  rcases hpr : p r with _ | _
  · simp
  · have hb := hp r hr hpr
    simp [hb]

/-- **Erasing the first match from its chain.** -/
theorem eraseP (hc : Hashed h chains l) (hp : ∀ r ∈ l, p r = true → h r = b) :
    Hashed h (Function.update chains b ((chains b).eraseP p)) (l.eraseP p) := by
  rcases List.exists_or_eq_self_of_eraseP p l with he | ⟨a, l₁, l₂, hl₁, ha, hl, he⟩
  · -- there is no match
    have hno : (chains b).eraseP p = chains b := by
      rw [List.eraseP_eq_self_iff] at he ⊢
      exact fun r hr => he r (hc.mem_iff.mp hr).1
    rw [he, hno, Function.update_eq_self]
    exact hc
  · have hab : h a = b := hp a (by rw [hl]; simp) ha
    have hchain : ∀ c, chains c = (l₁ ++ a :: l₂).filter fun r => h r = c := fun c => by
      rw [hc c, hl]
    rw [he]
    intro c
    by_cases hcb : c = b
    · subst hcb
      have hno : ∀ r ∈ l₁.filter (fun r => h r = c), ¬ p r = true := fun r hr =>
        hl₁ r (List.mem_filter.mp hr).1
      rw [Function.update_self, hchain, List.filter_append, List.filter_cons_of_pos (by simpa),
        List.eraseP_append_right _ hno, List.eraseP_cons_of_pos ha, List.filter_append]
    · have hac : ¬ h a = c := by rw [hab]; exact Ne.symm hcb
      rw [Function.update_of_ne hcb, hchain, List.filter_append,
        List.filter_cons_of_neg (by simpa using hac), List.filter_append]

end Search

end Hashed

end Serie.Lib.HashTable
