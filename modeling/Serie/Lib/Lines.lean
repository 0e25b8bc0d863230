import Mathlib.Data.List.Basic
import Mathlib.Tactic.Common

/-! # Lines

A text of lines ends each of them with a separator. If no line contains the separator, splitting the
text at it gives back the lines, and an empty rest (`splitOn_unlines`). -/

namespace Serie.Lib.Lines

variable {β : Type*} {sep : β}

/-- The text of the lines. -/
def unlines (sep : β) (lines : List (List β)) : List β := lines.flatMap fun l => l ++ [sep]

@[simp] theorem unlines_nil : unlines sep [] = [] := rfl

theorem unlines_cons (l : List β) (lines : List (List β)) :
    unlines sep (l :: lines) = l ++ sep :: unlines sep lines := by
  simp [unlines]

theorem unlines_append (lines lines' : List (List β)) :
    unlines sep (lines ++ lines') = unlines sep lines ++ unlines sep lines' := by
  simp [unlines]

/-- **The lines can be read off the text.** -/
theorem splitOn_unlines [BEq β] [LawfulBEq β] : ∀ {lines : List (List β)},
    (∀ l ∈ lines, sep ∉ l) → (unlines sep lines).splitOn sep = lines ++ [[]]
  | [], _ => by simp
  | l :: lines, h => by
    have ih := splitOn_unlines fun l hl => h l (List.mem_cons_of_mem _ hl)
    rw [unlines_cons, List.splitOn_append_cons_self_of_not_mem (h l List.mem_cons_self), ih]
    rfl

theorem intercalate_cons (l : List β) (lists : List (List β)) :
    [sep].intercalate (l :: lists) = l ++ lists.flatMap (sep :: ·) := by
  induction lists generalizing l with
  | nil => simp [List.intercalate]
  | cons l' lists ih =>
    have hcons : [sep].intercalate (l :: l' :: lists) =
        l ++ sep :: [sep].intercalate (l' :: lists) := by
      simp [List.intercalate]
    rw [hcons, ih, List.flatMap_cons, List.cons_append]

theorem forall_mem_intercalate {P : β → Prop} (hs : P sep) : ∀ {lists : List (List β)},
    (∀ l ∈ lists, ∀ b ∈ l, P b) → ∀ b ∈ [sep].intercalate lists, P b
  | [], _ => by simp [List.intercalate]
  | [l], h => by simpa [List.intercalate] using h
  | l :: l' :: lists, h => by
    have ih : ∀ b ∈ [sep].intercalate (l' :: lists), P b :=
      forall_mem_intercalate hs fun l hl => h l (List.mem_cons_of_mem _ hl)
    rw [intercalate_cons, List.flatMap_cons, List.cons_append, ← intercalate_cons]
    intro b hb
    rcases List.mem_append.mp hb with hb | hb
    · exact h l List.mem_cons_self b hb
    · rcases List.mem_cons.mp hb with rfl | hb
      · exact hs
      · exact ih b hb

end Serie.Lib.Lines
