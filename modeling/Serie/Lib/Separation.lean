import Mathlib.Logic.Function.Basic
import Mathlib.Tactic.Common

/-! # Programs that allocate

A memory has blocks at addresses; a block that was freed is not there any more, and its address is
not used again. An assertion describes a part of the memory, and `star P Q` says that the part falls
into two, one for `P` and one for `Q`. `Triple P m Q E`: wherever the part `P` lies, `m` makes `Q`
of it and leaves the rest alone, or it raises an error with `E`; it makes no access to a block that
is not there. So a program with `Triple (pts a v) m (fun _ => emp) E` frees its block and all that
it allocates, each block once (`Triple.run_alloc`). -/

namespace Serie.Lib.Separation

/-! ### Memory -/

/-- The blocks that are in use. -/
abbrev Heap (σ : Type) := ℕ → Option σ

/-- The memory: the blocks, the next address, and the number of calls of the allocator. -/
structure Mem (σ : Type) where
  cells : Heap σ
  next : ℕ
  calls : ℕ
  fresh : ∀ a, next ≤ a → cells a = none

/-- The empty memory. -/
def Mem.empty {σ : Type} : Mem σ := ⟨fun _ => none, 0, 0, fun _ _ => rfl⟩

/-- How a program ends early: it uses a block that is not there, or it raises an error. -/
inductive Fault (ε : Type) where
  | dangling
  | raised (e : ε)
deriving DecidableEq

/-- Programs over a memory. -/
abbrev Prog (σ ε : Type) := StateT (Mem σ) (Except (Fault ε))

section Commands
variable {σ ε : Type}

/-- A new block, if the allocator has one; `ok` says what it answers to its calls. What the block
holds may depend on the number of the call. -/
def alloc (ok : ℕ → Bool) (v : ℕ → σ) : Prog σ ε (Option ℕ) := fun μ =>
  if ok μ.calls = true then
    .ok (some μ.next, ⟨Function.update μ.cells μ.next (some (v μ.calls)), μ.next + 1, μ.calls + 1,
      fun a ha => (Function.update_of_ne (by omega) _ _).trans (μ.fresh a (by omega))⟩)
  else .ok (none, { μ with calls := μ.calls + 1 })

/-- The contents of a block. -/
def load (a : ℕ) : Prog σ ε σ := fun μ =>
  match μ.cells a with
  | none => .error .dangling
  | some v => .ok (v, μ)

/-- The block with its contents replaced, or without them. -/
def Mem.write (μ : Mem σ) (a : ℕ) (v : Option σ) (h : μ.cells a ≠ none) : Mem σ where
  cells := Function.update μ.cells a v
  next := μ.next
  calls := μ.calls
  fresh b hb := by
    have hne : b ≠ a := fun he => h (he ▸ μ.fresh b hb)
    exact (Function.update_of_ne hne _ _).trans (μ.fresh b hb)

/-- New contents for a block. -/
def store (a : ℕ) (v : σ) : Prog σ ε Unit := fun μ =>
  match h : μ.cells a with
  | none => .error .dangling
  | some _ => .ok ((), μ.write a (some v) (h ▸ Option.some_ne_none _))

/-- The end of a block. -/
def free (a : ℕ) : Prog σ ε Unit := fun μ =>
  match h : μ.cells a with
  | none => .error .dangling
  | some _ => .ok ((), μ.write a none (h ▸ Option.some_ne_none _))

/-- The allocator always has a block. -/
def Serves (ok : ℕ → Bool) : Prop := ∀ n, ok n = true

/-- An error. -/
def raise {α : Type} (e : ε) : Prog σ ε α := fun _ => .error (.raised e)

end Commands

/-! ### Assertions -/

section Assertions
variable {σ : Type}

/-- The two parts have no address in common. -/
def Apart (h k : Heap σ) : Prop := ∀ a, h a = none ∨ k a = none

/-- The two parts together. -/
def join (h k : Heap σ) : Heap σ := fun a => (h a).or (k a)

theorem Apart.symm {h k : Heap σ} (hd : Apart h k) : Apart k h := fun a => (hd a).symm

theorem join_comm {h k : Heap σ} (hd : Apart h k) : join h k = join k h := by
  funext a
  unfold join
  rcases hd a with he | he <;> rw [he] <;> simp

theorem join_assoc (h k l : Heap σ) : join (join h k) l = join h (join k l) := by
  funext a
  exact Option.or_assoc

theorem join_eq_none {h k : Heap σ} {a : ℕ} : join h k a = none ↔ h a = none ∧ k a = none :=
  Option.or_eq_none_iff

theorem apart_join {h k l : Heap σ} : Apart h (join k l) ↔ Apart h k ∧ Apart h l := by
  unfold Apart
  simp only [join_eq_none, or_and_left, forall_and]

/-- A part of the memory is as described. -/
abbrev Assn (σ : Type) := Heap σ → Prop

/-- Nothing is there. -/
def emp : Assn σ := fun h => h = fun _ => none

/-- There is one block. -/
def pts (a : ℕ) (v : σ) : Assn σ := fun h => h = Function.update (fun _ => none) a (some v)

/-- Two parts. -/
def star (P Q : Assn σ) : Assn σ := fun h => ∃ k l, Apart k l ∧ h = join k l ∧ P k ∧ Q l

/-- A fact about no block. -/
def fact (φ : Prop) : Assn σ := fun h => φ ∧ emp h

/-- For some value. -/
def ex {ι : Type} (P : ι → Assn σ) : Assn σ := fun h => ∃ i, P i h

section Laws
variable {P P' Q Q' R : Assn σ} {φ : Prop} {h : Heap σ} {ι : Type}

theorem star_comm (P Q : Assn σ) : star P Q = star Q P := by
  have hle : ∀ {P Q : Assn σ} {h : Heap σ}, star P Q h → star Q P h := by
    rintro P Q _ ⟨k, l, hd, rfl, hk, hl⟩
    exact ⟨l, k, hd.symm, join_comm hd, hl, hk⟩
  exact funext fun h => propext ⟨hle, hle⟩

theorem star_assoc (P Q R : Assn σ) : star (star P Q) R = star P (star Q R) := by
  funext h
  refine propext ⟨?_, ?_⟩
  · rintro ⟨_, l, hd, rfl, ⟨j, k, hd', rfl, hj, hk⟩, hl⟩
    obtain ⟨hlj, hlk⟩ := apart_join.mp hd.symm
    exact ⟨j, join k l, apart_join.mpr ⟨hd', hlj.symm⟩, join_assoc j k l, hj, k, l, hlk.symm, rfl,
      hk, hl⟩
  · rintro ⟨j, _, hd, rfl, hj, k, l, hd', rfl, hk, hl⟩
    obtain ⟨hjk, hjl⟩ := apart_join.mp hd
    exact ⟨join j k, l, (apart_join.mpr ⟨hjl.symm, hd'.symm⟩).symm, (join_assoc j k l).symm,
      ⟨j, k, hjk, rfl, hj, hk⟩, hl⟩

instance : Std.Commutative (star (σ := σ)) := ⟨star_comm⟩

instance : Std.Associative (star (σ := σ)) := ⟨star_assoc⟩

@[simp] theorem star_emp (P : Assn σ) : star P emp = P := by
  funext h
  refine propext ⟨?_, fun hp => ⟨h, fun _ => none, fun _ => Or.inr rfl, ?_, hp, rfl⟩⟩
  · rintro ⟨k, _, -, rfl, hk, rfl⟩
    have hjoin : join k (fun _ => none) = k := funext fun a => Option.or_none
    rwa [hjoin]
  · exact funext fun a => Option.or_none.symm

@[simp] theorem emp_star (P : Assn σ) : star emp P = P := by rw [star_comm, star_emp]

theorem star_mono (hp : ∀ h, P h → P' h) (hq : ∀ h, Q h → Q' h) : star P Q h → star P' Q' h := by
  rintro ⟨k, l, hd, rfl, hk, hl⟩
  exact ⟨k, l, hd, rfl, hp k hk, hq l hl⟩

theorem ex_star (P : ι → Assn σ) (Q : Assn σ) : star (ex P) Q = ex fun i => star (P i) Q := by
  funext h
  refine propext ⟨?_, ?_⟩
  · rintro ⟨k, l, hd, rfl, ⟨i, hi⟩, hl⟩
    exact ⟨i, k, l, hd, rfl, hi, hl⟩
  · rintro ⟨i, k, l, hd, rfl, hi, hl⟩
    exact ⟨k, l, hd, rfl, ⟨i, hi⟩, hl⟩

theorem star_ex (P : Assn σ) (Q : ι → Assn σ) : star P (ex Q) = ex fun i => star P (Q i) := by
  rw [star_comm, ex_star]
  simp only [star_comm P]

theorem fact_true (hφ : φ) : (fact φ : Assn σ) = emp := by
  funext h
  exact propext ⟨fun hf => hf.2, fun he => ⟨hφ, he⟩⟩

theorem fact_star_iff : star (fact φ) P h ↔ φ ∧ P h := by
  constructor
  · rintro ⟨k, l, hd, hj, ⟨hφ, hk⟩, hl⟩
    rw [← emp_star P]
    exact ⟨hφ, k, l, hd, hj, hk, hl⟩
  · rintro ⟨hφ, hp⟩
    rw [fact_true hφ, emp_star]
    exact hp

theorem star_left_comm (P Q R : Assn σ) : star P (star Q R) = star Q (star P R) := by
  rw [← star_assoc, star_comm P Q, star_assoc]

theorem holds_of_eq (he : P = Q) (hp : P h) : Q h := he ▸ hp

/-! A part `Q` of a row of parts, and the others: it comes first, later, or last. -/

theorem star_head : star Q R = star Q R := rfl

theorem star_tail (h : P = star Q R) : star P' P = star Q (star P' R) := by
  rw [h, star_left_comm]

theorem star_end : Q = star Q emp := (star_emp Q).symm

theorem false_star (P : Assn σ) : star (fact False) P = fact False := by
  funext h
  rw [eq_iff_iff, fact_star_iff]
  exact ⟨fun hf => hf.1.elim, fun hf => hf.1.elim⟩

end Laws

/-! ### One block -/

theorem pts_star_iff {a : ℕ} {v : σ} {P : Assn σ} {h : Heap σ} :
    star (pts a v) P h ↔ h a = some v ∧ P (Function.update h a none) := by
  constructor
  · rintro ⟨_, l, hd, rfl, rfl, hl⟩
    have hla : l a = none := (hd a).resolve_left (by simp)
    have hrest : Function.update (join (Function.update (fun _ => none) a (some v)) l) a none =
        l := by
      funext b
      by_cases hb : b = a
      · rw [hb, Function.update_self, hla]
      · rw [Function.update_of_ne hb, join, Function.update_of_ne hb, Option.none_or]
    rw [hrest]
    exact ⟨by simp [join], hl⟩
  · rintro ⟨ha, hp⟩
    refine ⟨_, _, fun b => ?_, funext fun b => ?_, rfl, hp⟩
    · by_cases hb : b = a
      · exact Or.inr (by rw [hb, Function.update_self])
      · exact Or.inl (Function.update_of_ne hb _ _)
    · unfold join
      by_cases hb : b = a
      · rw [hb, Function.update_self, ha, Option.some_or]
      · rw [Function.update_of_ne hb, Function.update_of_ne hb, Option.none_or]

theorem pts_star_update {a : ℕ} {v : σ} {P : Assn σ} {h : Heap σ} (ha : h a = none) (hp : P h) :
    star (pts a v) P (Function.update h a (some v)) := by
  have hrest : Function.update (Function.update h a (some v)) a none = h := by
    rw [Function.update_idem, ← ha, Function.update_eq_self]
  rw [pts_star_iff, hrest]
  exact ⟨Function.update_self .., hp⟩

end Assertions

/-! ### Triples -/

section Triples
variable {σ ε α β : Type}

/-- **`m` makes `Q` of `P`**, or raises an error with `E`, in any memory with such a part. -/
def Triple (P : Assn σ) (m : Prog σ ε α) (Q : α → Assn σ) (E : ε → Prop) : Prop :=
  ∀ (F : Assn σ) (μ : Mem σ), star P F μ.cells →
    (∃ x ν, m μ = .ok (x, ν) ∧ star (Q x) F ν.cells) ∨ ∃ e, m μ = .error (.raised e) ∧ E e

variable {P P' R : Assn σ} {m : Prog σ ε α} {Q Q' : α → Assn σ} {E E' : ε → Prop}
  {f : α → Prog σ ε β} {S : β → Assn σ} {φ : Prop} {ι : Type} {ok : ℕ → Bool} {a : ℕ} {v w : σ}

namespace Triple

/-! The rules that hold of all programs. -/

theorem pure {Q : α → Assn σ} (x : α) : Triple (Q x) (Pure.pure x : Prog σ ε α) Q E :=
  fun _ μ h => Or.inl ⟨x, μ, rfl, h⟩

theorem bind (hm : Triple P m Q E) (hf : ∀ x, Triple (Q x) (f x) S E) :
    Triple P (m >>= f) S E := by
  intro F μ h
  have hrun : (m >>= f) μ = (m μ).bind fun y => f y.1 y.2 := rfl
  rw [hrun]
  rcases hm F μ h with ⟨x, ν, he, h⟩ | ⟨e, he, hE⟩
  · rw [he]
    exact hf x F ν h
  · rw [he]
    exact Or.inr ⟨e, rfl, hE⟩

theorem conseq (hm : Triple P m Q E) (hp : ∀ h, P' h → P h) (hq : ∀ x h, Q x h → Q' x h)
    (hE : ∀ e, E e → E' e) : Triple P' m Q' E' := by
  intro F μ h
  rcases hm F μ (star_mono hp (fun _ => id) h) with ⟨x, ν, he, h⟩ | ⟨e, he, hE'⟩
  · exact Or.inl ⟨x, ν, he, star_mono (hq x) (fun _ => id) h⟩
  · exact Or.inr ⟨e, he, hE e hE'⟩

theorem post (hm : Triple P m Q E) (hq : ∀ x h, Q x h → Q' x h) : Triple P m Q' E :=
  hm.conseq (fun _ => id) hq fun _ => id

theorem pre (hm : Triple P m Q E) (hp : ∀ h, P' h → P h) : Triple P' m Q E :=
  hm.conseq hp (fun _ _ => id) fun _ => id

/-- **The frame**: what `m` does not own is as before. -/
theorem frame (hm : Triple P m Q E) (R : Assn σ) :
    Triple (star P R) m (fun x => star (Q x) R) E := by
  intro F μ h
  rw [star_assoc] at h
  simp only [star_assoc]
  exact hm (star R F) μ h

theorem of_ex {P : ι → Assn σ} (h : ∀ i, Triple (P i) m Q E) : Triple (ex P) m Q E := by
  intro F μ hp
  rw [ex_star] at hp
  obtain ⟨i, hi⟩ := hp
  exact h i F μ hi

theorem last (hm : Triple P (m >>= Pure.pure) Q E) : Triple P m Q E := by
  rwa [bind_pure] at hm

theorem ret {x : α} (hp : ∀ h, P h → Q x h) : Triple P (Pure.pure x : Prog σ ε α) Q E :=
  (pure x).pre hp

theorem of_false : Triple (fact False) m Q E := by
  intro F μ h
  exact (fact_star_iff.mp h).1.elim

theorem of_ne {b : ℕ} (h : a ≠ b → Triple (star (pts a v) (star (pts b w) R)) m Q E) :
    Triple (star (pts a v) (star (pts b w) R)) m Q E := by
  intro F μ hp
  refine h (fun he => ?_) F μ hp
  rw [star_assoc, pts_star_iff, star_assoc, pts_star_iff, he, Function.update_self] at hp
  cases hp.2.1

theorem of_fact (h : φ → Triple P m Q E) : Triple (star (fact φ) P) m Q E := by
  intro F μ hp
  rw [star_assoc, fact_star_iff] at hp
  exact h hp.1 F μ hp.2

/-- A program before the rest, on a part of what there is. -/
theorem step (hm : Triple P m Q E) (hp : P' = star P R)
    (hf : ∀ x, Triple (star (Q x) R) (f x) S E) : Triple P' (m >>= f) S E := by
  rw [hp]
  exact (hm.frame R).bind hf

/-! The commands. -/

theorem alloc_bind {f : Option ℕ → Prog σ ε β} {c : ℕ → σ}
    (hnone : ¬ Serves ok → Triple P (f none) S E)
    (hsome : ∀ a n, Triple (star (pts a (c n)) P) (f (some a)) S E) :
    Triple P (alloc ok c >>= f) S E := by
  intro F μ h
  have hrun : (alloc ok c >>= f) μ = (alloc ok c μ).bind fun y => f y.1 y.2 := rfl
  rw [hrun, alloc]
  by_cases hok : ok μ.calls = true
  · rw [if_pos hok]
    refine hsome μ.next μ.calls F _ ?_
    rw [star_assoc]
    exact pts_star_update (μ.fresh μ.next (Nat.le_refl _)) h
  · rw [if_neg hok]
    exact hnone (fun hs => hok (hs μ.calls)) F _ h

theorem load_bind {f : σ → Prog σ ε β} (hp : P = star (pts a v) R) (h : Triple P (f v) S E) :
    Triple P (load a >>= f) S E := by
  intro F μ hμ
  have hrun : (load a >>= f) μ = (load a μ).bind fun y => f y.1 y.2 := rfl
  have ha : μ.cells a = some v := by
    rw [hp, star_assoc, pts_star_iff] at hμ
    exact hμ.1
  rw [hrun, load, ha]
  exact h F μ hμ

theorem store_bind {f : Unit → Prog σ ε β} (hp : P = star (pts a v) R)
    (h : Triple (star (pts a w) R) (f ()) S E) : Triple P (store a w >>= f) S E := by
  intro F μ hμ
  rw [hp, star_assoc, pts_star_iff] at hμ
  obtain ⟨ha, hμ⟩ := hμ
  have hrun : (store a w >>= f) μ = (store a w μ).bind fun y => f y.1 y.2 := rfl
  have hstore : (store a w : Prog σ ε Unit) μ =
      .ok ((), μ.write a (some w) (ha ▸ Option.some_ne_none _)) := by
    unfold store
    split
    · rename_i hnone
      rw [ha] at hnone
      cases hnone
    · rfl
  rw [hrun, hstore]
  refine h F _ ?_
  rw [star_assoc, pts_star_iff]
  refine ⟨Function.update_self .., ?_⟩
  rw [Mem.write, Function.update_idem]
  exact hμ

theorem free_bind {f : Unit → Prog σ ε β} (hp : P = star (pts a v) R)
    (h : Triple R (f ()) S E) : Triple P (free a >>= f) S E := by
  intro F μ hμ
  rw [hp, star_assoc, pts_star_iff] at hμ
  obtain ⟨ha, hμ⟩ := hμ
  have hrun : (free a >>= f) μ = (free a μ).bind fun y => f y.1 y.2 := rfl
  have hfree : (free a : Prog σ ε Unit) μ =
      .ok ((), μ.write a none (ha ▸ Option.some_ne_none _)) := by
    unfold free
    split
    · rename_i hnone
      rw [ha] at hnone
      cases hnone
    · rfl
  rw [hrun, hfree]
  exact h F _ hμ

theorem raise {e : ε} (he : E e) : Triple P (Separation.raise e) Q E :=
  fun _ _ _ => Or.inr ⟨e, rfl, he⟩

/-- **A program that keeps nothing of its first block** leaves the memory as it was. -/
theorem run_alloc {f : Option ℕ → Prog σ ε α} {c : ℕ → σ} {φ : α → Prop}
    (hsome : ∀ a n, Triple (pts a (c n)) (f (some a)) (fun x => fact (φ x)) E) {μ : Mem σ}
    (hok : ok μ.calls = true) :
    (∃ x ν, (alloc ok c >>= f) μ = .ok (x, ν) ∧ φ x ∧ ν.cells = μ.cells) ∨
      ∃ e, (alloc ok c >>= f) μ = .error (.raised e) ∧ E e := by
  have hrun : (alloc ok c >>= f) μ = (alloc ok c μ).bind fun y => f y.1 y.2 := rfl
  obtain ⟨ν, hν, hcells⟩ : ∃ ν : Mem σ,
      (alloc ok c : Prog σ ε (Option ℕ)) μ = .ok (some μ.next, ν) ∧
        ν.cells = Function.update μ.cells μ.next (some (c μ.calls)) := ⟨_, if_pos hok, rfl⟩
  have hstart : star (pts μ.next (c μ.calls)) (fun h => h = μ.cells) ν.cells := by
    rw [hcells]
    exact pts_star_update (μ.fresh μ.next (Nat.le_refl _)) rfl
  rw [hrun, hν]
  rcases hsome μ.next μ.calls _ ν hstart with ⟨x, ν', he, h⟩ | herr
  · exact Or.inl ⟨x, ν', he, (fact_star_iff (P := fun h => h = μ.cells)).mp h⟩
  · exact Or.inr herr

end Triple

end Triples

end Serie.Lib.Separation
