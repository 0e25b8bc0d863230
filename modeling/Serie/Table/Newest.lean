import Serie.Fd.Clean
import Serie.Lib.HashTable
import Serie.Lib.Trace
import Serie.Model.Steps

/-! # The table as a list, newest first

The hash table stands for the list of its records, the one inserted last in front: `proc_inse` is
`::`, `proc_look` is the first record with the pid, and `proc_dele` erases the first record with the
pid and birth time of its argument (`refines_of_calls`). The list follows its own rule (`Calls`),
whatever the buckets are; in between, the records may change in everything but pid and birth time.
-/

namespace Serie.Table.Newest

open Serie.Lib.Trace Serie.Lib.HashTable Serie.Model.Record Serie.Model.Prfs Serie.Model.Table
open Serie.Model.Conn Serie.Model.Steps Serie.Fd.Clean

/-- The record `x` has the pid and the birth time of `r`. -/
def sameKey (s : State) (r x : Ref) : Bool :=
  (s.heap x).pid = (s.heap r).pid ∧ (s.heap x).birthTime = (s.heap r).birthTime

/-- A call of the table, or writes to the memory that leave the table alone. -/
inductive Call where
  | inse (r : Ref) (calloc : Bool)
  | dele (r : Ref)
  | write (u : State)

/-- What a call does to the memory and to the list. -/
def Calls (x : State × List Ref) (call : Call) (y : State × List Ref) : Prop :=
  match call with
  | .inse r calloc => y.1 = (procInse r calloc x.1).2 ∧ y.2 = if calloc then r :: x.2 else x.2
  | .dele r => y.1 = (procDele r x.1).2 ∧ y.2 = x.2.eraseP (sameKey x.1 r)
  | .write u => y = (u, x.2) ∧ u.buckets = x.1.buckets ∧ u.bucketCount = x.1.bucketCount ∧
      ∀ r ∈ x.2, (u.heap r).pid = (x.1.heap r).pid ∧ (u.heap r).birthTime = (x.1.heap r).birthTime

/-- The bucket of a record. -/
def bucketOf (s : State) (r : Ref) : ℕ := procHash (s.heap r).pid

/-- **The table of `s` is the list `l`.** -/
structure Refines (s : State) (l : List Ref) : Prop where
  buckets : Hashed (bucketOf s) s.buckets l
  hash_lt : ∀ q, procHash q < s.bucketCount
  look : ∀ q, procLook s q = l.find? fun r => (s.heap r).pid = q
  inse_failed : ∀ r, procInse r false s = (-1, s)
  inse : ∀ r, (procInse r true s).1 = 0 ∧ (procInse r true s).2.heap = s.heap ∧
    Hashed (bucketOf s) (procInse r true s).2.buckets (r :: l)
  dele_none : ∀ r, l.find? (sameKey s r) = none → procDele r s = (-1, s)
  dele : ∀ r x, l.find? (sameKey s r) = some x → (procDele r s).1 = 0 ∧
    (procDele r s).2.destroyed = x :: s.destroyed ∧
    (∀ y ≠ x, (procDele r s).2.heap y = s.heap y) ∧
    Hashed (bucketOf s) (procDele r s).2.buckets (l.eraseP (sameKey s r)) ∧
    (Freeable (s.heap x).fdPaths (s.heap x).fdCoun.toNat →
      (procDele r s).2.strs.faults = s.strs.faults)

/-- **The walk of `proc_dele`** finds the first record with the key and takes out its node. -/
theorem deleWalk_eq_find? (s : State) (r : Ref) : ∀ l : List Ref, deleWalk s (s.heap r) l =
    (l.find? (sameKey s r)).map fun x => (x, l.eraseP (sameKey s r))
  | [] => rfl
  | c :: l => by
    have ih := deleWalk_eq_find? s r l
    have hkey : ((s.heap c).pid = (s.heap r).pid ∧
        (s.heap c).birthTime.tvSec = (s.heap r).birthTime.tvSec ∧
        (s.heap c).birthTime.tvNsec = (s.heap r).birthTime.tvNsec) ↔ sameKey s r c = true := by
      simp [sameKey, Timespec.ext_iff]
    unfold deleWalk
    by_cases hc : sameKey s r c = true
    · rw [if_pos (hkey.mpr hc), List.find?_cons_of_pos hc, List.eraseP_cons_of_pos hc]
      rfl
    · rw [if_neg fun h => hc (hkey.mp h), List.find?_cons_of_neg hc, List.eraseP_cons_of_neg hc, ih]
      rcases l.find? (sameKey s r) with _ | x <;> rfl

section Refines
variable {s : State} {l : List Ref}

theorem bucketOf_of_sameKey {r x : Ref} (h : sameKey s r x = true) :
    bucketOf s x = procHash (s.heap r).pid := by
  have hkey : (s.heap x).pid = (s.heap r).pid ∧ (s.heap x).birthTime = (s.heap r).birthTime := by
    simpa [sameKey] using h
  rw [bucketOf, hkey.1]

theorem procDele_eq_find? (hc : Hashed (bucketOf s) s.buckets l) (r : Ref) :
    procDele r s = match l.find? (sameKey s r) with
      | none => (-1, s)
      | some x => (0, procDest (some x) { s with
          buckets := Function.update s.buckets (procHash (s.heap r).pid)
            ((s.buckets (procHash (s.heap r).pid)).eraseP (sameKey s r)) }) := by
  have hfind : (s.buckets (procHash (s.heap r).pid)).find? (sameKey s r) =
      l.find? (sameKey s r) := hc.find? fun x _ hx => bucketOf_of_sameKey hx
  unfold procDele
  dsimp only
  rw [deleWalk_eq_find?, hfind]
  rcases l.find? (sameKey s r) with _ | x <;> rfl

/-- **Chains that represent the list make every call do what its list says.** -/
theorem refines_of_hashed (hn : s.bucketCount = procBuckNodes)
    (hc : Hashed (bucketOf s) s.buckets l) : Refines s l where
  buckets := hc
  hash_lt q := by rw [hn]; exact procHash_lt q
  look q := by
    refine hc.find? fun r _ hr => ?_
    rw [bucketOf, of_decide_eq_true hr]
  inse_failed _ := rfl
  inse r := ⟨rfl, rfl, hc.cons r⟩
  dele_none r h := by rw [procDele_eq_find? hc, h]
  dele r x h := by
    rw [procDele_eq_find? hc, h]
    refine ⟨rfl, rfl, fun y hy => Function.update_of_ne hy .., ?_, freeSlots_faults⟩
    exact hc.eraseP fun x _ hx => bucketOf_of_sameKey hx

/-- What every call keeps. -/
def Represents (x : State × List Ref) : Prop :=
  x.1.bucketCount = procBuckNodes ∧ Hashed (bucketOf x.1) x.1.buckets x.2

theorem Represents.step {x y : State × List Ref} {call : Call} (h : Represents x)
    (hst : Calls x call y) : Represents y := by
  obtain ⟨s, l⟩ := x
  obtain ⟨hn, hc⟩ := h
  have hr := refines_of_hashed hn hc
  obtain ⟨t, m⟩ := y
  cases call with
  | inse r calloc =>
    obtain ⟨rfl, rfl⟩ : t = (procInse r calloc s).2 ∧ m = _ := hst
    cases calloc with
    | false => exact ⟨hn, hc⟩
    | true => exact ⟨hn, (hr.inse r).2.2⟩
  | dele r =>
    obtain ⟨rfl, rfl⟩ : t = (procDele r s).2 ∧ m = _ := hst
    dsimp only at hn hc ⊢
    rcases hf : l.find? (sameKey s r) with _ | x
    · have hno : l.eraseP (sameKey s r) = l := by simpa using hf
      rw [hno, hr.dele_none r hf]
      exact ⟨hn, hc⟩
    · refine ⟨by rw [procDele_eq_find? hc, hf]; exact hn, ?_⟩
      refine (hr.dele r x hf).2.2.2.1.congr fun y _ => ?_
      have hpid : ((procDele r s).2.heap y).pid = (s.heap y).pid := by
        rw [procDele_eq_find? hc, hf]
        by_cases hy : y = x
        · subst hy; simp [procDest, prfsCleanFd]
        · simp [procDest, hy]
      rw [bucketOf, hpid, bucketOf]
  | write u =>
    obtain ⟨he, hb, hcount, hkey⟩ := hst
    obtain ⟨rfl, rfl⟩ := Prod.mk.inj he
    refine ⟨hcount.trans hn, ?_⟩
    dsimp only at hkey ⊢
    rw [hb]
    exact hc.congr fun r hm => by rw [bucketOf, (hkey r hm).1, bucketOf]

end Refines

/-- **The table refines the list** after every sequence of calls from an empty table. -/
theorem refines_of_calls {tr : List (Call × State × List Ref)} (hr : Steps Calls (init, []) tr) :
    Refines (final (init, []) tr).1 (final (init, []) tr).2 := by
  have h0 : Represents (init, []) := ⟨rfl, Hashed.nil⟩
  obtain ⟨hn, hc⟩ := hr.final (J := Represents) (fun _ _ _ h hs => h.step hs) h0
  exact refines_of_hashed hn hc

/-- Three pids of one bucket, one of them negative and one of them twice. -/
def colliding (s : State) : State :=
  { s with heap := fun r => { Proc.zero with pid := [7, -4089, 4103, 7].getD r 0 } }

/-- The states of a sequence of calls. -/
def callTrace : State × List Ref → List Call → List (Call × State × List Ref)
  | _, [] => []
  | (s, l), .inse r calloc :: cs =>
    let y := ((procInse r calloc s).2, if calloc then r :: l else l)
    (.inse r calloc, y) :: callTrace y cs
  | (s, l), .dele r :: cs =>
    let y := ((procDele r s).2, l.eraseP (sameKey s r))
    (.dele r, y) :: callTrace y cs
  | (_, l), .write u :: cs => (.write u, u, l) :: callTrace (u, l) cs

/-- The newest record with the pid and birth time of record `0` is record `3`. -/
theorem refines_of_calls_colliding :
    let tr := callTrace (init, []) [.write (colliding init), .inse 0 true, .inse 1 true,
      .inse 2 false, .inse 3 true, .dele 0]
    Refines (final (init, []) tr).1 (final (init, []) tr).2 ∧ (final (init, []) tr).2 = [1, 0] :=
  ⟨refines_of_calls ⟨⟨rfl, rfl, rfl, by simp⟩, ⟨rfl, rfl⟩, ⟨rfl, rfl⟩, ⟨rfl, rfl⟩, ⟨rfl, rfl⟩,
    ⟨rfl, rfl⟩, trivial⟩, by decide⟩

end Serie.Table.Newest
