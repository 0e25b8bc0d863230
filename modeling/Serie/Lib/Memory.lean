import Mathlib.Algebra.Group.Nat.Defs
import Mathlib.Data.List.Infix
import Mathlib.Tactic.Common

/-! # Bytes in memory

A memory has a byte at every address. `Holds m a l` says that the bytes `l` lie at the address `a`;
two lists at one address agree as far as both go (`Holds.prefix_of_le`). Numbers are little-endian:
reading `k` bytes gives `n` exactly if the bytes of `n` lie there (`readLe_eq_iff`). -/

namespace Serie.Lib.Memory

/-- A memory. -/
abbrev Mem := ℕ → UInt8

/-- The bytes `l` lie at the address `a`. -/
def Holds (m : Mem) : ℕ → List UInt8 → Prop
  | _, [] => True
  | a, b :: l => m a = b ∧ Holds m (a + 1) l

instance decidableHolds (m : Mem) : ∀ a l, Decidable (Holds m a l)
  | _, [] => isTrue trivial
  | a, b :: l =>
    have : Decidable (Holds m (a + 1) l) := decidableHolds m (a + 1) l
    inferInstanceAs (Decidable (m a = b ∧ Holds m (a + 1) l))

/-- The number in the `k` bytes at the address `a`. -/
def readLe (m : Mem) : ℕ → ℕ → ℕ
  | _, 0 => 0
  | a, k + 1 => (m a).toNat + 256 * readLe m (a + 1) k

/-- The `k` bytes of a number. -/
def leBytes : ℕ → ℕ → List UInt8
  | 0, _ => []
  | k + 1, n => UInt8.ofNat (n % 256) :: leBytes k (n / 256)

variable {m m' : Mem} {a k n : ℕ} {b : UInt8} {l l' : List UInt8}

@[simp] theorem holds_nil : Holds m a [] := trivial

@[simp] theorem holds_cons : Holds m a (b :: l) ↔ m a = b ∧ Holds m (a + 1) l := Iff.rfl

@[simp] theorem length_leBytes : ∀ k n : ℕ, (leBytes k n).length = k
  | 0, _ => rfl
  | k + 1, n => by rw [leBytes, List.length_cons, length_leBytes]

theorem holds_append : Holds m a (l ++ l') ↔ Holds m a l ∧ Holds m (a + l.length) l' := by
  induction l generalizing a with
  | nil => simp
  | cons b l ih => rw [List.cons_append, holds_cons, holds_cons, ih, List.length_cons, and_assoc,
      Nat.add_right_comm, Nat.add_assoc]

theorem holds_of_getElem (h : ∀ i (hi : i < l.length), m (a + i) = l[i]) : Holds m a l := by
  induction l generalizing a with
  | nil => trivial
  | cons b l ih =>
    refine ⟨h 0 (Nat.zero_lt_succ _), ih fun i hi => ?_⟩
    have := h (i + 1) (Nat.succ_lt_succ hi)
    rwa [← Nat.add_assoc, Nat.add_right_comm] at this

/-- **Two lists at one address**: the shorter one is the beginning of the other. -/
theorem Holds.prefix_of_le (h : Holds m a l) (h' : Holds m a l') (hl : l.length ≤ l'.length) :
    l <+: l' := by
  induction l generalizing a l' with
  | nil => exact List.nil_prefix
  | cons b l ih =>
    rcases l' with _ | ⟨b', l'⟩
    · cases hl
    · obtain ⟨rfl, h⟩ := h
      obtain ⟨rfl, h'⟩ := h'
      exact (List.cons_prefix_cons).mpr ⟨rfl, ih h h' (Nat.le_of_succ_le_succ hl)⟩

theorem Holds.front (h : Holds m a l') (hp : l <+: l') : Holds m a l := by
  obtain ⟨r, rfl⟩ := hp
  exact (holds_append.mp h).1

theorem readLe_congr (h : ∀ i, a ≤ i → i < a + k → m i = m' i) : readLe m a k = readLe m' a k := by
  induction k generalizing a with
  | zero => rfl
  | succ k ih =>
    rw [readLe, readLe, h a le_rfl (by omega), ih fun i hi hk => h i (by omega) (by omega)]

/-- **Reading a number** is finding its bytes. -/
theorem readLe_eq_iff (h : n < 256 ^ k) : readLe m a k = n ↔ Holds m a (leBytes k n) := by
  induction k generalizing a n with
  | zero =>
    have hn : n = 0 := by simpa using h
    simp [readLe, leBytes, hn]
  | succ k ih =>
    have hdiv : n / 256 < 256 ^ k := by rw [Nat.pow_succ] at h; omega
    have hmod : (UInt8.ofNat (n % 256)).toNat = n % 256 := by
      rw [UInt8.toNat_ofNat']
      omega
    have hb := (m a).toNat_lt
    rw [readLe, leBytes, holds_cons, ← ih hdiv, ← UInt8.toNat_inj, hmod]
    omega

theorem Holds.readLe (h : Holds m a (leBytes k n)) (hn : n < 256 ^ k) : readLe m a k = n :=
  (readLe_eq_iff hn).mpr h

end Serie.Lib.Memory
