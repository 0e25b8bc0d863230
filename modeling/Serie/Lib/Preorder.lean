import Mathlib.Logic.Function.Iterate
import Mathlib.Data.List.Nodup
import Mathlib.Data.List.Perm.Subperm
import Mathlib.Tactic.Common

/-! # Walking down from a node

`walk kids` visits a node and then, one level deeper, each of its children in the order of the list
`kids`. It keeps no set of visited nodes, and its first argument bounds the depth it may reach. When
the children of a node are the nodes that have it as their parent (`up`), the nodes below `a` are
those from which `a` is met by climbing (`climb`). The walk returns exactly when they lie less deep
than its bound (`walk_isSome_iff`), it then visits each of them once (`mem_walk`, `nodup_walk`), and
from a node that is not its own ancestor there is always a bound (`climb_le_length`). -/

namespace Serie.Lib.Preorder

variable {ρ β γ : Type*}

/-- The outputs of a call for each item of a list, in order, unless one of them does not return. -/
def outputs (f : ρ → Option (List β)) : List ρ → Option (List β)
  | [] => some []
  | c :: cs => (f c).bind fun out => (outputs f cs).map (out ++ ·)

/-- The nodes below a node, each with its depth. -/
def walk (kids : ρ → List ρ) : ℕ → ℕ → ρ → Option (List (ρ × ℕ))
  | 0, _, _ => none
  | n + 1, d, a => (outputs (walk kids n (d + 1)) (kids a)).map ((a, d) :: ·)

/-- The ancestor `n` steps up. -/
def climb (up : ρ → Option ρ) (n : ℕ) (x : ρ) : Option ρ := (fun o => o.bind up)^[n] (some x)

section Outputs
variable {f g : ρ → Option (List β)} {c : ρ} {l : List ρ} {out : List β}

theorem outputs_cons : outputs f (c :: l) = some out ↔
    ∃ o os, f c = some o ∧ outputs f l = some os ∧ out = o ++ os := by
  rw [outputs]
  rcases f c with _ | o
  · simp
  · rcases outputs f l with _ | os
    · simp
    · simp [eq_comm]

theorem outputs_congr : ∀ {l : List ρ}, (∀ c ∈ l, f c = g c) → outputs f l = outputs g l
  | [], _ => rfl
  | c :: l, h => by
    rw [outputs, outputs, h c List.mem_cons_self,
      outputs_congr fun d hd => h d (List.mem_cons_of_mem c hd)]

theorem outputs_map (e : β → γ) : ∀ l : List ρ,
    outputs (fun c => (f c).map (List.map e)) l = (outputs f l).map (List.map e)
  | [] => rfl
  | c :: l => by
    rw [outputs, outputs, outputs_map e l]
    rcases f c with _ | o
    · rfl
    · rcases outputs f l with _ | os
      · rfl
      · simp

theorem outputs_mono (h : ∀ c ∈ l, ∀ o, f c = some o → g c = some o)
    (ho : outputs f l = some out) : outputs g l = some out := by
  induction l generalizing out with
  | nil => exact ho
  | cons c l ih =>
    obtain ⟨o, os, hc, hos, rfl⟩ := outputs_cons.mp ho
    exact outputs_cons.mpr ⟨o, os, h c List.mem_cons_self o hc,
      ih (fun d hd => h d (List.mem_cons_of_mem c hd)) hos, rfl⟩

theorem exists_outputs : (∃ out, outputs f l = some out) ↔ ∀ c ∈ l, ∃ o, f c = some o := by
  induction l with
  | nil => simp [outputs]
  | cons c l ih =>
    rw [List.forall_mem_cons, ← ih]
    constructor
    · rintro ⟨out, h⟩
      obtain ⟨o, os, ho, hos, -⟩ := outputs_cons.mp h
      exact ⟨⟨o, ho⟩, os, hos⟩
    · rintro ⟨⟨o, ho⟩, os, hos⟩
      exact ⟨o ++ os, outputs_cons.mpr ⟨o, os, ho, hos, rfl⟩⟩

theorem mem_outputs (h : outputs f l = some out) {y : β} :
    y ∈ out ↔ ∃ c ∈ l, ∃ o, f c = some o ∧ y ∈ o := by
  induction l generalizing out with
  | nil =>
    cases h
    simp
  | cons c l ih =>
    obtain ⟨o, os, ho, hos, rfl⟩ := outputs_cons.mp h
    rw [List.mem_append, ih hos]
    simp [ho]

/-- **Nothing is put out twice** if no call puts anything out twice and different calls put out
different things. -/
theorem nodup_outputs {e : β → γ} (h : outputs f l = some out) (hl : l.Nodup)
    (ho : ∀ c ∈ l, ∀ o, f c = some o → (o.map e).Nodup)
    (hd : ∀ c ∈ l, ∀ c' ∈ l, ∀ o o', f c = some o → f c' = some o' → ∀ y ∈ o, ∀ y' ∈ o',
      e y = e y' → c = c') : (out.map e).Nodup := by
  induction l generalizing out with
  | nil =>
    cases h
    exact List.nodup_nil
  | cons c l ih =>
    obtain ⟨o, os, hc, hos, rfl⟩ := outputs_cons.mp h
    obtain ⟨hcl, hl⟩ := List.nodup_cons.mp hl
    rw [List.map_append, List.nodup_append]
    refine ⟨ho c List.mem_cons_self o hc,
      ih hos hl (fun d hd' => ho d (List.mem_cons_of_mem c hd')) fun d hd' d' hd'' =>
        hd d (List.mem_cons_of_mem c hd') d' (List.mem_cons_of_mem c hd''), ?_⟩
    rintro z hz z' hz' rfl
    obtain ⟨y, hy, rfl⟩ := List.mem_map.mp hz
    obtain ⟨y', hy', he⟩ := List.mem_map.mp hz'
    obtain ⟨d, hdl, o', ho', hy''⟩ := (mem_outputs hos).mp hy'
    obtain rfl := hd c List.mem_cons_self d (List.mem_cons_of_mem c hdl) o o' hc ho' y hy y' hy''
      he.symm
    exact hcl hdl

end Outputs

/-! ### Climbing -/

section Climb
variable {up : ρ → Option ρ} {a b c x : ρ} {m n : ℕ}

@[simp] theorem climb_zero : climb up 0 x = some x := rfl

theorem climb_add (m n : ℕ) (x : ρ) :
    climb up (m + n) x = (climb up n x).bind (climb up m) := by
  have hnone : ∀ k : ℕ, (fun o : Option ρ => o.bind up)^[k] none = none := fun k =>
    Function.iterate_fixed rfl k
  rw [climb, Function.iterate_add_apply]
  rcases h : climb up n x with _ | y
  · rw [show (fun o : Option ρ => o.bind up)^[n] (some x) = none from h, hnone]
    rfl
  · rw [show (fun o : Option ρ => o.bind up)^[n] (some x) = some y from h]
    rfl

theorem climb_succ_eq_some : climb up (n + 1) x = some a ↔ ∃ c, climb up n x = some c ∧
    up c = some a := by
  rw [Nat.add_comm, climb_add, Option.bind_eq_some_iff]
  rfl

theorem climb_succ : climb up (n + 1) x = (up x).bind (climb up n) := by
  rw [climb_add]
  rfl

/-- Two ancestors of one node: the one further up is an ancestor of the other. -/
theorem climb_sub (ha : climb up (m + n) x = some a) (hb : climb up n x = some b) :
    climb up m b = some a := by
  rw [climb_add, hb] at ha
  exact ha

/-- Round a cycle any number of times. -/
theorem climb_mul (h : climb up n a = some a) : ∀ k, climb up (k * n) a = some a
  | 0 => by rw [Nat.zero_mul, climb_zero]
  | k + 1 => by rw [Nat.succ_mul, climb_add, h, Option.bind_some, climb_mul h k]

/-- **A bound for the depth** below a node that is not its own ancestor: the nodes met on the way up
to it are different, and all of them have a parent. -/
theorem climb_le_length {L : List ρ} (hL : ∀ x q, up x = some q → x ∈ L)
    (ha : ∀ m, climb up (m + 1) a ≠ some a) (h : climb up m x = some a) : m ≤ L.length := by
  have hinj : ∀ i j y, i < j → j < m → climb up i x = some y → climb up j x ≠ some y := by
    intro i j y hij hjm hi hj
    have hai : climb up (m - i) y = some a :=
      climb_sub (n := i) (by rw [Nat.sub_add_cancel (by omega)]; exact h) hi
    have haj : climb up (m - j) y = some a :=
      climb_sub (n := j) (by rw [Nat.sub_add_cancel (Nat.le_of_lt hjm)]; exact h) hj
    rw [show m - i = (j - i - 1 + 1) + (m - j) by omega] at hai
    exact ha _ (climb_sub hai haj)
  have hmem : ∀ i < m, ∃ y ∈ L, climb up i x = some y := by
    intro i hi
    rcases hy : climb up (i + 1) x with _ | q
    · rw [show m = (m - (i + 1)) + (i + 1) by omega, climb_add, hy] at h
      cases h
    · obtain ⟨y, hiy, hq⟩ := climb_succ_eq_some.mp hy
      exact ⟨y, hL y q hq, hiy⟩
  have hnodup : ((List.range m).map fun i => climb up i x).Nodup := by
    refine List.Nodup.map_on (fun i hi j hj he => ?_) List.nodup_range
    rw [List.mem_range] at hi hj
    obtain ⟨y, -, hy⟩ := hmem i hi
    rcases Nat.lt_trichotomy i j with hij | hij | hij
    · exact absurd (he.symm.trans hy) (hinj i j y hij hj hy)
    · exact hij
    · exact absurd hy (hinj j i y hij hi (he.symm.trans hy))
  have hsub : ((List.range m).map fun i => climb up i x) ⊆ L.map some := by
    intro o ho
    obtain ⟨i, hi, rfl⟩ := List.mem_map.mp ho
    obtain ⟨y, hyL, hy⟩ := hmem i (List.mem_range.mp hi)
    rw [hy]
    exact List.mem_map_of_mem hyL
  have := (List.subperm_of_subset hnodup hsub).length_le
  rwa [List.length_map, List.length_map, List.length_range] at this

end Climb

/-! ### The walk -/

section Walk
variable {kids : ρ → List ρ} {up : ρ → Option ρ} {a : ρ} {d n : ℕ} {out : List (ρ × ℕ)}

theorem walk_succ : walk kids (n + 1) d a = some out ↔
    ∃ os, outputs (walk kids n (d + 1)) (kids a) = some os ∧ out = (a, d) :: os := by
  rw [walk, Option.map_eq_some_iff]
  simp only [eq_comm]

theorem walk_mono (h : walk kids n d a = some out) {k : ℕ} (hn : n ≤ k) :
    walk kids k d a = some out := by
  induction n generalizing d a out k with
  | zero => cases h
  | succ n ih =>
    obtain ⟨k, rfl⟩ := Nat.exists_eq_add_of_le' (Nat.lt_of_lt_of_le n.succ_pos hn)
    obtain ⟨os, hos, rfl⟩ := walk_succ.mp h
    exact walk_succ.mpr ⟨os, outputs_mono (fun c _ o ho => ih ho (by omega)) hos, rfl⟩

section Parent
variable (hk : ∀ a c, c ∈ kids a ↔ up c = some a)
include hk

/-- **When the walk returns.** -/
theorem walk_isSome_iff :
    (∃ out, walk kids n d a = some out) ↔ ∀ m x, climb up m x = some a → m < n := by
  induction n generalizing d a with
  | zero => exact ⟨fun ⟨_, h⟩ => (by cases h), fun h => absurd (h 0 a rfl) (Nat.lt_irrefl 0)⟩
  | succ n ih =>
    have hkids : (∃ out, walk kids (n + 1) d a = some out) ↔
        ∀ c ∈ kids a, ∃ o, walk kids n (d + 1) c = some o := by
      rw [← exists_outputs]
      constructor
      · rintro ⟨out, h⟩
        obtain ⟨os, hos, -⟩ := walk_succ.mp h
        exact ⟨os, hos⟩
      · rintro ⟨os, hos⟩
        exact ⟨(a, d) :: os, walk_succ.mpr ⟨os, hos, rfl⟩⟩
    rw [hkids]
    constructor
    · intro h m x hm
      rcases m with _ | m
      · exact n.succ_pos
      · obtain ⟨c, hc, hup⟩ := climb_succ_eq_some.mp hm
        exact Nat.succ_lt_succ (ih.mp (h c ((hk a c).mpr hup)) m x hc)
    · exact fun h c hc => ih.mpr fun m x hm =>
        Nat.lt_of_succ_lt_succ (h (m + 1) x (climb_succ_eq_some.mpr ⟨c, hm, (hk a c).mp hc⟩))

theorem mem_walk (h : walk kids n d a = some out) {y : ρ × ℕ} :
    y ∈ out ↔ ∃ m, climb up m y.1 = some a ∧ y.2 = d + m := by
  induction n generalizing d a out with
  | zero => cases h
  | succ n ih =>
    obtain ⟨os, hos, rfl⟩ := walk_succ.mp h
    rw [List.mem_cons, mem_outputs hos]
    constructor
    · rintro (rfl | ⟨c, hc, o, ho, hy⟩)
      · exact ⟨0, rfl, rfl⟩
      · obtain ⟨m, hm, he⟩ := (ih ho).mp hy
        exact ⟨m + 1, climb_succ_eq_some.mpr ⟨c, hm, (hk a c).mp hc⟩, by omega⟩
    · rintro ⟨m, hm, he⟩
      rcases m with _ | m
      · exact Or.inl (Prod.ext (Option.some.inj hm) he)
      · obtain ⟨c, hc, hup⟩ := climb_succ_eq_some.mp hm
        have hck := (hk a c).mpr hup
        obtain ⟨o, ho⟩ := exists_outputs.mp ⟨os, hos⟩ c hck
        exact Or.inr ⟨c, hck, o, ho, (ih ho).mpr ⟨m, hc, by omega⟩⟩

theorem climb_ne_self (h : walk kids n d a = some out) (m : ℕ) : climb up (m + 1) a ≠ some a := by
  intro hm
  have hlt := (walk_isSome_iff hk).mp ⟨out, h⟩ _ a (climb_mul hm n)
  exact absurd (Nat.le_mul_of_pos_right n m.succ_pos) (Nat.not_le_of_lt hlt)

theorem nodup_walk (hn : ∀ a, (kids a).Nodup) (h : walk kids n d a = some out) :
    (out.map Prod.fst).Nodup := by
  induction n generalizing d a out with
  | zero => cases h
  | succ n ih =>
    have hself := climb_ne_self hk h
    obtain ⟨os, hos, rfl⟩ := walk_succ.mp h
    rw [List.map_cons, List.nodup_cons]
    constructor
    · -- the node itself
      intro ha
      obtain ⟨y, hy, hya⟩ := List.mem_map.mp ha
      obtain ⟨c, hc, o, ho, hyo⟩ := (mem_outputs hos).mp hy
      obtain ⟨m, hm, -⟩ := (mem_walk hk ho).mp hyo
      rw [hya] at hm
      exact hself m (climb_succ_eq_some.mpr ⟨c, hm, (hk a c).mp hc⟩)
    · -- two children with a common descendant are one child
      have hle : ∀ c ∈ kids a, ∀ c' ∈ kids a, ∀ m k x, climb up m x = some c →
          climb up (k + m) x = some c' → c = c' := by
        intro c hc c' hc' m k x hm hkm
        have hcc' : climb up k c = some c' := climb_sub hkm hm
        rcases k with _ | k
        · exact Option.some.inj hcc'
        · rw [climb_succ, (hk a c).mp hc] at hcc'
          exact absurd (climb_succ_eq_some.mpr ⟨c', hcc', (hk a c').mp hc'⟩) (hself k)
      refine nodup_outputs hos (hn a) (fun c _ o ho => ih ho) ?_
      intro c hc c' hc' o o' ho ho' y hy y' hy' he
      obtain ⟨m, hm, -⟩ := (mem_walk hk ho).mp hy
      obtain ⟨m', hm', -⟩ := (mem_walk hk ho').mp hy'
      rw [← he] at hm'
      rcases Nat.le_total m m' with hmm | hmm
      · exact hle c hc c' hc' m (m' - m) y.1 hm (by rw [Nat.sub_add_cancel hmm]; exact hm')
      · exact (hle c' hc' c hc m' (m - m') y.1 hm' (by rw [Nat.sub_add_cancel hmm]; exact hm)).symm

end Parent

end Walk

end Serie.Lib.Preorder
