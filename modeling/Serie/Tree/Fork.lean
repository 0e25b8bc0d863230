import Serie.Tree.Children

/-! # `even_fork` is all or nothing

A fork that returns `0` has made a new record for the child, in front of the children of the record
of the parent (`Forked`); one that returns `-1` has left every record as it was and at most added a
record for the parent (`Unforked`). It always returns one of the two, and the lookups of all other
pids stay (`forks_of_run`). -/

namespace Serie.Tree.Fork

open Serie.Lib.Trace Serie.Lib.Chain Serie.Model.Record Serie.Model.Table Serie.Model.Conn
open Serie.Model.Steps Serie.Model.Runs Serie.Tree.Invariant Serie.Tree.Children

variable {s t u : State} {q c : Pid} {p : Ref} {m : List Ref} {w : World}

/-- The record `p`, with the children `m`, is the one of the pid `q` before the fork, or, when there
was none, one that the fork has loaded. -/
def IsPare (s : State) (q : Pid) (w : World) (t : State) (p : Ref) (m : List Ref) : Prop :=
  (procLook s q = some p ∧ Kids s p m) ∨
    (procLook s q = none ∧ s.next ≤ p ∧ p ∈ t.tracked ∧ (t.heap p).pid = q ∧
      (t.heap p).alive = true ∧ canLoad w q = true ∧ m = [])

/-- From `s` to `t` the child `c` of `q` was made, found for its pid, with the time of the event, in
front of the children of its parent. -/
def Forked (s : State) (q c : Pid) (ts : ℕ) (w : World) (t : State) : Prop :=
  ∃ r p m, procLook t c = some r ∧ s.next ≤ r ∧ r ∉ s.tracked ∧
    (t.heap r).birthTime = splitNs ts ∧ IsPare s q w t p m ∧ Kids t p (r :: m)

/-- From `s` to `t` no record changed, and the table got at most a record of `q`, which was not in
it: one that was loaded and has no links. -/
structure Unforked (s : State) (q : Pid) (w : World) (t : State) : Prop where
  heap : ∀ r < s.next, t.heap r = s.heap r
  kids : ∀ r ∈ s.tracked, ∀ m, Kids s r m → Kids t r m
  buckets : t.buckets = s.buckets ∨ procLook s q = none ∧ ∃ p, s.next ≤ p ∧
    IsLoad q (w.files q) (t.heap p) ∧
    t.buckets = Function.update s.buckets (procHash q) (p :: s.buckets (procHash q))

theorem kids_of_heap (h : Sound s) (hh : ∀ r < s.next, t.heap r = s.heap r) {r : Ref}
    (hr : r ∈ s.tracked) (hk : Kids s r m) : Kids t r m := by
  refine hk.congr ?_ fun x hx => ?_
  · rw [hh r (h.lt_next r hr)]
  · rw [hh x (h.lt_next x ((mem_kids_iff h hr hk).mp hx).1)]

theorem procLook_found (h : Sound s) (hf : Found q w s p t) {a : Pid} (ha : a ≠ q) :
    procLook t a = procLook s a := by
  cases hf with
  | old => rfl
  | new _ _ hx hadd => rw [hadd.procLook h.lt_next, hx.pid, if_neg ha.symm]

theorem procLook_quiet (h : Sound s) (hq : Quiet s t) (a : Pid) : procLook t a = procLook s a :=
  procLook_congr hq.buckets fun r hr => by rw [hq.heap r (h.lt_next r hr)]

/-- A failure after the parent was found leaves what was found. -/
theorem unforked_of_found (h : Sound s) (hf : Found q w s p u) (hq : Quiet u t) :
    Unforked s q w t := by
  have hheap : ∀ r < s.next, t.heap r = s.heap r := by
    intro r hr
    cases hf with
    | old => exact hq.heap r hr
    | new _ _ _ ha =>
      rw [hq.heap r (by rw [ha.next]; exact Nat.lt_succ_of_lt hr), ha.heap,
        Function.update_of_ne hr.ne]
  refine ⟨hheap, fun r hr m => kids_of_heap h hheap hr, ?_⟩
  cases hf with
  | old => exact Or.inl hq.buckets
  | new hn hc hx ha =>
    have hself : t.heap s.next = u.heap s.next :=
      hq.heap _ (by rw [ha.next]; exact Nat.lt_succ_self _)
    refine Or.inr ⟨hn, s.next, le_rfl, ?_, ?_⟩
    · rw [hself, ha.heap, Function.update_self]
      exact hx
    · rw [hq.buckets, ha.buckets, hx.pid]

theorem isPare_of_found (h : Sound s) (hf : Found q w s p u) :
    ∃ m, Kids u p m ∧ (procLook s q = some p ∧ Kids s p m ∨
      procLook s q = none ∧ p = s.next ∧ canLoad w q = true ∧ m = []) := by
  cases hf with
  | old hl =>
    obtain ⟨m, hm, -⟩ := exists_kids h (procLook_some hl).1
    exact ⟨m, hm, Or.inl ⟨hl, hm⟩⟩
  | new hn hc hx ha =>
    have hf : (u.heap s.next).firsChil = none := by
      rw [ha.heap, Function.update_self]
      exact hx.firsChil
    exact ⟨[], hf, Or.inr ⟨hn, rfl, hc, rfl⟩⟩

theorem forked_of_found {ts : ℕ} {f : Files} {y : Proc} {v : State} (h : Sound s)
    (hf : Found q w s p u) (hy : IsLoad c f y)
    (ha : Adds u { y with birthTime := splitNs ts } v) :
    Forked s q c ts w (attaChil (some p) (some u.next) v).2 := by
  obtain ⟨hu, hpu, hsub, -⟩ := h.found hf
  have hle : s.next ≤ u.next := by
    cases hf with
    | old => exact le_rfl
    | new _ _ _ hx => rw [hx.next]; exact Nat.le_succ _
  have hplt : p < u.next := hu.lt_next p hpu
  obtain ⟨m, hm, hpare⟩ := isPare_of_found h hf
  have hmlt : ∀ r ∈ m, r < u.next := fun r hr => hu.lt_next r ((mem_kids_iff hu hpu hm).mp hr).1
  have hmv : Kids v p m := by
    refine hm.congr ?_ fun r hr => ?_
    · rw [ha.heap, Function.update_of_ne hplt.ne]
    · rw [ha.heap, Function.update_of_ne (hmlt r hr).ne]
  have hrel : Relinked v (attaChil (some p) (some u.next) v).2 := attaChil_relinked _ _
  have hnew : u.next ∉ m := fun hr => (hmlt _ hr).ne rfl
  refine ⟨u.next, p, m, ?_, hle, fun hr => ?_, ?_, ?_, hmv.attach hplt.ne hnew⟩
  · rw [hrel.procLook, ha.procLook hu.lt_next]
    exact if_pos hy.pid
  · exact absurd (h.lt_next _ hr) (not_lt.mpr hle)
  · rw [hrel.field Proc.birthTime (fun _ => rfl), ha.heap, Function.update_self]
  · rcases hpare with hold | ⟨hn, hps, hc, hnil⟩
    · exact Or.inl hold
    · have hvp : v.heap p = u.heap p := by rw [ha.heap, Function.update_of_ne hplt.ne]
      refine Or.inr ⟨hn, hps.ge, ?_, ?_, ?_, hc, hnil⟩
      · rw [hrel.tracked, ha.tracked]
        exact Or.inr hpu
      · rw [hrel.pid, hvp]
        exact hf.pid
      · rw [hrel.alive, hvp]
        exact hf.alive fun hl => by rw [hn] at hl; cases hl

theorem procLook_forked {ts : ℕ} {f : Files} {y : Proc} {v : State} (h : Sound s)
    (hf : Found q w s p u) (hy : IsLoad c f y)
    (ha : Adds u { y with birthTime := splitNs ts } v) {a : Pid} (haq : a ≠ q) (hac : a ≠ c) :
    procLook (attaChil (some p) (some u.next) v).2 a = procLook s a := by
  have hyc : ¬ y.pid = a := by rw [hy.pid]; exact hac.symm
  rw [(attaChil_relinked _ _).procLook, ha.procLook (h.found hf).1.lt_next, if_neg hyc]
  exact procLook_found h hf haq

/-- **`even_fork` is all or nothing**, in every state of every run. -/
theorem forks_of_run {tr : List (Input × State)} (hr : Steps Step init tr) (q c : Pid) (ts : ℕ)
    (w : ℕ → World) :
    ∃ x t, evenFork q c ts w (final init tr) = .ret (x, t) ∧
      (x = 0 ∧ Forked (final init tr) q c ts (w 0) t ∨
        x = -1 ∧ Unforked (final init tr) q (w 0) t) ∧
      ∀ a, a ≠ q → a ≠ c → procLook t a = procLook (final init tr) a := by
  have h := sound_final hr
  obtain ⟨⟨x, t⟩, he⟩ := h.evenFork_returns q c ts w
  refine ⟨x, t, he, ?_⟩
  rcases evenFork_spec h.lt_next he with ⟨hx, hn, hc, hq⟩ | ⟨p, u, hf, ⟨hx, hc, hq⟩ |
    ⟨hx, hc, y, v, hy, ha, ht⟩⟩
  · -- the parent could not be loaded, or its node not be allocated
    refine ⟨Or.inr ⟨hx, hq.heap, fun r hr m => kids_of_heap h hq.heap hr, Or.inl hq.buckets⟩, ?_⟩
    exact fun a _ _ => procLook_quiet h hq a
  · -- the child could not be loaded, or its node not be allocated
    refine ⟨Or.inr ⟨hx, unforked_of_found h hf hq⟩, fun a haq _ => ?_⟩
    rw [procLook_quiet (h.found hf).1 hq, procLook_found h hf haq]
  · rw [ht]
    exact ⟨Or.inl ⟨hx, forked_of_found h hf hy ha⟩,
      fun a haq hac => procLook_forked h hf hy ha haq hac⟩

theorem forks_of_run_adopted :
    ∃ x t, evenFork 7 8 0 (answers [(7, ['1']), (8, ['7'])])
        (final init (trace 2 init adopted)) = .ret (x, t) ∧
      (x = 0 ∧ Forked (final init (trace 2 init adopted)) 7 8 0
          (answers [(7, ['1']), (8, ['7'])] 0) t ∨
        x = -1 ∧ Unforked (final init (trace 2 init adopted)) 7
          (answers [(7, ['1']), (8, ['7'])] 0) t) ∧
      ∀ a, a ≠ 7 → a ≠ 8 → procLook t a = procLook (final init (trace 2 init adopted)) a :=
  forks_of_run adopted_steps 7 8 0 _

end Serie.Tree.Fork
