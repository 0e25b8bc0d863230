import Serie.Model.Runs
import Serie.Tree.Invariant

/-! # The shape of the table and the tree

What the invariant says in terms of the links themselves: every record of the table is in its bucket
and no other, once; the list of children of a record ends and holds exactly the records whose `pare`
it is; no link leads out of the table. It holds after every event of every run
(`treeOk_of_run`). -/

namespace Serie.Tree.Shape

open Serie.Lib.Trace Serie.Lib.Chain Serie.Lib.Intrusive Serie.Model.Record Serie.Model.Table
open Serie.Model.Conn Serie.Model.Runs Serie.Tree.Invariant

/-- The shape of the table and the tree. -/
structure TreeOk (s : State) : Prop where
  bucket : ∀ r ∈ s.tracked, ∀ b,
    (s.buckets b).count r = if b = procHash (s.heap r).pid then 1 else 0
  chain : ∀ p ∈ s.tracked, ∃ l, IsChain (fun r => (s.heap r).nextSibl) (s.heap p).firsChil l ∧
    l.Nodup ∧ ∀ c, c ∈ l ↔ c ∈ s.tracked ∧ (s.heap c).pare = some p
  root : ∀ c ∈ s.tracked, (s.heap c).pare = none → (s.heap c).nextSibl = none
  pare_mem : ∀ c ∈ s.tracked, ∀ p, (s.heap c).pare = some p → p ∈ s.tracked
  firsChil_mem : ∀ p ∈ s.tracked, ∀ c, (s.heap p).firsChil = some c → c ∈ s.tracked
  nextSibl_mem : ∀ c ∈ s.tracked, ∀ d, (s.heap c).nextSibl = some d → d ∈ s.tracked

theorem count_bucket {s : State} (h : Sound s) {r : Ref} (hr : r ∈ s.tracked) (b : ℕ) :
    (s.buckets b).count r = if b = procHash (s.heap r).pid then 1 else 0 := by
  obtain ⟨a, ha⟩ := hr
  have hhome := h.home a r ha
  split_ifs with hb
  · rw [hb, hhome]
    exact List.count_eq_one_of_mem (h.nodup a) ha
  · exact List.count_eq_zero_of_not_mem fun hm => hb (h.home b r hm).symm

theorem treeOk_of_sound {s : State} (h : Sound s) : TreeOk s := by
  obtain ⟨kids, hk⟩ := h.forest
  refine ⟨fun r hr => count_bucket h hr, fun p hp => ?_, hk.root, hk.up_mem, fun p hp c hf => ?_,
    fun c hc d hn => ?_⟩
  · refine ⟨kids p, hk.chain p hp, hk.nodup hp, fun c => ⟨fun hc => ?_, fun ⟨hc, hu⟩ => ?_⟩⟩
    · exact ⟨hk.kids_mem p hp c hc, hk.up_of_mem hp hc⟩
    · exact (hk.mem_iff p hp c hc).mpr hu
  · exact hk.kids_mem p hp c (hk.first_mem hp hf)
  · obtain ⟨p, hp, hd, -⟩ := hk.up_next hc hn
    exact hk.kids_mem p hp d hd

/-- **The tree has its shape after every event of a run**, and no handler of a further event reads
through a null pointer. -/
theorem treeOk_of_run {tr : List (Input × State)} (hr : Steps Step init tr) :
    (∀ x ∈ tr, TreeOk x.2) ∧
      ∀ fuel even w, readEven fuel even w (final init tr) ≠ .crash :=
  ⟨fun x hx => treeOk_of_sound (sound_of_run hr x hx), (sound_final hr).readEven_ne_crash⟩

theorem treeOk_of_run_adopted : (∀ x ∈ trace 2 init adopted, TreeOk x.2) ∧
    ∀ fuel even w, readEven fuel even w (final init (trace 2 init adopted)) ≠ .crash :=
  treeOk_of_run adopted_steps

end Serie.Tree.Shape
