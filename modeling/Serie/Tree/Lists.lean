import Serie.Tree.Children

/-! # The child lists as lists

What the links are for: the children of a record are the records that were attached to it and not
detached since, the last one first (`attached`, a function of the calls alone). From records without
links, every sequence of calls of `atta_chil` and `deta_chil` as the handlers make them, a record
without a parent being attached and a record being detached from its parent, leaves exactly these
lists in the links, and every call returns `0` (`lists_of_calls`). -/

namespace Serie.Tree.Lists

open Serie.Lib.Trace Serie.Lib.Chain Serie.Lib.Intrusive Serie.Model.Record Serie.Model.Table
open Serie.Model.Conn Serie.Model.Steps Serie.Tree.Links Serie.Tree.Children

/-! ### The lists -/

/-- `atta_chil(pare, chil)`, or `deta_chil(chil->pare, chil)`. -/
inductive Call where
  | atta (pare chil : Ref)
  | deta (chil : Ref)
deriving DecidableEq, Repr

/-- **The records attached to `p` and not detached since**, the last one first. -/
def attached (p : Ref) : List Call → List Ref
  | [] => []
  | .atta q c :: later => attached p later ++ if q = p ∧ .deta c ∉ later then [c] else []
  | .deta _ :: later => attached p later

section Attached
variable {p q c : Ref}

theorem attached_atta : ∀ calls : List Call, attached p (calls ++ [.atta q c]) =
    if q = p then c :: attached p calls else attached p calls
  | [] => by simp [attached]
  | .atta q' c' :: later => by
    rw [List.cons_append, attached, attached_atta later, attached]
    split_ifs <;> simp_all
  | .deta _ :: later => by
    rw [List.cons_append, attached, attached_atta later, attached]

theorem attached_deta : ∀ calls : List Call, attached p (calls ++ [.deta c]) =
    (attached p calls).filter (· ≠ c)
  | [] => rfl
  | .atta q' c' :: later => by
    rw [List.cons_append, attached, attached_deta later, attached, List.filter_append]
    congr 1
    by_cases hc : c' = c
    · subst hc
      split_ifs <;> simp_all
    · have hne : Call.deta c' ≠ .deta c := by simpa using hc
      split_ifs <;> simp_all
  | .deta _ :: later => by
    rw [List.cons_append, attached, attached_deta later, attached]

theorem attached_deta_of_notMem {calls : List Call} (h : c ∉ attached p calls) :
    attached p (calls ++ [.deta c]) = attached p calls := by
  rw [attached_deta]
  refine List.filter_eq_self.mpr fun r hr => ?_
  have hrc : r ≠ c := by
    rintro rfl
    exact h hr
  simpa using hrc

end Attached

/-! ### The calls -/

/-- What a call does. -/
def Call.run (s : State) : Call → Outcome (ℤ × State)
  | .atta p c => .ret (attaChil (some p) (some c) s)
  | .deta c => detaChil (s.heap c).pare (some c) s

/-- The records of the call exist; a record that is attached has no parent, and is not attached to
itself; a record that is detached has one. -/
def Call.Allowed (s : State) : Call → Prop
  | .atta p c => p < s.next ∧ c < s.next ∧ p ≠ c ∧ (s.heap c).pare = none
  | .deta c => c < s.next ∧ (s.heap c).pare ≠ none

/-- An allowed call returns and leaves the state `t`. -/
def Made (s : State) (i : Call) (t : State) : Prop := i.Allowed s ∧ ∃ z, i.run s = .ret (z, t)

/-- No record has a link. -/
def Isolated (s : State) : Prop :=
  ∀ r < s.next, (s.heap r).pare = none ∧ (s.heap r).firsChil = none ∧ (s.heap r).nextSibl = none

/-- **The links are the lists** that the calls so far say. -/
structure Implements (s : State) (calls : List Call) (t : State) : Prop where
  next : t.next = s.next
  forest : Forest t.links {r | r < s.next} fun p => attached p calls
  no_self : ∀ c < s.next, (t.heap c).pare ≠ some c

/-- What detaching a record leaves of it: no parent, no sibling, and its children. -/
structure Alone (s : State) (c : Ref) (t : State) : Prop where
  pare : (t.heap c).pare = none
  nextSibl : (t.heap c).nextSibl = none
  kids : ∀ l, Kids s c l → Kids t c l

section Step
variable {s t : State} {calls : List Call} {tr : List (Call × State)} {p c : Ref}

theorem Isolated.implements (h : Isolated s) : Implements s [] s where
  next := rfl
  forest := {
    chain := fun p hp => (h p hp).2.1
    mem_iff := fun p _ c hc => by
      rw [show s.links.up c = none from (h c hc).1]
      simp [attached]
    kids_mem := fun p _ c hc => by cases hc
    up_mem := fun c hc p hp => by
      rw [show s.links.up c = none from (h c hc).1] at hp
      cases hp
    root := fun c hc _ => (h c hc).2.2 }
  no_self c hc := by
    rw [(h c hc).1]
    simp

theorem Implements.kids (h : Implements s calls t) (hp : p < s.next) :
    Kids t p (attached p calls) := h.forest.chain p hp

theorem Implements.mem_iff (h : Implements s calls t) (hp : p < s.next) (hc : c < s.next) :
    c ∈ attached p calls ↔ (t.heap c).pare = some p := h.forest.mem_iff p hp c hc

theorem Implements.atta (h : Implements s calls t) (ha : (Call.atta p c).Allowed t) :
    Implements s (calls ++ [.atta p c]) (attaChil (some p) (some c) t).2 := by
  obtain ⟨hp, hc, hne, hu⟩ := ha
  rw [h.next] at hp hc
  refine ⟨(attaChil_relinked _ _).next.trans h.next, ?_, fun r hr => ?_⟩
  · rw [attaChil_links hne]
    refine (h.forest.attach hp hc hu).congr_kids fun q _ => ?_
    rw [attached_atta, Function.update_apply]
    split_ifs with h1 h2 h2
    · rw [h1]
    · exact absurd h1.symm h2
    · exact absurd h2.symm h1
    · rfl
  · rw [attaChil_pare hne]
    split_ifs with hr
    · rw [hr]
      simpa using hne
    · exact h.no_self r ‹_›

theorem Implements.deta (h : Implements s calls t) (ha : (Call.deta c).Allowed t) :
    ∃ u, (Call.deta c).run t = .ret (0, u) ∧ Implements s (calls ++ [.deta c]) u ∧
      Alone t c u := by
  obtain ⟨hc, hu⟩ := ha
  rw [h.next] at hc
  obtain ⟨p, hp⟩ := Option.ne_none_iff_exists'.mp hu
  have hpL : p < s.next := h.forest.up_mem c hc p hp
  have hck : c ∈ attached p calls := (h.mem_iff hpL hc).mpr hp
  obtain ⟨u, hrun, hup, hforest⟩ := detaChil_of_mem h.forest
    (fun r hr => by rw [h.next]; exact hr) hpL hck
  have hlists : Forest u.links {r | r < s.next} fun q => attached q (calls ++ [.deta c]) := by
    refine hforest.congr_kids fun q hq => ?_
    rw [Function.update_apply]
    split_ifs with hqp
    · rw [attached_deta, hqp, (h.forest.nodup hpL).erase_eq_filter]
      exact List.filter_congr fun r _ => by rw [Bool.eq_iff_iff]; simp
    · exact attached_deta_of_notMem fun hm => hqp (h.forest.parent_unique hq hpL hm hck)
  have hpare : ∀ r, (u.heap r).pare = if r = c then none else (t.heap r).pare := fun r => by
    have := congrFun hup r
    rwa [Function.update_apply] at this
  have himpl : Implements s (calls ++ [.deta c]) u := by
    refine ⟨(detaChil_relinked hrun).next.trans h.next, hlists, fun r hr => ?_⟩
    rw [hpare]
    split_ifs
    · simp
    · exact h.no_self r hr
  have hnone : (u.heap c).pare = none := by rw [hpare, if_pos rfl]
  refine ⟨u, by rw [Call.run, hp]; exact hrun, himpl, hnone, hlists.root c hc hnone, fun l hl => ?_⟩
  -- the record is not on its own list
  have hself : c ∉ attached c calls := fun hm => h.no_self c hc ((h.mem_iff hc hc).mp hm)
  rw [IsChain.unique hl (h.kids hc), ← attached_deta_of_notMem hself]
  exact himpl.kids hc

/-- The call returns `0`, and a record that it detaches keeps its children only. -/
def Works (s : State) (i : Call) (t : State) : Prop :=
  i.run s = .ret (0, t) ∧ ∀ c, i = .deta c → Alone s c t

theorem Implements.works (h : Implements s calls t) {i : Call} (ha : i.Allowed t) :
    ∃ u, Works t i u ∧ Implements s (calls ++ [i]) u := by
  cases i with
  | atta p c =>
    refine ⟨(attaChil (some p) (some c) t).2, ⟨?_, fun c hc => by cases hc⟩, h.atta ha⟩
    rw [Call.run, ← attaChil_of_ne (s := t) ha.2.2.1]
  | deta c =>
    obtain ⟨u, hu, hi, hd⟩ := h.deta ha
    refine ⟨u, ⟨hu, fun d hd' => ?_⟩, hi⟩
    cases hd'
    exact hd

theorem implements_of_steps (h0 : Isolated s) (h : Steps Made s tr) :
    Implements s (tr.map Prod.fst) (final s tr) ∧ Steps Works s tr := by
  refine Steps.history (K := fun tr => Implements s (tr.map Prod.fst) (final s tr) ∧
    Steps Works s tr) ⟨h0.implements, steps_nil⟩ (fun tr i t _ hk hm => ?_) h
  obtain ⟨ha, z, hz⟩ := hm
  obtain ⟨u, hu, hi⟩ := hk.1.works ha
  rw [hu.1] at hz
  cases hz
  rw [List.map_append, final_concat]
  exact ⟨hi, steps_concat.mpr ⟨hk.2, hu⟩⟩

/-- **The child lists implement lists.** -/
theorem lists_of_calls (h0 : Isolated s) (h : Steps Made s tr) :
    (∀ p < s.next, Kids (final s tr) p (attached p (tr.map Prod.fst))) ∧
    (∀ c < s.next, (∀ p < s.next, c ∉ attached p (tr.map Prod.fst)) →
      ((final s tr).heap c).pare = none ∧ ((final s tr).heap c).nextSibl = none) ∧
    Steps Works s tr ∧
    ∀ i : Call, i.Allowed (final s tr) → ∃ t, Works (final s tr) i t := by
  obtain ⟨hi, hw⟩ := implements_of_steps h0 h
  refine ⟨fun p hp => hi.kids hp, fun c hc hno => ?_, hw, fun i ha => ?_⟩
  · have hnone : ((final s tr).heap c).pare = none := by
      by_contra hne
      obtain ⟨p, hp⟩ := Option.ne_none_iff_exists'.mp hne
      have hpL : p < s.next := hi.forest.up_mem c hc p hp
      exact hno p hpL ((hi.mem_iff hpL hc).mpr hp)
    exact ⟨hnone, hi.forest.root c hc hnone⟩
  · obtain ⟨t, ht, -⟩ := hi.works ha
    exact ⟨t, ht⟩

end Step

/-! ### A run -/

/-- Three records without links. -/
def three : State := { init with next := 3 }

/-- Two children are attached to the record 0, the first is detached again. -/
def threeRun : List (Call × State) :=
  let t₁ := (attaChil (some 0) (some 1) three).2
  let t₂ := (attaChil (some 0) (some 2) t₁).2
  [(.atta 0 1, t₁), (.atta 0 2, t₂), (.deta 1, linkOff 2 1 t₂)]

theorem isolated_three : Isolated three := fun _ _ => ⟨rfl, rfl, rfl⟩

theorem steps_threeRun : Steps Made three threeRun := by
  refine ⟨⟨⟨by decide, by decide, by decide, rfl⟩, 0, rfl⟩,
    ⟨⟨by decide, by decide, by decide, rfl⟩, 0, rfl⟩, ⟨⟨by decide, ?_⟩, 0, rfl⟩, trivial⟩
  simp [attaChil_pare]

theorem lists_of_calls_three : attached 0 (threeRun.map Prod.fst) = [2] ∧
    Kids (final three threeRun) 0 (attached 0 (threeRun.map Prod.fst)) :=
  ⟨by decide, (lists_of_calls isolated_three steps_threeRun).1 0 (by decide)⟩

end Serie.Tree.Lists
