import Serie.Fd.Renewal
import Serie.Tree.Rehome

/-! # The children of a dead record, handed over

When nothing fails, `even_exit` is a hand-over: the dead record ends up without parent and children,
and every other record has, in front of the children it had, those that report its pid, the last one
first (`takenIn`). Each missing parent is loaded once (`HandedOver`). One turn moves one child
(`Moved`); the loop is their composition (`exitLoop_handed`). Every turn also refreshes its child,
which frees as many slots as the size that is read, and so the exit is in order exactly if the paths
of all children can be given up (`handsOver_iff`). -/

namespace Serie.Tree.Handover

open Serie.Lib.CText Serie.Lib.Trace Serie.Lib.Chain Serie.Lib.Intrusive Serie.Model.Record
open Serie.Model.Table Serie.Model.Conn Serie.Model.Steps Serie.Model.Loop Serie.Model.Runs
open Serie.Fd.Clean Serie.Fd.Ownership Serie.Fd.Renewal
open Serie.Tree.Invariant Serie.Tree.Links Serie.Tree.Children Serie.Tree.Orphans Serie.Tree.Rehome

/-- The children in `l` that the record `r` takes in: those whose reported parent it is in `t`, the
last one first. The first child of `l` is refreshed in visit `k`. -/
def takenIn (w : ℕ → World) (s t : State) (r : Ref) : ℕ → List Ref → List Ref
  | _, [] => []
  | k, c :: l => takenIn w s t r (k + 1) l ++
      if (reported (w k) s c).bind (procLook t) = some r then [c] else []

/-- The pid `a` has no record and is reported by a child in `l`. -/
def Missing (w : ℕ → World) (k : ℕ) (s : State) (l : List Ref) (a : Pid) : Prop :=
  procLook s a = none ∧ ∃ i c, l[i]? = some c ∧ reported (w (k + i)) s c = some a

/-- The paths of every child in `l` can be given up in its refresh. -/
def AllRenewable (w : ℕ → World) (k : ℕ) (s : State) (l : List Ref) : Prop :=
  ∀ i c, l[i]? = some c → Renewable (s.heap c) ((w (k + i)).files (s.heap c).pid)

/-! ### One turn -/

/-- The child `c` of `d` moved in front of the children of `p`, the record of the pid `a`, which was
loaded if there was none. -/
structure Moved (d c p : Ref) (a : Pid) (s t : State) : Prop where
  look : procLook t a = some p
  kids : ∀ r ∈ s.tracked, r ≠ d → ∀ m, Kids s r m → Kids t r ((if p = r then [c] else []) ++ m)
  new : ∀ r ∈ t.tracked, r ∉ s.tracked → r = p ∧ Kids t r [c]
  buckets : t.buckets = s.buckets ∨ procLook s a = none ∧ p ∉ s.tracked ∧
    t.buckets = Function.update s.buckets (procHash a) (p :: s.buckets (procHash a))

section Turn
variable {s t : State} {d c p r : Ref} {a : Pid} {l m : List Ref} {w : World}

theorem kids_orphaned_of_ne (h : Kids s r m) (hr : r ≠ d) (hc : c ∉ m) :
    Kids (orphaned d c w s).2 r m := by
  have hl : (orphaned d c w s).2.links = s.links.detachHead d c := orphaned_links
  change IsChain (orphaned d c w s).2.links.next ((orphaned d c w s).2.links.first r) m
  rw [hl]
  simp only [Links.detachHead, Function.update_of_ne hr]
  exact IsChain.update hc h

theorem exitTurn_found (h : InLoop d s) (hf : (s.heap d).firsChil = some c)
    (ha : reported w s c = some a) (ht : exitTurn d c w s = .ret (0, t)) :
    ∃ p v, p ≠ c ∧ Found a w (orphaned d c w s).2 p v ∧
      t = (attaChil (some p) (some c) v).2 := by
  have hclt := h.sound.lt_next c (h.sound.firsChil h.mem hf).1
  rcases exitTurn_spec (w := w) hf hclt with ⟨-, he⟩ | ⟨g, hr, hg, ⟨-, he⟩ | ⟨v, -, -, -, he⟩ |
    ⟨p, v, hpc, hfd, he⟩⟩ <;> rw [ht] at he <;> cases he
  have hga : g.ppid = a := by
    rw [reported, if_pos hr, hg] at ha
    exact Option.some.inj ha
  exact ⟨p, v, hpc, hga ▸ hfd, rfl⟩

theorem kids_found_of_ne (h : InLoop d s) (hf : (s.heap d).firsChil = some c) {v : State}
    (hfd : Found a w (orphaned d c w s).2 p v) (hr : r ∈ s.tracked) (hrd : r ≠ d)
    (hm : Kids s r m) : c ∉ m ∧ Kids v r m := by
  have hun : (orphaned d c w s).2.next = s.next := orphaned_next
  have hmem : ∀ x ∈ m, x ∈ s.tracked ∧ (s.heap x).pare = some r := fun x hx =>
    (mem_kids_iff h.sound hr hm).mp hx
  have hcm : c ∉ m := by
    intro hc
    have hcr := (hmem c hc).2
    rw [(h.sound.firsChil h.mem hf).2.1] at hcr
    exact hrd (Option.some.inj hcr).symm
  refine ⟨hcm, (kids_orphaned_of_ne hm hrd hcm).found hfd ?_ fun x hx => ?_⟩
  · rw [hun]
    exact h.sound.lt_next r hr
  · rw [hun]
    exact h.sound.lt_next x (hmem x hx).1

theorem exitTurn_moved (h : InLoop d s) (hk : Kids s d (c :: l)) (ha : reported w s c = some a)
    (ht : exitTurn d c w s = .ret (0, t)) : ∃ p, Moved d c p a s t := by
  have hf : (s.heap d).firsChil = some c := hk.1
  obtain ⟨hus, hut, -⟩ := h.sound.orphan h.mem hf w
  obtain ⟨p, v, hpc, hfd, rfl⟩ := exitTurn_found h hf ha ht
  have hrel : Relinked v (attaChil (some p) (some c) v).2 := attaChil_relinked _ _
  refine ⟨p, ?_, fun r hr hrd m hm => ?_, fun r hr hrs => ?_, ?_⟩
  · rw [hrel.procLook]
    exact hfd.procLook hus.lt_next
  · obtain ⟨hcm, hv⟩ := kids_found_of_ne h hf hfd hr hrd hm
    by_cases hpr : p = r
    · subst hpr
      rw [if_pos rfl]
      exact hv.attach hpc hcm
    · rw [if_neg hpr]
      exact hv.attach_of_ne hpr hpc hcm
  · rw [hrel.tracked] at hr
    cases hfd with
    | old => exact absurd (hut ▸ hr) hrs
    | new _ _ hx hadd =>
      rw [hadd.tracked, hut] at hr
      obtain rfl := hr.resolve_right hrs
      have hnil : Kids v (orphaned d c w s).2.next [] := by
        have hfirst : (v.heap (orphaned d c w s).2.next).firsChil = none := by
          rw [hadd.heap, Function.update_self]
          exact hx.firsChil
        exact hfirst
      exact ⟨rfl, hnil.attach hpc List.not_mem_nil⟩
  · rw [hrel.buckets]
    cases hfd with
    | old => exact Or.inl rfl
    | new hn _ hx hadd =>
      refine Or.inr ⟨(procLook_orphaned a).symm.trans hn, fun hp => ?_, ?_⟩
      · rw [orphaned_next] at hp
        exact absurd (h.sound.lt_next _ hp) (lt_irrefl _)
      · rw [hadd.buckets, hx.pid]
        rfl

end Turn

/-! ### The loop -/

/-- In front of the bucket `b` are new records, of different pids, all of them missing before. -/
def Inserts (w : ℕ → World) (k : ℕ) (s : State) (l : List Ref) (t : State) (b : ℕ) : Prop :=
  ∃ new, t.buckets b = new ++ s.buckets b ∧ (new.map fun r => (t.heap r).pid).Nodup ∧
    ∀ r ∈ new, r ∉ s.tracked ∧ Missing w k s l (t.heap r).pid

/-- What the loop has done when it has gone through the children `l` of `d`. -/
structure Handed (w : ℕ → World) (k : ℕ) (s : State) (d : Ref) (l : List Ref) (t : State) :
    Prop where
  dead : bare (t.heap d) = bare (s.heap d) ∧ (t.heap d).pare = (s.heap d).pare
  barren : Kids t d []
  tracked : s.tracked ⊆ t.tracked
  pid : ∀ r ∈ s.tracked, (t.heap r).pid = (s.heap r).pid
  look : ∀ a r, procLook s a = some r → procLook t a = some r
  found : ∀ i c a, l[i]? = some c → reported (w (k + i)) s c = some a → ∃ r, procLook t a = some r
  old : ∀ r ∈ s.tracked, r ≠ d → ∀ m, Kids s r m → Kids t r (takenIn w s t r k l ++ m)
  new : ∀ r ∈ t.tracked, r ∉ s.tracked → Kids t r (takenIn w s t r k l)
  buckets : ∀ b, Inserts w k s l t b
  grows : s.strs.faults <:+ t.strs.faults
  faults : t.strs.faults = s.strs.faults ↔ AllRenewable w k s l

section Loop
variable {s t v : State} {d c p r : Ref} {a : Pid} {q : Pid} {l : List Ref} {w : ℕ → World} {k : ℕ}

theorem takenIn_congr {t' : State} {k' : ℕ}
    (h : ∀ i c, l[i]? = some c → reported (w (k + i)) s c = reported (w (k' + i)) v c)
    (hl : ∀ a, procLook t a = procLook t' a) : takenIn w s t r k l = takenIn w v t' r k' l := by
  induction l generalizing k k' with
  | nil => rfl
  | cons c l ih =>
    have h0 : reported (w k) s c = reported (w k') v c := h 0 c rfl
    have hrest : takenIn w s t r (k + 1) l = takenIn w v t' r (k' + 1) l := by
      refine ih fun i b hb => ?_
      have := h (i + 1) b (by simpa using hb)
      rwa [show k + (i + 1) = k + 1 + i by omega, show k' + (i + 1) = k' + 1 + i by omega] at this
    rw [takenIn, takenIn, h0, hrest, show procLook t = procLook t' from funext hl]

theorem Missing.of_turn {x : ℤ} (h : InLoop d s) (hk : Kids s d (c :: l))
    (ht : exitTurn d c (w k) s = .ret (x, v)) (hm : Missing w (k + 1) v l a) :
    Missing w k s (c :: l) a := by
  obtain ⟨hn, i, b, hb, hr⟩ := hm
  refine ⟨?_, i + 1, b, by simpa using hb, by rwa [reported_later h hk ht hb] at hr⟩
  rcases hl : procLook s a with _ | r
  · rfl
  · rw [procLook_turn h hk.1 ht hl] at hn
    cases hn

theorem takenIn_cons (h : InLoop d s) (hk : Kids s d (c :: l)) (ha : reported (w k) s c = some a)
    (ht : exitTurn d c (w k) s = .ret (0, v)) (hl : procLook t a = some p) (r : Ref) :
    takenIn w s t r k (c :: l) = takenIn w v t r (k + 1) l ++ if p = r then [c] else [] := by
  have hrest : takenIn w s t r (k + 1) l = takenIn w v t r (k + 1) l :=
    takenIn_congr (fun i b hb => by
      rw [reported_later h hk ht hb, show k + (i + 1) = k + 1 + i by omega]) fun _ => rfl
  rw [takenIn, hrest, ha, Option.bind_some, hl]
  simp only [Option.some.injEq]

/-- The record that a turn has loaded is another one than those loaded later. -/
theorem inserts_cons (h : InLoop d s) (hk : Kids s d (c :: l)) (ha : reported (w k) s c = some a)
    (ht : exitTurn d c (w k) s = .ret (0, v)) (hm : Moved d c p a s v)
    (hl : procLook t a = some p) {b : ℕ} (hi : Inserts w (k + 1) v l t b) :
    Inserts w k s (c :: l) t b := by
  obtain ⟨new, hb, hnd, hnew⟩ := hi
  have hsv : s.tracked ⊆ v.tracked := (h.sound.exitTurn h.mem hk.1 ht).2
  have hold : ∀ r ∈ new, r ∉ s.tracked ∧ Missing w k s (c :: l) (t.heap r).pid := fun r hr =>
    ⟨fun hs => (hnew r hr).1 (hsv hs), (hnew r hr).2.of_turn h hk ht⟩
  have hskip : v.buckets b = s.buckets b → Inserts w k s (c :: l) t b := fun he =>
    ⟨new, by rw [hb, he], hnd, hold⟩
  rcases hm.buckets with he | ⟨hn, hps, he⟩
  · exact hskip (by rw [he])
  by_cases hba : b = procHash a
  · subst hba
    rw [he, Function.update_self] at hb
    have hpid : (t.heap p).pid = a := (procLook_some hl).2
    refine ⟨new ++ [p], by rw [hb, List.append_assoc]; rfl, ?_, fun r hr => ?_⟩
    · rw [List.map_append, List.nodup_append]
      refine ⟨hnd, List.nodup_singleton _, fun x hx y hy => ?_⟩
      obtain ⟨r, hr, rfl⟩ := List.mem_map.mp hx
      obtain rfl : y = (t.heap p).pid := by simpa using hy
      intro hxy
      have hmiss := (hnew r hr).2.1
      rw [hxy, hpid, hm.look] at hmiss
      cases hmiss
    · rcases List.mem_append.mp hr with hr | hr
      · exact hold r hr
      · obtain rfl := List.mem_singleton.mp hr
        rw [hpid]
        exact ⟨hps, hn, 0, c, rfl, ha⟩
  · exact hskip (by rw [he, Function.update_of_ne hba])

/-- The first child, and the others after its turn, which leaves their paths alone. -/
theorem allRenewable_cons {x : ℤ} (h : InLoop d s) (hk : Kids s d (c :: l))
    (ht : exitTurn d c (w k) s = .ret (x, v)) : AllRenewable w k s (c :: l) ↔
      Renewable (s.heap c) ((w k).files (s.heap c).pid) ∧ AllRenewable w (k + 1) v l := by
  have hh := exitTurn_handed hk.1 (h.sound.lt_next c (h.sound.firsChil h.mem hk.1).1) ht
  have hcl : c ∉ l := (List.nodup_cons.mp (IsChain.nodup hk)).1
  have hrest : ∀ i b, l[i]? = some b →
      (Renewable (v.heap b) ((w (k + 1 + i)).files (v.heap b).pid) ↔
        Renewable (s.heap b) ((w (k + (i + 1))).files (s.heap b).pid)) := fun i b hb => by
    have hbl : b ∈ l := List.mem_of_getElem? hb
    have hbc : b ≠ c := fun he => hcl (he ▸ hbl)
    have hbn : b < s.next := kids_lt h hk (List.mem_cons_of_mem c hbl)
    rw [Renewable, Renewable, hh.other_field Proc.fdPaths (fun _ => rfl) hbn hbc,
      hh.other_field Proc.pid (fun _ => rfl) hbn hbc, show k + 1 + i = k + (i + 1) by omega]
  constructor
  · exact fun hall => ⟨hall 0 c rfl, fun i b hb =>
      (hrest i b hb).mpr (hall (i + 1) b (by simpa using hb))⟩
  · rintro ⟨hc, hall⟩ (_ | i) b hb
    · obtain rfl : c = b := by simpa using hb
      exact hc
    · have hb' : l[i]? = some b := by simpa using hb
      exact (hrest i b hb').mp (hall i b hb')

theorem Handed.cons (h : InLoop d s) (hk : Kids s d (c :: l)) (ha : reported (w k) s c = some a)
    (ht : exitTurn d c (w k) s = .ret (0, v)) (hm : Moved d c p a s v) (hpd : p ≠ d)
    (hh : Handed w (k + 1) v d l t) : Handed w k s d (c :: l) t := by
  have hf : (s.heap d).firsChil = some c := hk.1
  have hct := (h.sound.firsChil h.mem hf).1
  have hdc : d ≠ c := (h.sound.ne_firsChil h.mem hf).symm
  have hsv : s.tracked ⊆ v.tracked := (h.sound.exitTurn h.mem hf ht).2
  have hlast : procLook t a = some p := hh.look a p hm.look
  have htaken := takenIn_cons h hk ha ht hlast
  constructor
  · have hd := (exitTurn_handed hf (h.sound.lt_next c hct) ht).other d (h.sound.lt_next d h.mem) hdc
    exact ⟨hh.dead.1.trans hd.1, hh.dead.2.trans hd.2⟩
  · exact hh.barren
  · exact hsv.trans hh.tracked
  · exact fun r hr => (hh.pid r (hsv hr)).trans (exitTurn_pid h hf ht (h.sound.lt_next r hr))
  · exact fun b r hr => hh.look b r (procLook_turn h hf ht hr)
  · rintro (_ | i) b a' hb hr
    · obtain rfl : c = b := by simpa using hb
      rw [Nat.add_zero, ha] at hr
      obtain rfl := Option.some.inj hr
      exact ⟨p, hlast⟩
    · have hb' : l[i]? = some b := by simpa using hb
      rw [← reported_later h hk ht hb'] at hr
      exact hh.found i b a' hb' hr
  · intro r hr hrd m hkm
    rw [htaken, List.append_assoc]
    exact hh.old r (hsv hr) hrd _ (hm.kids r hr hrd m hkm)
  · intro r hr hrs
    rw [htaken]
    by_cases hrv : r ∈ v.tracked
    · obtain ⟨rfl, hkr⟩ := hm.new r hrv hrs
      rw [if_pos rfl]
      exact hh.old r hrv hpd _ hkr
    · have hpr : p ≠ r := by
        rintro rfl
        exact hrv (procLook_some hm.look).1
      rw [if_neg hpr, List.append_nil]
      exact hh.new r hr hrv
  · exact fun b => inserts_cons h hk ha ht hm hlast (hh.buckets b)
  · exact (exitTurn_faults_iff hf ht).1.trans hh.grows
  · obtain ⟨hgrows, hiff⟩ := exitTurn_faults_iff hf ht
    rw [grows_eq_iff hgrows hh.grows, hiff, hh.faults, allRenewable_cons h hk ht]

/-- **The loop hands the children over**, in one turn for each of them. -/
theorem exitLoop_handed : ∀ {l : List Ref} {s : State} {k : ℕ}, InLoop d s → (s.heap d).pid = q →
    Kids s d l → Rehomable w k s q l →
      (∀ i c, l[i]? = some c → reported (w (k + i)) s c ≠ none) →
        ∃ t, (∀ n, exitLoop d w (l.length + n) k s = .ret (0, t)) ∧ Handed w k s d l t
  | [], s, k, _, _, hk, _, _ => by
    refine ⟨s, fun n => exitLoop_nil hk, ⟨rfl, rfl⟩, hk, subset_rfl, fun _ _ => rfl,
      fun _ _ h => h, ?_, ?_, ?_, ?_, List.suffix_refl _, iff_of_true rfl ?_⟩
    · intro i c a hc
      simp at hc
    · exact fun r _ _ m hm => hm
    · exact fun r hr hrs => absurd hr hrs
    · exact fun b => ⟨[], rfl, List.nodup_nil, fun r hr => absurd hr List.not_mem_nil⟩
    · intro i c hc
      simp at hc
  | c :: l, s, k, h, hq, hk, hw, hrep => by
    have hf : (s.heap d).firsChil = some c := hk.1
    rcases exitTurn_kids (w := w k) h hk with ⟨hfail, -⟩ | ⟨-, a, p, v, ha, ht, hp, -, hcase⟩
    · exact absurd (reported_of_turnFails hw hfail) (hrep 0 c rfl)
    have hpd : p ≠ d := ne_dead hq hw h hf ha ht hp
    have hkv : Kids v d l := (hcase.resolve_left fun hd => hpd hd.1).2
    have hqv : (v.heap d).pid = q := (exitTurn_pid h hf ht (h.sound.lt_next d h.mem)).trans hq
    obtain ⟨t, hrun, hh⟩ := exitLoop_handed (h.turn hf ht) hqv hkv (hw.turn h hk ha ht hp)
      fun i b hb => by
        rw [reported_later h hk ht hb]
        exact hrep (i + 1) b (by simpa using hb)
    obtain ⟨p', hm⟩ := exitTurn_moved h hk ha ht
    obtain rfl : p = p' := by
      have := hm.look
      rw [hp] at this
      exact Option.some.inj this
    refine ⟨t, fun n => ?_, hh.cons h hk ha ht hm hpd⟩
    rw [List.length_cons, Nat.add_right_comm, exitLoop_turn hf ht]
    exact hrun n

end Loop

/-! ### The call -/

/-- **The children of the dead record are handed over.** `old`: every other record of the table
keeps its children without the dead one, behind those it takes in. `taken`: every child is taken in
by the record found for the parent it reports. `inserted`, `added`: every missing parent is the pid
of exactly one record, a new one; and no other record is new. -/
structure HandedOver (w : ℕ → World) (s : State) (d : Ref) (code ts : ℕ) (l : List Ref)
    (t : State) : Prop where
  alive : (t.heap d).alive = false
  exitCode : (t.heap d).exitCode = toInt32 code
  deathTime : (t.heap d).deathTime = splitNs ts
  pare : (t.heap d).pare = none
  barren : Kids t d []
  old : ∀ r ∈ s.tracked, r ≠ d → ∀ m, Kids s r m → Kids t r (takenIn w s t r 0 l ++ m.erase d)
  new : ∀ r ∈ t.tracked, r ∉ s.tracked → Kids t r (takenIn w s t r 0 l)
  taken : ∀ i c a, l[i]? = some c → reported (w i) s c = some a →
    ∃ r, procLook t a = some r ∧ r ≠ d ∧ c ∈ takenIn w s t r 0 l
  inserted : ∀ a, Missing w 0 s l a → ∃ r, r ∉ s.tracked ∧
    (t.buckets (procHash a)).filter (fun x => (t.heap x).pid = a) = [r]
  added : ∀ b, ∃ new, t.buckets b = new ++ s.buckets b ∧
    ∀ r ∈ new, r ∉ s.tracked ∧ Missing w 0 s l (t.heap r).pid

section Call
variable {s t v : State} {d c p r : Ref} {a q : Pid} {code ts : ℕ} {l m : List Ref} {w : ℕ → World}
  {k : ℕ}

theorem mem_takenIn {i : ℕ} (hc : l[i]? = some c) (ha : reported (w (k + i)) s c = some a)
    (hl : procLook t a = some r) : c ∈ takenIn w s t r k l := by
  induction l generalizing i k with
  | nil => simp at hc
  | cons b l ih =>
    rcases i with _ | i
    · obtain rfl : b = c := by simpa using hc
      rw [Nat.add_zero] at ha
      refine List.mem_append_right _ ?_
      rw [if_pos (by rw [ha]; exact hl)]
      exact List.mem_singleton_self b
    · refine List.mem_append_left _ (ih (i := i) (by simpa using hc) ?_)
      rwa [show k + 1 + i = k + (i + 1) by omega]

theorem filter_of_nodup {f : Ref → Pid} : ∀ {l : List Ref}, (l.map f).Nodup → r ∈ l →
    l.filter (fun x => f x = f r) = [r]
  | x :: l, hn, hr => by
    obtain ⟨hx, hn⟩ := List.nodup_cons.mp ((List.map_cons (f := f)) ▸ hn)
    rcases List.mem_cons.mp hr with rfl | hr
    · rw [List.filter_cons_of_pos (by simp), List.filter_eq_nil_iff.mpr fun y hy => ?_]
      have : f y ≠ f r := fun he => hx (he ▸ List.mem_map_of_mem hy)
      simpa using this
    · have hne : f x ≠ f r := fun he => hx (he ▸ List.mem_map_of_mem hr)
      rw [List.filter_cons_of_neg (by simpa using hne)]
      exact filter_of_nodup hn hr

theorem Handed.inserted (h : Handed w k s d l t) (hm : Missing w k s l a) :
    ∃ r, r ∉ s.tracked ∧ (t.buckets (procHash a)).filter (fun x => (t.heap x).pid = a) = [r] := by
  obtain ⟨hn, i, c, hc, hr⟩ := hm
  obtain ⟨r, hl⟩ := h.found i c a hc hr
  obtain ⟨new, hb, hnd, hnew⟩ := h.buckets (procHash a)
  -- no record that was there before has the pid
  have hnone : ∀ x ∈ s.buckets (procHash a), (t.heap x).pid ≠ a := fun x hx => by
    rw [h.pid x ⟨_, hx⟩]
    exact procLook_none hn hx
  have hra : (t.heap r).pid = a := (procLook_some hl).2
  have hrb : r ∈ t.buckets (procHash a) := List.mem_of_find?_eq_some hl
  rw [hb] at hrb
  have hrn : r ∈ new := (List.mem_append.mp hrb).resolve_right fun hr => hnone r hr hra
  have hold : (s.buckets (procHash a)).filter (fun x => (t.heap x).pid = a) = [] :=
    List.filter_eq_nil_iff.mpr fun x hx => by simpa using hnone x hx
  refine ⟨r, (hnew r hrn).1, ?_⟩
  rw [hb, List.filter_append, hold, List.append_nil, ← hra]
  exact filter_of_nodup hnd hrn

/-- What the loop has done, seen from before the call. -/
theorem Handed.handedOver (h : Sound s) (hd : d ∈ s.tracked) (hq : (s.heap d).pid = q)
    (hp : (s.heap d).pare = some p) (hdet : Detached s d p code ts v) (hw : Rehomable w 0 s q l)
    (hh : Handed w 0 v d l t) : HandedOver w s d code ts l t := by
  have htr : v.tracked = s.tracked := hdet.tracked
  have hbuck : v.buckets = s.buckets := hdet.relinked.buckets
  have htaken : ∀ r, takenIn w s t r 0 l = takenIn w v t r 0 l := fun r =>
    takenIn_congr (fun i c _ => (reported_detached hdet c).symm) fun _ => rfl
  have hmiss : ∀ a, Missing w 0 s l a ↔ Missing w 0 v l a := fun a => by
    simp only [Missing, procLook_detached hdet, reported_detached hdet]
  -- the fields of the dead record are those it was marked with
  have hfield : ∀ {α : Type} (g : Proc → α), (∀ y, g (bare y) = g y) →
      g (t.heap d) = g (markDead code ts (s.heap d)) := fun g hg => by
    rw [← hg, hh.dead.1, hdet.relinked.bare, hg, upd_heap, Function.update_self]
  constructor
  · exact hfield Proc.alive fun _ => rfl
  · rw [hfield Proc.exitCode fun _ => rfl, markDead]
  · exact hfield Proc.deathTime fun _ => rfl
  · rw [hh.dead.2, hdet.pare, if_pos rfl]
  · exact hh.barren
  · intro r hr hrd m hm
    rw [htaken]
    exact hh.old r (htr ▸ hr) hrd _ (kids_erase_detached h hd hp hdet hr hm)
  · intro r hr hrs
    rw [htaken]
    exact hh.new r hr (htr ▸ hrs)
  · intro i c a hc ha
    have hav : reported (w (0 + i)) v c = some a := by
      rw [Nat.zero_add, reported_detached hdet]
      exact ha
    obtain ⟨r, hl⟩ := hh.found i c a hc hav
    refine ⟨r, hl, ?_, by rw [htaken]; exact mem_takenIn hc hav hl⟩
    rintro rfl
    have hpid : (t.heap r).pid = q :=
      (hfield Proc.pid fun _ => rfl).trans hq
    have haq := (hw i c a hc (by rwa [Nat.zero_add])).1
    exact haq ((procLook_some hl).2.symm.trans hpid)
  · intro a ha
    obtain ⟨r, hr, he⟩ := hh.inserted ((hmiss a).mp ha)
    exact ⟨r, htr ▸ hr, he⟩
  · intro b
    obtain ⟨new, hb, -, hnew⟩ := hh.buckets b
    exact ⟨new, hbuck ▸ hb, fun r hr => ⟨htr ▸ (hnew r hr).1, (hmiss _).mpr (hnew r hr).2⟩⟩

theorem allRenewable_detached (hdet : Detached s d p code ts v) :
    AllRenewable w k v l ↔ AllRenewable w k s l := by
  have hpaths : ∀ c, (v.heap c).fdPaths = (s.heap c).fdPaths := fun c => by
    rw [hdet.relinked.field Proc.fdPaths (fun _ => rfl), upd_heap]
    by_cases hc : c = d
    · subst hc
      rw [Function.update_self]
      rfl
    · rw [Function.update_of_ne hc]
  simp only [AllRenewable, Renewable, hpaths, hdet.relinked.pid, Sound.markDead_pid]

/-- The exit returns `0`, without wrong access, and the children are handed over. -/
def HandsOver (s : State) (q : Pid) (code ts : ℕ) (w : ℕ → World) (d : Ref) (l : List Ref) : Prop :=
  ∃ t, (∀ n, evenExit (l.length + n) q code ts w s = .ret (0, t)) ∧
    t.strs.faults = s.strs.faults ∧ HandedOver w s d code ts l t

/-- **`even_exit` when nothing fails**, in every state of every run: all children can be refreshed,
none reports the dying process or itself, and the parents they report are in the table or can be
loaded. Then it returns `0` without wrong access and the children are handed over, exactly if the
paths of every child can be given up in its refresh. -/
theorem handsOver_iff {tr : List (Input × State)} (hr : Steps Step init tr) (q : Pid) (code ts : ℕ)
    (hl : procLook (final init tr) q = some d) (hp : ((final init tr).heap d).pare ≠ none)
    (hk : Kids (final init tr) d l)
    (hrep : ∀ i c, l[i]? = some c → reported (w i) (final init tr) c ≠ none)
    (hw : Rehomable w 0 (final init tr) q l) :
    HandsOver (final init tr) q code ts w d l ↔ AllRenewable w 0 (final init tr) l := by
  have h := sound_final hr
  obtain ⟨hd, hq⟩ := procLook_some hl
  obtain ⟨p, hp⟩ := Option.ne_none_iff_exists'.mp hp
  obtain ⟨v, hdet⟩ := h.detached hd hp code ts
  have hqv : (v.heap d).pid = q := by
    rw [hdet.relinked.pid, Sound.markDead_pid]
    exact hq
  obtain ⟨t, hrun, hh⟩ := exitLoop_handed (w := w) (k := 0) (hdet.inLoop hd) hqv
    (kids_detached h hd hp hdet hk) (rehomable_detached hdet hw) fun i c hc => by
      rw [Nat.zero_add, reported_detached hdet]
      exact hrep i c hc
  have hexit : ∀ n, evenExit (l.length + n) q code ts w (final init tr) = .ret (0, t) := fun n => by
    simp only [evenExit, hl, Sound.markDead_pare, hp, hdet.run]
    exact hrun n
  have hfaults : t.strs.faults = (final init tr).strs.faults ↔
      AllRenewable w 0 (final init tr) l := by
    rw [← allRenewable_detached hdet, ← hh.faults, hdet.relinked.same]
    rfl
  constructor
  · rintro ⟨t', hrun', hf, -⟩
    obtain rfl : t = t' := by
      have := (hexit 0).symm.trans (hrun' 0)
      cases this
      rfl
    exact hfaults.mp hf
  · exact fun hall => ⟨t, hexit, hfaults.mpr hall, hh.handedOver h hd hq hp hdet hw⟩

end Call

/-- All processes report the parent `ppid`, a descriptor table of size `fdSize` and one open
descriptor. -/
def opened (ppid fdSize : List Char) (_ : ℕ) : World where
  files _ := procFiles ppid fdSize (some [⟨ascii ['0'], true, some (ascii ['/', 'a'])⟩])
  procCalloc := true
  nodeCalloc := true

/-- A process with two children, whose tables have the given size. -/
def forked (fdSize : List Char) : List Input := [
  input 1 (.fork 1 2) [(1, ['0']), (2, ['1'])],
  ⟨⟨2000000000, .fork 2 3⟩, opened ['2'] fdSize⟩,
  ⟨⟨3000000000, .fork 2 4⟩, opened ['2'] fdSize⟩]

/-- With full tables the exit is in order. Both children report process `9`, which has no record
yet. -/
theorem handsOver_iff_full :
    let s := final init (trace 0 init (forked ['1']))
    let w := opened ['9'] ['1']
    (procLook s 2 = some 1 ∧ procLook s 9 = none ∧ Kids s 1 [3, 2] ∧
      (s.heap 2).fdPaths ≠ none ∧ (s.heap 3).fdPaths ≠ none) ∧ HandsOver s 2 0 4 w 1 [3, 2] := by
  intro s w
  have hr : Steps Step init (trace 0 init (forked ['1'])) := steps_trace (by decide)
  have hl : procLook s 2 = some 1 := by decide
  have hp : (s.heap 1).pare ≠ none := by decide
  have hlast : (s.heap 2).nextSibl = none := by decide
  have hk : Kids s 1 [3, 2] := ⟨by decide, by decide, hlast⟩
  have hkids : ∀ i c, ([3, 2] : List Ref)[i]? = some c → c = 3 ∨ c = 2 := fun i c hc => by
    simpa using List.mem_of_getElem? hc
  have hrep : ∀ i c, ([3, 2] : List Ref)[i]? = some c → reported (w i) s c = some 9 := by
    intro i c hc
    rcases hkids i c hc with rfl | rfl
    · exact show reported (w 0) s 3 = some 9 by decide
    · exact show reported (w 0) s 2 = some 9 by decide
  have hw : Rehomable w 0 s 2 [3, 2] := by
    intro i c a hc ha
    rw [Nat.zero_add, hrep i c hc] at ha
    obtain rfl := Option.some.inj ha
    have hcl : canLoad (w 0) 9 = true := by decide
    refine ⟨by decide, ?_, Or.inr (Or.inl hcl)⟩
    rcases hkids i c hc with rfl | rfl <;> decide
  -- one slot is freed, and it was written
  have hall : AllRenewable w 0 s [3, 2] := by
    intro i c hc _ j hj
    have hsize : sizeRead ((w 0).files 0) = 1 := by decide
    obtain rfl : j = 0 := Nat.lt_one_iff.mp (by rw [← Int.toNat_one, ← hsize]; exact hj)
    rcases hkids i c hc with rfl | rfl
    · exact ⟨.str 1 (ascii ['/', 'a']), by decide, by decide⟩
    · exact ⟨.str 0 (ascii ['/', 'a']), by decide, by decide⟩
  exact ⟨⟨hl, by decide, hk, by decide, by decide⟩,
    (handsOver_iff hr 2 0 4 hl hp hk (fun i c hc => by rw [hrep i c hc]; simp) hw).mpr hall⟩

/-- With one open descriptor in a table of 64 the refresh of the child frees 63 slots that were
never written. -/
theorem not_handsOver_sparse :
    let s := final init (trace 0 init ((forked ['6', '4']).take 2))
    let w := opened ['1'] ['6', '4']
    Steps Step init (trace 0 init ((forked ['6', '4']).take 2)) ∧ procLook s 2 = some 1 ∧
      (s.heap 1).pare ≠ none ∧ Kids s 1 [2] ∧
      (∀ i c, ([2] : List Ref)[i]? = some c → reported (w i) s c ≠ none) ∧
      Rehomable w 0 s 2 [2] ∧ ¬ HandsOver s 2 0 4 w 1 [2] := by
  intro s w
  have hlast : (s.heap 2).nextSibl = none := by decide
  have hkid : ∀ i c, ([2] : List Ref)[i]? = some c → c = 2 := fun i c hc => by
    simpa using List.mem_of_getElem? hc
  have hrep : ∀ i c, ([2] : List Ref)[i]? = some c → reported (w i) s c = some 1 := by
    intro i c hc
    obtain rfl := hkid i c hc
    exact show reported (w 0) s 2 = some 1 by decide
  refine ⟨steps_trace (by decide), by decide, by decide, ⟨by decide, hlast⟩,
    fun i c hc => by rw [hrep i c hc]; simp, ?_, ?_⟩
  · intro i c a hc ha
    rw [Nat.zero_add, hrep i c hc] at ha
    obtain rfl := Option.some.inj ha
    obtain rfl := hkid i c hc
    exact ⟨by decide, by decide, Or.inl (by decide)⟩
  · rintro ⟨t, hrun, hf, -⟩
    have ht : after 1 s ⟨⟨4, .exit 2 0⟩, w⟩ = t := by
      have := hrun 0
      simp only [List.length_singleton, Nat.add_zero] at this
      simp only [after, readEven, handle, this]
      rfl
    have h63 : (after 1 s ⟨⟨4, .exit 2 0⟩, w⟩).strs.faults.length = 63 := by decide
    rw [ht, hf] at h63
    exact absurd h63 (by decide)

end Serie.Tree.Handover
