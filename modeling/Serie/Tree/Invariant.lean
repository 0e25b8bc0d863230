import Serie.Lib.Trace
import Serie.Model.Loop
import Serie.Tree.Links

/-! # The invariant of the table and the tree

`Sound`: every record of the table is in the bucket of its pid, once; the links of the records of
the table represent a forest in which no record is its own child; a dead record has no parent. Every
handler keeps it, on every path (`Sound.step`), so it holds in every state a run reaches
(`sound_of_run`), and no handler reads through a `NULL` pointer (`Sound.readEven_ne_crash`). -/

namespace Serie.Tree.Invariant

open Serie.Lib.Trace Serie.Lib.Chain Serie.Lib.Intrusive Serie.Model.Record Serie.Model.Prfs
open Serie.Model.Refresh Serie.Model.Table Serie.Model.Conn Serie.Model.Steps Serie.Model.Loop
open Serie.Tree.Links

/-- **The invariant.** -/
structure Sound (s : State) : Prop where
  home : ∀ b, ∀ r ∈ s.buckets b, procHash (s.heap r).pid = b
  nodup : ∀ b, (s.buckets b).Nodup
  lt_next : ∀ r ∈ s.tracked, r < s.next
  forest : ∃ kids, Forest s.links s.tracked kids
  no_self : ∀ r ∈ s.tracked, (s.heap r).pare ≠ some r
  root_of_dead : ∀ r ∈ s.tracked, (s.heap r).alive = false → (s.heap r).pare = none

theorem sound_init : Sound init where
  home b r hr := by cases hr
  nodup _ := List.nodup_nil
  lt_next r hr := absurd hr (notMem_init r)
  forest := ⟨fun _ => [], by constructor <;> exact fun r hr => absurd hr (notMem_init r)⟩
  no_self r hr := absurd hr (notMem_init r)
  root_of_dead r hr := absurd hr (notMem_init r)

namespace Sound

variable {s t : State}

theorem alive_of_pare (h : Sound s) {r p : Ref} (hr : r ∈ s.tracked)
    (hp : (s.heap r).pare = some p) : (s.heap r).alive = true := by
  by_contra ha
  have := h.root_of_dead r hr (by simpa using ha)
  rw [this] at hp; cases hp

theorem pare_mem (h : Sound s) {r p : Ref} (hr : r ∈ s.tracked) (hp : (s.heap r).pare = some p) :
    p ∈ s.tracked := by
  obtain ⟨kids, hk⟩ := h.forest
  exact hk.up_mem r hr p hp

/-! ### The records of the buckets -/

theorem nodup_buckets (h : Sound s) (n : ℕ) : ((List.range n).flatMap s.buckets).Nodup := by
  refine List.nodup_flatMap.mpr ⟨fun b _ => h.nodup b, ?_⟩
  refine (List.nodup_range).imp_of_mem fun {a b} _ _ hab r hra hrb => hab ?_
  exact (h.home a r hra).symm.trans (h.home b r hrb)

theorem mem_buckets (h : Sound s) {n : ℕ} (hn : n = procBuckNodes) {r : Ref} :
    r ∈ (List.range n).flatMap s.buckets ↔ r ∈ s.tracked := by
  constructor
  · intro hr
    obtain ⟨b, -, hb⟩ := List.mem_flatMap.mp hr
    exact ⟨b, hb⟩
  · rintro ⟨b, hb⟩
    refine List.mem_flatMap.mpr ⟨b, List.mem_range.mpr ?_, hb⟩
    rw [hn, ← h.home b r hb]
    exact procHash_lt _

/-! ### The ways in which a state changes -/

theorem quiet (h : Sound s) (hq : Quiet s t) : Sound t := by
  have htr := hq.tracked
  have hheap : ∀ r ∈ s.tracked, t.heap r = s.heap r := fun r hr => hq.heap r (h.lt_next r hr)
  obtain ⟨kids, hk⟩ := h.forest
  constructor
  · intro b r hr
    rw [hq.buckets] at hr
    rw [hheap r ⟨b, hr⟩]; exact h.home b r hr
  · intro b; rw [hq.buckets]; exact h.nodup b
  · intro r hr; rw [htr] at hr; exact lt_of_lt_of_le (h.lt_next r hr) hq.next
  · refine ⟨kids, ?_⟩
    rw [htr]
    exact hk.congr (fun r hr => by simp only [State.links, hheap r hr])
      (fun r hr => by simp only [State.links, hheap r hr])
      (fun r hr => by simp only [State.links, hheap r hr])
  · intro r hr; rw [htr] at hr; rw [hheap r hr]; exact h.no_self r hr
  · intro r hr; rw [htr] at hr; rw [hheap r hr]; exact h.root_of_dead r hr

theorem adds (h : Sound s) {x : Proc} (ha : Adds s x t) (hp : x.pare = none)
    (hf : x.firsChil = none) (hn : x.nextSibl = none) : Sound t := by
  have hheap : ∀ r ∈ s.tracked, t.heap r = s.heap r := fun r hr => by
    rw [ha.heap, Function.update_of_ne (h.lt_next r hr).ne]
  have hnew : t.heap s.next = x := by rw [ha.heap, Function.update_self]
  have hnot : s.next ∉ s.tracked := fun hr => (h.lt_next _ hr).false
  obtain ⟨kids, hk⟩ := h.forest
  constructor
  · intro b r hr
    rw [ha.buckets] at hr
    by_cases hb : b = procHash x.pid
    · subst hb
      rw [Function.update_self] at hr
      rcases List.mem_cons.mp hr with rfl | hr
      · rw [hnew]
      · rw [hheap r ⟨_, hr⟩]; exact h.home _ r hr
    · rw [Function.update_of_ne hb] at hr
      rw [hheap r ⟨b, hr⟩]; exact h.home b r hr
  · intro b
    rw [ha.buckets]
    by_cases hb : b = procHash x.pid
    · subst hb
      rw [Function.update_self]
      exact List.nodup_cons.mpr ⟨fun hm => hnot ⟨_, hm⟩, h.nodup _⟩
    · rw [Function.update_of_ne hb]; exact h.nodup b
  · intro r hr
    rw [ha.tracked] at hr
    rw [ha.next]
    rcases hr with rfl | hr
    · exact Nat.lt_succ_self _
    · exact Nat.lt_succ_of_lt (h.lt_next r hr)
  · rw [ha.tracked]
    have hkt : Forest t.links s.tracked kids :=
      hk.congr (fun r hr => by simp only [State.links, hheap r hr])
        (fun r hr => by simp only [State.links, hheap r hr])
        (fun r hr => by simp only [State.links, hheap r hr])
    refine ⟨_, hkt.insert hnot ?_ ?_ ?_⟩
    · simp only [State.links, hnew, hp]
    · simp only [State.links, hnew, hf]
    · simp only [State.links, hnew, hn]
  · intro r hr
    rw [ha.tracked] at hr
    rcases hr with rfl | hr
    · rw [hnew, hp]; simp
    · rw [hheap r hr]; exact h.no_self r hr
  · intro r hr hd
    rw [ha.tracked] at hr
    rcases hr with rfl | hr
    · rw [hnew]; exact hp
    · rw [hheap r hr] at hd ⊢; exact h.root_of_dead r hr hd

theorem relinked (h : Sound s) (hr : Relinked s t)
    (hf : ∃ kids, Forest t.links s.tracked kids)
    (hs : ∀ r ∈ s.tracked, (t.heap r).pare ≠ some r)
    (hd : ∀ r ∈ s.tracked, (s.heap r).alive = false → (t.heap r).pare = none) : Sound t where
  home b r hb := by rw [hr.buckets] at hb; rw [hr.pid]; exact h.home b r hb
  nodup b := by rw [hr.buckets]; exact h.nodup b
  lt_next r ht := by rw [hr.tracked] at ht; rw [hr.next]; exact h.lt_next r ht
  forest := by rw [hr.tracked]; exact hf
  no_self r ht := by rw [hr.tracked] at ht; exact hs r ht
  root_of_dead r ht ha := by rw [hr.tracked] at ht; rw [hr.alive] at ha; exact hd r ht ha

theorem rewritten (h : Sound s) (hb : t.buckets = s.buckets) (hn : t.next = s.next)
    (hp : ∀ r, (t.heap r).pid = (s.heap r).pid) (hl : t.links = s.links)
    (ha : ∀ r, (t.heap r).alive = false → (s.heap r).alive = false) : Sound t := by
  have htr : t.tracked = s.tracked := by unfold State.tracked; rw [hb]
  have hup : ∀ r, (t.heap r).pare = (s.heap r).pare := fun r =>
    congrArg (fun l : Links Ref => l.up r) hl
  constructor
  · intro b r hr; rw [hb] at hr; rw [hp]; exact h.home b r hr
  · intro b; rw [hb]; exact h.nodup b
  · intro r hr; rw [htr] at hr; rw [hn]; exact h.lt_next r hr
  · rw [htr, hl]; exact h.forest
  · intro r hr
    rw [htr] at hr
    rw [hup]; exact h.no_self r hr
  · intro r hr hd
    rw [htr] at hr
    rw [hup]; exact h.root_of_dead r hr (ha r hd)

theorem lookRec (h : Sound s) (r : Ref) (f : Files) : Sound (lookRec r f s).2 :=
  h.rewritten rfl rfl (fun _ => lookRec_pid _) lookRec_links fun q hq => by
    by_contra ha
    rw [lookRec_alive (by simpa using ha)] at hq
    cases hq

theorem headOff (h : Sound s) {d c : Ref} (hd : d ∈ s.tracked)
    (hf : (s.heap d).firsChil = some c) : Sound (headOff d c s) := by
  obtain ⟨kids, hk⟩ := h.forest
  refine h.relinked headOff_relinked ?_ (fun r hr => ?_) fun r hr ha => ?_
  · rw [headOff_links]; exact ⟨_, hk.detachHead hd hf⟩
  · rw [headOff_pare]
    split_ifs
    · simp
    · exact h.no_self r hr
  · rw [headOff_pare, h.root_of_dead r hr ha]
    split_ifs <;> rfl

theorem attach (h : Sound s) {p c : Ref} (hp : p ∈ s.tracked) (hc : c ∈ s.tracked) (hne : p ≠ c)
    (hu : (s.heap c).pare = none) (ha : (s.heap c).alive = true) :
    Sound (attaChil (some p) (some c) s).2 := by
  obtain ⟨kids, hk⟩ := h.forest
  refine h.relinked (attaChil_relinked _ _) ?_ (fun r hr => ?_) fun r hr hd => ?_
  · rw [attaChil_links hne]; exact ⟨_, hk.attach hp hc hu⟩
  · rw [attaChil_pare hne]
    split_ifs with hrc
    · rw [hrc]; simpa using hne
    · exact h.no_self r hr
  · have hrc : r ≠ c := by rintro rfl; rw [ha] at hd; cases hd
    rw [attaChil_pare hne, if_neg hrc]; exact h.root_of_dead r hr hd

/-! ### The handlers -/

theorem found (h : Sound s) {q : Pid} {w : World} {p : Ref} (hf : Found q w s p t) :
    Sound t ∧ p ∈ t.tracked ∧ s.tracked ⊆ t.tracked ∧ ∀ r ∈ s.tracked, t.heap r = s.heap r := by
  cases hf with
  | old hp => exact ⟨h, (procLook_some hp).1, subset_rfl, fun _ _ => rfl⟩
  | new _ _ hx ha =>
    refine ⟨h.adds ha hx.pare hx.firsChil hx.nextSibl, ?_, ?_, fun r hr => ?_⟩
    · rw [ha.tracked]; exact Set.mem_insert _ _
    · rw [ha.tracked]; exact Set.subset_insert _ _
    · rw [ha.heap, Function.update_of_ne (h.lt_next r hr).ne]

theorem firsChil (h : Sound s) {d c : Ref} (hd : d ∈ s.tracked)
    (hf : (s.heap d).firsChil = some c) :
    c ∈ s.tracked ∧ (s.heap c).pare = some d ∧ (s.heap c).alive = true := by
  obtain ⟨kids, hk⟩ := h.forest
  have hc := hk.first_mem hd hf
  have hct := hk.kids_mem d hd c hc
  have hcu : (s.heap c).pare = some d := hk.up_of_mem hd hc
  exact ⟨hct, hcu, h.alive_of_pare hct hcu⟩

theorem ne_firsChil (h : Sound s) {d c : Ref} (hd : d ∈ s.tracked)
    (hf : (s.heap d).firsChil = some c) : c ≠ d := by
  rintro rfl
  exact h.no_self c hd (h.firsChil hd hf).2.1

theorem barren (h : Sound s) {d : Ref} (hd : d ∈ s.tracked) (hf : (s.heap d).firsChil = none) :
    ∀ r ∈ s.tracked, (s.heap r).pare ≠ some d := by
  obtain ⟨kids, hk⟩ := h.forest
  intro r hr hp
  have hrk := (hk.mem_iff d hd r hr).mpr hp
  rw [(hk.kids_eq_nil hd).mpr hf] at hrk
  cases hrk

/-- The refresh of the first child, off its list: the child is alive and has no parent. -/
theorem orphan (h : Sound s) {d c : Ref} (hd : d ∈ s.tracked)
    (hf : (s.heap d).firsChil = some c) (w : World) :
    let u := (orphaned d c w s).2
    Sound u ∧ u.tracked = s.tracked ∧ (u.heap c).pare = none ∧ (u.heap c).alive = true := by
  intro u
  obtain ⟨-, -, hca⟩ := h.firsChil hd hf
  exact ⟨(h.headOff hd hf).lookRec _ _, orphaned_tracked, by rw [orphaned_pare, if_pos rfl],
    orphaned_alive hca⟩

/-- **A turn of the loop of `even_exit`.** -/
theorem exitTurn (h : Sound s) {d c : Ref} {w : World} {x : ℤ} (hd : d ∈ s.tracked)
    (hf : (s.heap d).firsChil = some c) (he : exitTurn d c w s = .ret (x, t)) :
    Sound t ∧ s.tracked ⊆ t.tracked := by
  obtain ⟨hu, hut, hup, hua⟩ := h.orphan hd hf w
  have hct := (h.firsChil hd hf).1
  rcases exitTurn_spec (w := w) hf (h.lt_next c hct) with ⟨-, ht⟩ | ⟨g, -, -, ⟨-, ht⟩ |
    ⟨v, -, -, hv, ht⟩ | ⟨p, v, hpc, hfd, ht⟩⟩ <;> rw [ht] at he <;> cases he
  · exact ⟨hu, hut.ge⟩
  · exact ⟨hu, hut.ge⟩
  · exact ⟨hu.quiet hv, by rw [hv.tracked]; exact hut.ge⟩
  · obtain ⟨hvs, hmem, hsub, hheap⟩ := hu.found hfd
    have hcu := hut.ge hct
    refine ⟨hvs.attach hmem (hsub hcu) hpc ?_ ?_, ?_⟩
    · rw [hheap c hcu]; exact hup
    · rw [hheap c hcu]; exact hua
    · rw [(attaChil_relinked _ _).tracked]; exact hut.ge.trans hsub

theorem upd_markDead_links (d : Ref) (code ts : ℕ) :
    (s.upd d (markDead code ts)).links = s.links := by
  unfold State.links
  congr 1 <;> funext r <;> by_cases hr : r = d <;> simp_all [markDead]

theorem markDead_pare (d : Ref) (code ts : ℕ) (r : Ref) :
    ((s.upd d (markDead code ts)).heap r).pare = (s.heap r).pare :=
  congrArg (fun l : Links Ref => l.up r) (upd_markDead_links d code ts)

theorem markDead_pid (d : Ref) (code ts : ℕ) (r : Ref) :
    ((s.upd d (markDead code ts)).heap r).pid = (s.heap r).pid := by
  by_cases hr : r = d
  · subst hr; simp [markDead]
  · simp [hr]

theorem markDead_alive (d : Ref) (code ts : ℕ) (r : Ref) :
    ((s.upd d (markDead code ts)).heap r).alive = if r = d then false else (s.heap r).alive := by
  split_ifs with hr
  · subst hr; simp [markDead]
  · simp [hr]

theorem procLook_markDead (d : Ref) (code ts : ℕ) (q : Pid) :
    procLook (s.upd d (markDead code ts)) q = procLook s q :=
  procLook_congr rfl fun r _ => markDead_pid d code ts r

theorem mark (h : Sound s) {d : Ref} (hp : (s.heap d).pare = none) (code ts : ℕ) :
    Sound (s.upd d (markDead code ts)) := by
  obtain ⟨kids, hk⟩ := h.forest
  refine ⟨fun b r hb => ?_, h.nodup, h.lt_next, ⟨kids, ?_⟩, fun r hr => ?_, fun r hr ha => ?_⟩
  · rw [markDead_pid]; exact h.home b r hb
  · rw [upd_markDead_links]; exact hk
  · rw [markDead_pare]; exact h.no_self r hr
  · rw [markDead_pare]
    rw [markDead_alive] at ha
    split_ifs at ha with hrd
    · rw [hrd]; exact hp
    · exact h.root_of_dead r hr ha

end Sound

/-! ### The two halves of `even_exit` -/

section Exit
variable {s t : State}

/-- In `t` the record `d` of `s` is marked dead and off the list of its parent `p`. -/
structure Detached (s : State) (d p : Ref) (code ts : ℕ) (t : State) : Prop where
  run : detaChil (some p) (some d) (s.upd d (markDead code ts)) = .ret (0, t)
  relinked : Relinked (s.upd d (markDead code ts)) t
  pare : ∀ r, (t.heap r).pare = if r = d then none else (s.heap r).pare
  sound : Sound t

namespace Detached

variable {d p : Ref} {code ts : ℕ}

theorem tracked (h : Detached s d p code ts t) : t.tracked = s.tracked := h.relinked.tracked

theorem alive (h : Detached s d p code ts t) (r : Ref) :
    (t.heap r).alive = if r = d then false else (s.heap r).alive := by
  rw [h.relinked.alive, Sound.markDead_alive]

end Detached

/-- What holds throughout the loop: `d` is a dead record of the table. -/
structure InLoop (d : Ref) (s : State) : Prop where
  sound : Sound s
  mem : d ∈ s.tracked
  dead : (s.heap d).alive = false

namespace InLoop

variable {d : Ref} {w : ℕ → World}

theorem turn (h : InLoop d s) {c : Ref} {w : World} {x : ℤ} (hf : (s.heap d).firsChil = some c)
    (he : Model.Conn.exitTurn d c w s = .ret (x, t)) : InLoop d t := by
  have hc := (h.sound.firsChil h.mem hf).1
  have hdc : d ≠ c := (h.sound.ne_firsChil h.mem hf).symm
  obtain ⟨ht, hsub⟩ := h.sound.exitTurn h.mem hf he
  refine ⟨ht, hsub h.mem, ?_⟩
  rw [(exitTurn_handed hf (h.sound.lt_next c hc) he).other_field Proc.alive (fun _ => rfl)
    (h.sound.lt_next d h.mem) hdc]
  exact h.dead

theorem loopAt (h : InLoop d s) {k k' : ℕ} (hl : LoopAt d w k s k' t) : InLoop d t :=
  hl.inv (I := fun _ => InLoop d) (fun _ _ _ _ hs hf ht => hs.turn hf ht) h

theorem loopEnd (h : InLoop d s) {k : ℕ} (hl : LoopEnd d w k s t) : InLoop d t :=
  hl.inv (I := InLoop d) (fun _ _ _ _ _ hs hf ht => hs.turn hf ht) h

end InLoop

theorem Detached.inLoop {d p : Ref} {code ts : ℕ} (h : Detached s d p code ts t)
    (hd : d ∈ s.tracked) : InLoop d t :=
  ⟨h.sound, by rw [h.tracked]; exact hd, by rw [h.alive, if_pos rfl]⟩

end Exit

namespace Sound

variable {s t : State}

/-- The first half of `even_exit` for a record with a parent. -/
theorem detached (h : Sound s) {d p : Ref} (hd : d ∈ s.tracked) (hp : (s.heap d).pare = some p)
    (code ts : ℕ) : ∃ t, Detached s d p code ts t := by
  obtain ⟨kids, hk⟩ := h.forest
  have hpt : p ∈ s.tracked := hk.up_mem d hd p hp
  obtain ⟨t, ht, hup, hft⟩ := detaChil_of_mem (s := s.upd d (markDead code ts))
    ((upd_markDead_links d code ts).symm ▸ hk) h.lt_next hpt ((hk.mem_iff p hpt d hd).mpr hp)
  have hr := detaChil_relinked ht
  rw [upd_markDead_links] at hup
  have hpare : ∀ r, (t.heap r).pare = if r = d then none else (s.heap r).pare := fun r => by
    simpa [State.links, Function.update_apply] using congrFun hup r
  refine ⟨t, ht, hr, hpare, ?_, ?_, ?_, ⟨_, hr.tracked ▸ hft⟩, ?_, ?_⟩
  · intro b r hb
    rw [hr.buckets] at hb
    rw [hr.pid, markDead_pid]; exact h.home b r hb
  · intro b; rw [hr.buckets]; exact h.nodup b
  · intro r hrt
    rw [hr.tracked] at hrt
    rw [hr.next]; exact h.lt_next r hrt
  · intro r hrt
    rw [hr.tracked] at hrt
    rw [hpare]
    split_ifs
    · simp
    · exact h.no_self r hrt
  · intro r hrt ha
    rw [hr.tracked] at hrt
    rw [hr.alive, markDead_alive] at ha
    rw [hpare]
    split_ifs at ha ⊢ with hrd
    · rfl
    · exact h.root_of_dead r hrt ha

/-- What `even_exit` does before its loop. Without a record it does nothing; a record without a
parent is only marked; any other is marked, detached, and its children are gone through. -/
theorem evenExit_cases (h : Sound s) (fuel : ℕ) (q : Pid) (code ts : ℕ) (w : ℕ → World) :
    (procLook s q = none ∧ evenExit fuel q code ts w s = .ret (-1, s)) ∨
    ∃ d, procLook s q = some d ∧ d ∈ s.tracked ∧
      ((s.heap d).pare = none ∧
        evenExit fuel q code ts w s = .ret (-1, s.upd d (markDead code ts)) ∨
      ∃ p t, (s.heap d).pare = some p ∧ Detached s d p code ts t ∧
        evenExit fuel q code ts w s = exitLoop d w fuel 0 t) := by
  rcases hl : procLook s q with _ | d
  · exact Or.inl ⟨rfl, by simp [evenExit, hl]⟩
  have hd := (procLook_some hl).1
  have hpm := markDead_pare (s := s) d code ts d
  refine Or.inr ⟨d, rfl, hd, ?_⟩
  rcases hp : (s.heap d).pare with _ | p
  · exact Or.inl ⟨rfl, by simp only [evenExit, hl, hpm, hp]; rfl⟩
  · obtain ⟨t, ht⟩ := h.detached hd hp code ts
    exact Or.inr ⟨p, t, rfl, ht, by simp only [evenExit, hl, hpm, hp, ht.run]; rfl⟩

/-- **What an `even_exit` that returns has done.** -/
theorem evenExit_inv (h : Sound s) {fuel : ℕ} {q : Pid} {code ts : ℕ} {w : ℕ → World} {x : ℤ}
    (he : evenExit fuel q code ts w s = .ret (x, t)) :
    (procLook s q = none ∧ t = s) ∨
    ∃ d, procLook s q = some d ∧ d ∈ s.tracked ∧
      ((s.heap d).pare = none ∧ t = s.upd d (markDead code ts) ∨
      ∃ p t₀, (s.heap d).pare = some p ∧ Detached s d p code ts t₀ ∧ LoopEnd d w 0 t₀ t) := by
  rcases h.evenExit_cases fuel q code ts w with
    ⟨hl, hr⟩ | ⟨d, hl, hd, ⟨hp, hr⟩ | ⟨p, t₀, hp, ht, hr⟩⟩ <;> rw [hr] at he
  · cases he; exact Or.inl ⟨hl, rfl⟩
  · cases he; exact Or.inr ⟨d, hl, hd, Or.inl ⟨hp, rfl⟩⟩
  · exact Or.inr ⟨d, hl, hd, Or.inr ⟨p, t₀, hp, ht, loopEnd_of_exitLoop he⟩⟩

theorem evenExit (h : Sound s) {fuel : ℕ} {q : Pid} {code ts : ℕ} {w : ℕ → World} {x : ℤ}
    (he : evenExit fuel q code ts w s = .ret (x, t)) : Sound t := by
  rcases h.evenExit_inv he with ⟨-, rfl⟩ | ⟨d, -, hd, ⟨hp, rfl⟩ | ⟨p, t₀, hp, ht, hl⟩⟩
  · exact h
  · exact h.mark hp code ts
  · exact ((ht.inLoop hd).loopEnd hl).sound

theorem evenFork (h : Sound s) {q c : Pid} {ts : ℕ} {w : ℕ → World} {x : ℤ}
    (he : evenFork q c ts w s = .ret (x, t)) : Sound t := by
  rcases evenFork_inv h.lt_next he with ⟨-, -, hq⟩ | ⟨p, s₁, hfd, ⟨-, hq⟩ | ⟨-, y, s₂, hy, ha, rfl⟩⟩
  · exact h.quiet hq
  · exact (h.found hfd).1.quiet hq
  · obtain ⟨h₁, hp, -, -⟩ := h.found hfd
    have hnew : s₂.heap s₁.next = { y with birthTime := splitNs ts } := by
      rw [ha.heap, Function.update_self]
    refine (h₁.adds ha hy.pare hy.firsChil hy.nextSibl).attach ?_ ?_ (h₁.lt_next p hp).ne ?_ ?_
    · rw [ha.tracked]; exact Or.inr hp
    · rw [ha.tracked]; exact Or.inl rfl
    · rw [hnew]; exact hy.pare
    · rw [hnew]; exact hy.alive

theorem renamed (h : Sound s) (hr : Renamed s t) : Sound t :=
  h.rewritten hr.buckets hr.next hr.pid hr.links fun r ha => by rwa [hr.alive] at ha

/-- **Every handler keeps the invariant**, and so does a step of a run. -/
theorem step (h : Sound s) {i : Input} (hs : Step s i t) : Sound t := by
  obtain ⟨fuel, x, he⟩ := handle_of_step hs
  obtain ⟨⟨ts, data⟩, w⟩ := i
  cases data with
  | fork q c => exact h.evenFork he
  | exec q g =>
    rcases handle_exec he with ⟨-, rfl⟩ | ⟨r, -, rfl⟩
    · exact h
    · exact h.lookRec _ _
  | exit q code => exact h.evenExit he
  | comm | uid | gid | other => exact h.renamed (handle_renamed he rfl)

/-! ### No scan reads through `NULL` -/

theorem evenExit_ne_crash (h : Sound s) (fuel : ℕ) (q : Pid) (code ts : ℕ) (w : ℕ → World) :
    Model.Conn.evenExit fuel q code ts w s ≠ .crash := by
  rcases h.evenExit_cases fuel q code ts w with ⟨-, hr⟩ | ⟨d, -, -, ⟨-, hr⟩ | ⟨p, t, -, -, hr⟩⟩
  · rw [hr]; simp
  · rw [hr]; simp
  · rw [hr]; exact exitLoop_ne_crash

theorem evenFork_returns (h : Sound s) (q c : Pid) (ts : ℕ) (w : ℕ → World) :
    ∃ y, Model.Conn.evenFork q c ts w s = .ret y := by
  unfold Model.Conn.evenFork
  rcases hfp : findPare q (w 0) s with ⟨o, s₁⟩
  rcases findPare_cases hfp with ⟨-, -, rfl, -⟩ | ⟨p, rfl, hfd⟩
  · exact ⟨_, rfl⟩
  · obtain ⟨h₁, hp, -, -⟩ := h.found hfd
    rcases forkChil_cases (q := c) (h₁.lt_next p hp) ts (w 1) with
      ⟨-, u, hu, -⟩ | ⟨-, y, u, -, -, hu⟩
    · exact ⟨_, hu⟩
    · exact ⟨_, hu⟩

/-- **No handler reads through `NULL`.** -/
theorem readEven_ne_crash (h : Sound s) (fuel : ℕ) (even : ProcEvent) (w : ℕ → World) :
    readEven fuel even w s ≠ .crash := by
  have hh : Model.Conn.handle fuel even w s ≠ .crash := by
    obtain ⟨ts, data⟩ := even
    cases data with
    | fork q c =>
      obtain ⟨y, hy⟩ := h.evenFork_returns q c ts w
      simp [Model.Conn.handle, hy]
    | exit q code => exact h.evenExit_ne_crash fuel q code ts w
    | _ => simp [Model.Conn.handle]
  unfold readEven
  rcases ho : Model.Conn.handle fuel even w s with x | _ | _
  · simp [Outcome.bind]
  · exact absurd ho hh
  · simp [Outcome.bind]

end Sound

/-- **The invariant holds in every state of a run.** -/
theorem sound_of_run {tr : List (Input × State)} (hr : Steps Step init tr) :
    ∀ x ∈ tr, Sound x.2 :=
  hr.forall_mem (J := Sound) (fun _ _ _ h hs => h.step hs) sound_init

theorem sound_final {tr : List (Input × State)} (hr : Steps Step init tr) : Sound (final init tr) :=
  hr.final (J := Sound) (fun _ _ _ h hs => h.step hs) sound_init

end Serie.Tree.Invariant
