import Serie.Model.Runs
import Serie.Tree.Children

/-! # What an event writes to

An event adds records in front of the chains and writes to the records it is about (`touched`): the
one found for its pid, and at an exit its children. The pids and birth times of all other records,
and the order in which they are found, stay the same, and so does everything but their links
(`keeps_of_step`). A fork writes to no record at all. -/

namespace Serie.Records.Touched

open Serie.Lib.Trace Serie.Model.Record Serie.Model.Prfs Serie.Model.Refresh Serie.Model.Table
open Serie.Model.Conn Serie.Model.Steps Serie.Model.Loop Serie.Model.Runs Serie.Tree.Invariant
open Serie.Tree.Children

/-- The records of `s` that an event is about. -/
def touched (s : State) (data : EventData) : Set Ref :=
  match data with
  | .fork .. | .other _ => ∅
  | .exec q _ | .comm q _ | .uid q _ _ | .gid q _ _ => {r | procLook s q = some r}
  | .exit q _ => {r | ∃ d, procLook s q = some d ∧ (r = d ∨ ∃ l, Kids s d l ∧ r ∈ l)}

/-- **From `s` to `t` only the records of `W` were written**, links apart, and records were added
only in front. -/
structure Keeps (W : Set Ref) (s t : State) : Prop where
  next_le : s.next ≤ t.next
  buckets : ∀ b, ∃ new, t.buckets b = new ++ s.buckets b ∧ ∀ r ∈ new, s.next ≤ r
  pid : ∀ r < s.next, (t.heap r).pid = (s.heap r).pid
  birthTime : ∀ r < s.next, (t.heap r).birthTime = (s.heap r).birthTime
  bare : ∀ r < s.next, r ∉ W → bare (t.heap r) = bare (s.heap r)

namespace Keeps

variable {W : Set Ref} {s t u : State}

theorem write (hn : s.next ≤ t.next) (hb : t.buckets = s.buckets)
    (hp : ∀ r < s.next, (t.heap r).pid = (s.heap r).pid)
    (ht : ∀ r < s.next, (t.heap r).birthTime = (s.heap r).birthTime)
    (hw : ∀ r < s.next, r ∉ W → Model.Steps.bare (t.heap r) = Model.Steps.bare (s.heap r)) :
    Keeps W s t where
  next_le := hn
  buckets b := ⟨[], by rw [hb]; rfl, by simp⟩
  pid := hp
  birthTime := ht
  bare := hw

theorem refl (W : Set Ref) (s : State) : Keeps W s s :=
  write le_rfl rfl (fun _ _ => rfl) (fun _ _ => rfl) fun _ _ _ => rfl

theorem trans (h : Keeps W s t) (h' : Keeps W t u) : Keeps W s u where
  next_le := h.next_le.trans h'.next_le
  buckets b := by
    obtain ⟨new, hb, hnew⟩ := h.buckets b
    obtain ⟨new', hb', hnew'⟩ := h'.buckets b
    refine ⟨new' ++ new, by rw [hb', hb, List.append_assoc], fun r hr => ?_⟩
    rcases List.mem_append.mp hr with hr | hr
    · exact h.next_le.trans (hnew' r hr)
    · exact hnew r hr
  pid r hr := (h'.pid r (lt_of_lt_of_le hr h.next_le)).trans (h.pid r hr)
  birthTime r hr := (h'.birthTime r (lt_of_lt_of_le hr h.next_le)).trans (h.birthTime r hr)
  bare r hr hw := (h'.bare r (lt_of_lt_of_le hr h.next_le) hw).trans (h.bare r hr hw)

theorem of_quiet (h : Quiet s t) : Keeps W s t :=
  write h.next h.buckets (fun r hr => by rw [h.heap r hr]) (fun r hr => by rw [h.heap r hr])
    fun r hr _ => by rw [h.heap r hr]

theorem of_relinked (h : Relinked s t) : Keeps W s t :=
  write h.next.ge h.buckets (fun r _ => h.pid r)
    (fun r _ => h.field Proc.birthTime (fun _ => rfl) r) fun r _ _ => h.bare r

theorem of_adds {x : Proc} (h : Adds s x t) : Keeps W s t := by
  have hheap : ∀ r < s.next, t.heap r = s.heap r := fun r hr => by
    rw [h.heap, Function.update_of_ne hr.ne]
  constructor
  · rw [h.next]; exact Nat.le_succ _
  · intro b
    rw [h.buckets]
    by_cases hb : b = procHash x.pid
    · subst hb
      rw [Function.update_self]
      exact ⟨[s.next], rfl, by simp⟩
    · rw [Function.update_of_ne hb]
      exact ⟨[], rfl, by simp⟩
  · intro r hr; rw [hheap r hr]
  · intro r hr; rw [hheap r hr]
  · intro r hr _; rw [hheap r hr]

theorem of_found {q : Pid} {w : World} {p : Ref} (h : Found q w s p t) : Keeps W s t := by
  cases h with
  | old => exact refl W s
  | new _ _ _ ha => exact of_adds ha

theorem of_upd {r : Ref} {f : Proc → Proc} (hr : r ∈ W) (hp : (f (s.heap r)).pid = (s.heap r).pid)
    (ht : (f (s.heap r)).birthTime = (s.heap r).birthTime) : Keeps W s (s.upd r f) := by
  refine write le_rfl rfl (fun q _ => ?_) (fun q _ => ?_) fun q _ hq => ?_
  · by_cases hqr : q = r
    · subst hqr; simpa using hp
    · simp [hqr]
  · by_cases hqr : q = r
    · subst hqr; simpa using ht
    · simp [hqr]
  · have hqr : q ≠ r := by rintro rfl; exact hq hr
    simp [hqr]

theorem of_lookRec {r : Ref} (hr : r ∈ W) (f : Files) : Keeps W s (lookRec r f s).2 := by
  refine write le_rfl rfl (fun q _ => lookRec_pid q)
    (fun q _ => lookRec_field Proc.birthTime prfsLook_birthTime q) fun q _ hq => ?_
  have hqr : q ≠ r := by rintro rfl; exact hq hr
  rw [lookRec_of_ne hqr]

/-! ### The handlers -/

/-- **A fork** writes to no record. -/
theorem evenFork (h : Sound s) {q c : Pid} {ts : ℕ} {w : ℕ → World} {x : ℤ}
    (he : evenFork q c ts w s = .ret (x, t)) : Keeps W s t := by
  rcases evenFork_inv h.lt_next he with
    ⟨-, -, hq⟩ | ⟨p, s₁, hfd, ⟨-, hq⟩ | ⟨-, y, s₂, -, ha, rfl⟩⟩
  · exact of_quiet hq
  · exact (of_found hfd).trans (of_quiet hq)
  · exact ((of_found hfd).trans (of_adds ha)).trans (of_relinked (attaChil_relinked _ _))

theorem evenWrite {q : Pid} {f : Proc → Proc} (hp : ∀ y, (f y).pid = y.pid)
    (ht : ∀ y, (f y).birthTime = y.birthTime) :
    Keeps {r | procLook s q = some r} s (evenWrite q f s).2 := by
  unfold Model.Conn.evenWrite
  rcases hl : procLook s q with _ | r
  · exact refl _ s
  · exact of_upd rfl (hp _) (ht _)

/-- **A turn of the loop of `even_exit`** writes to the child it is about. -/
theorem exitTurn {d c : Ref} {w : World} {x : ℤ} (hc : c ∈ W) (hlt : c < s.next)
    (hf : (s.heap d).firsChil = some c) (he : exitTurn d c w s = .ret (x, t)) : Keeps W s t := by
  have hu : Keeps W s (orphaned d c w s).2 :=
    (of_relinked headOff_relinked).trans (of_lookRec hc _)
  rcases exitTurn_spec (w := w) hf hlt with ⟨-, ht⟩ | ⟨g, -, -, ⟨-, ht⟩ | ⟨v, -, -, hv, ht⟩ |
    ⟨p, v, -, hfd, ht⟩⟩ <;> rw [ht] at he <;> cases he
  · exact hu
  · exact hu
  · exact hu.trans (of_quiet hv)
  · exact (hu.trans (of_found hfd)).trans (of_relinked (attaChil_relinked _ _))

/-- **The loop of `even_exit`** writes to records that were children when it began: it attaches no
record to the dead one but the child of the turn. -/
theorem loopEnd {d : Ref} {w : ℕ → World} {k : ℕ} (h : InLoop d s)
    (hw : ∀ r ∈ s.tracked, (s.heap r).pare = some d → r ∈ W) (hl : LoopEnd d w k s t) :
    Keeps W s t := by
  refine (hl.inv (I := fun u => InLoop d u ∧ Keeps W s u ∧
    ∀ r ∈ u.tracked, (u.heap r).pare = some d → r ∈ W) ?_ ⟨h, refl W s, hw⟩).2.1
  rintro k u c x v ⟨hi, hk, hkids⟩ hf he
  obtain ⟨hct, hcd, -⟩ := hi.sound.firsChil hi.mem hf
  have hclt := hi.sound.lt_next c hct
  have hcW : c ∈ W := hkids c hct hcd
  refine ⟨hi.turn hf he, hk.trans (exitTurn hcW hclt hf he), fun r hr hp => ?_⟩
  rcases exitTurn_mem_or_pare hf hclt he hr with hru | hno
  · by_cases hrc : r = c
    · rw [hrc]; exact hcW
    · have hsame := ((exitTurn_handed hf hclt he).other r (hi.sound.lt_next r hru) hrc).2
      exact hkids r hru (hsame.symm.trans hp)
  · rw [hno] at hp; cases hp

theorem evenExit (h : Sound s) {fuel : ℕ} {q : Pid} {code ts : ℕ} {w : ℕ → World} {x : ℤ}
    (he : evenExit fuel q code ts w s = .ret (x, t)) : Keeps (touched s (.exit q code)) s t := by
  rcases h.evenExit_inv he with ⟨-, rfl⟩ | ⟨d, hl, hd, hcase⟩
  · exact refl _ _
  have hdW : d ∈ touched s (.exit q code) := ⟨d, hl, Or.inl rfl⟩
  have hm : Keeps (touched s (.exit q code)) s (s.upd d (markDead code ts)) := of_upd hdW rfl rfl
  rcases hcase with ⟨-, rfl⟩ | ⟨p, t₀, -, ht, hend⟩
  · exact hm
  refine (hm.trans (of_relinked ht.relinked)).trans
    (loopEnd (ht.inLoop hd) (fun r hr hp => ?_) hend)
  rw [ht.tracked] at hr
  rw [ht.pare] at hp
  split_ifs at hp
  obtain ⟨l, hkl, -, hmem⟩ := exists_kids h hd
  exact ⟨d, hl, Or.inr ⟨l, hkl, (hmem r).mpr ⟨hr, hp⟩⟩⟩

/-- **Every handler writes only to the records its event is about.** -/
theorem step (h : Sound s) {i : Input} (hst : Step s i t) :
    Keeps (touched s i.even.data) s t := by
  obtain ⟨fuel, x, he⟩ := handle_of_step hst
  obtain ⟨⟨ts, data⟩, w⟩ := i
  have key : ∀ {q : Pid} {f : Proc → Proc}, Model.Conn.evenWrite q f s = (x, t) →
      (∀ y, (f y).pid = y.pid) → (∀ y, (f y).birthTime = y.birthTime) →
      Keeps {r | procLook s q = some r} s t := by
    intro q f he hp ht
    have hk := evenWrite (s := s) (q := q) hp ht
    rwa [he] at hk
  cases data with
  | fork q c => exact evenFork h he
  | exec q g =>
    rcases handle_exec he with ⟨-, rfl⟩ | ⟨r, hl, rfl⟩
    · exact refl _ _
    · exact of_lookRec hl _
  | exit q code => exact evenExit h he
  | comm q c => exact key (Outcome.ret.inj he) (fun _ => rfl) fun _ => rfl
  | uid q a b => exact key (Outcome.ret.inj he) (fun _ => rfl) fun _ => rfl
  | gid q a b => exact key (Outcome.ret.inj he) (fun _ => rfl) fun _ => rfl
  | other n => cases he; exact refl _ _

end Keeps

/-- **An event touches only the records it is about**, in every state that a run reaches. -/
theorem keeps_of_step {tr : List (Input × State)} (hr : Steps Step init tr) {i : Input} {t : State}
    (hst : Step (final init tr) i t) :
    (∀ r ∈ (final init tr).tracked, r < (final init tr).next ∧ r ∈ t.tracked) ∧
      Keeps (touched (final init tr) i.even.data) (final init tr) t := by
  have hs := sound_final hr
  have hk := Keeps.step hs hst
  refine ⟨fun r hrt => ⟨hs.lt_next r hrt, ?_⟩, hk⟩
  obtain ⟨b, hb⟩ := hrt
  obtain ⟨new, hnew, -⟩ := hk.buckets b
  exact ⟨b, by rw [hnew]; exact List.mem_append_right _ hb⟩

/-- The exit of process `2`, whose child is taken over by process `1`. -/
theorem keeps_of_step_adopted :
    let s := final init ((trace 2 init adopted).take 2)
    let t := final init (trace 2 init adopted)
    (∀ r ∈ s.tracked, r < s.next ∧ r ∈ t.tracked) ∧ Keeps (touched s (.exit 2 0)) s t := by
  have hr : Steps Step init ((trace 2 init adopted).take 2) := adopted_steps.take 2
  exact keeps_of_step (i := input 3 (.exit 2 0) [(3, ['1'])]) hr adopted_steps.2.2.1

end Serie.Records.Touched
