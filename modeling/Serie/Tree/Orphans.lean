import Serie.Tree.Children

/-! # The children of a dead record

The loop of `even_exit` gives the children of the dead record away, the first one first. A turn that
goes through takes one child off the list, unless the record found for the parent it reports is the
dead one itself: then the child is in front again (`exitTurn_kids`), and while the answers stay the
same, so it is after every further turn. So the loop ends, and then after at most one turn for each
child, exactly if no child whose turn comes reports the pid of the dead record (`ends_iff_ok`). -/

namespace Serie.Tree.Orphans

open Serie.Lib.Trace Serie.Lib.Chain Serie.Lib.Intrusive Serie.Model.Record Serie.Model.Prfs
open Serie.Model.Refresh Serie.Model.Table Serie.Model.Conn Serie.Model.Steps Serie.Model.Loop
open Serie.Model.Runs Serie.Tree.Invariant Serie.Tree.Links Serie.Tree.Children

/-- The parent that `/proc` reports for the record `c`, if the record can be refreshed. -/
def reported (w : World) (s : State) (c : Ref) : Option Pid :=
  if readable (w.files (s.heap c).pid) then (statRead (w.files (s.heap c).pid)).map StatFields.ppid
  else none

/-! ### Turns -/

section Turn
variable {s t : State} {d c : Ref} {l : List Ref} {w : World} {x : ℤ}

theorem turnFails_iff : turnFails c w s ↔ reported w s c = none ∨
    ∃ a, reported w s c = some a ∧
      (procLook s a = some c ∨ procLook s a = none ∧ canLoad w a = false) := by
  unfold turnFails reported
  rcases hr : readable (w.files (s.heap c).pid) with _ | _
  · simp
  · obtain ⟨g, hg⟩ := statRead_of_readable hr
    simp [hg]

theorem exitTurn_procLook (h : InLoop d s) (hf : (s.heap d).firsChil = some c)
    (he : exitTurn d c w s = .ret (x, t)) (a : Pid) : procLook t a = procLook s a ∨
      procLook s a = none ∧ canLoad w a = true ∧ procLook t a = some s.next := by
  have hct := (h.sound.firsChil h.mem hf).1
  have hus := (h.sound.orphan h.mem hf w).1
  have hu : procLook (orphaned d c w s).2 a = procLook s a := procLook_orphaned a
  have hun : (orphaned d c w s).2.next = s.next := orphaned_next
  rcases exitTurn_spec (w := w) hf (h.sound.lt_next c hct) with ⟨-, ht⟩ | ⟨g, -, -, ⟨-, ht⟩ |
    ⟨v, -, -, hv, ht⟩ | ⟨p, v, -, hfd, ht⟩⟩ <;> rw [ht] at he <;> cases he
  · exact Or.inl hu
  · exact Or.inl hu
  · refine Or.inl ((procLook_congr hv.buckets fun r hr => ?_).trans hu)
    rw [hv.heap r (hus.lt_next r hr)]
  · rw [(attaChil_relinked _ _).procLook]
    cases hfd with
    | old => exact Or.inl hu
    | new hn hcl hx ha =>
      rw [ha.procLook hus.lt_next, hx.pid, hu, hun]
      by_cases hga : g.ppid = a
      · rw [if_pos hga]
        rw [hga] at hn hcl
        exact Or.inr ⟨hu.symm.trans hn, hcl, rfl⟩
      · rw [if_neg hga]; exact Or.inl rfl

theorem exitTurn_pid (h : InLoop d s) (hf : (s.heap d).firsChil = some c)
    (he : exitTurn d c w s = .ret (x, t)) {r : Ref} (hr : r < s.next) :
    (t.heap r).pid = (s.heap r).pid := by
  have hc := h.sound.lt_next c (h.sound.firsChil h.mem hf).1
  exact (exitTurn_handed hf hc he).field r hr Proc.pid (fun _ => rfl) prfsLook_pid

/-- **A turn on a list of children.** It fails, and the rest of the list is left; or the child goes
to the record that is found for the parent it reports, which may be the dead one. -/
theorem exitTurn_kids (h : InLoop d s) (hk : Kids s d (c :: l)) :
    (turnFails c w s ∧ ∃ v, exitTurn d c w s = .ret (-1, v) ∧ Kids v d l) ∨
    ¬ turnFails c w s ∧ ∃ a p v, reported w s c = some a ∧ exitTurn d c w s = .ret (0, v) ∧
      procLook v a = some p ∧ (v.heap c).pare = some p ∧
      (p = d ∧ Kids v d (c :: l) ∨ p ≠ d ∧ Kids v d l) := by
  have hf : (s.heap d).firsChil = some c := hk.1
  have hclt := h.sound.lt_next c (h.sound.firsChil h.mem hf).1
  have hdlt := h.sound.lt_next d h.mem
  have hdc : d ≠ c := (h.sound.ne_firsChil h.mem hf).symm
  have hcl : c ∉ l := (List.nodup_cons.mp (IsChain.nodup hk)).1
  have hlt : ∀ r ∈ l, r < s.next := fun r hr =>
    h.sound.lt_next r ((mem_kids_iff h.sound h.mem hk).mp (List.mem_cons_of_mem c hr)).1
  have hku : Kids (orphaned d c w s).2 d l := hk.orphaned
  have hus := (h.sound.orphan h.mem hf w).1
  have hun : (orphaned d c w s).2.next = s.next := orphaned_next
  rcases exitTurn_spec (w := w) hf hclt with ⟨hr, ht⟩ | ⟨g, hr, hg, ⟨hp, ht⟩ | ⟨v, hp, hc, hv, ht⟩ |
    ⟨p, v, hpc, hfd, ht⟩⟩
  · exact Or.inl ⟨Or.inl hr, _, ht, hku⟩
  · exact Or.inl ⟨Or.inr ⟨g, hg, Or.inl hp⟩, _, ht, hku⟩
  · refine Or.inl ⟨Or.inr ⟨g, hg, Or.inr ⟨hp, hc⟩⟩, v, ht, hku.congr ?_ fun r hrl => ?_⟩
    · rw [hv.heap d (hun ▸ hdlt)]
    · rw [hv.heap r (hun ▸ hlt r hrl)]
  · refine Or.inr ⟨fun hfail => ?_, g.ppid, p, _, by simp [reported, hr, hg], ht, ?_, ?_, ?_⟩
    · obtain ⟨v', ht'⟩ := exitTurn_of_fails hf hclt hfail
      rw [ht] at ht'; cases ht'
    · rw [(attaChil_relinked _ _).procLook]
      exact hfd.procLook hus.lt_next
    · rw [attaChil_pare hpc, if_pos rfl]
    · have hkv : Kids v d l := hku.found hfd (hun ▸ hdlt) fun r hrl => hun ▸ hlt r hrl
      by_cases hpd : p = d
      · rw [hpd]; exact Or.inl ⟨rfl, hkv.attach hdc hcl⟩
      · exact Or.inr ⟨hpd, hkv.attach_of_ne hpd hpc hcl⟩

theorem turnFails_turn (h : InLoop d s) (hf : (s.heap d).firsChil = some c)
    (he : exitTurn d c w s = .ret (x, t)) {b : Ref} (hb : b < s.next) :
    turnFails b w t ↔ turnFails b w s := by
  unfold turnFails
  rw [exitTurn_pid h hf he hb]
  refine or_congr_right (exists_congr fun g => and_congr_right fun _ => ?_)
  rcases exitTurn_procLook h hf he g.ppid with hl | ⟨hn, hc, hl⟩
  · rw [hl]
  · rw [hl, hn, hc]
    simpa using hb.ne'

theorem reported_turn (h : InLoop d s) (hf : (s.heap d).firsChil = some c)
    (he : exitTurn d c w s = .ret (x, t)) {w' : World} {b : Ref} (hb : b < s.next) :
    reported w' t b = reported w' s b := by
  unfold reported
  rw [exitTurn_pid h hf he hb]

theorem procLook_turn (h : InLoop d s) (hf : (s.heap d).firsChil = some c)
    (he : exitTurn d c w s = .ret (x, t)) {a : Pid} {r : Ref} (hl : procLook s a = some r) :
    procLook t a = some r := by
  rcases exitTurn_procLook h hf he a with he' | ⟨hn, -⟩
  · exact he'.trans hl
  · rw [hl] at hn; cases hn

end Turn

/-! ### Answers that stay the same -/

section Fixed
variable {s : State} {d : Ref} {l : List Ref} {w : World}

/-- No child whose turn comes reports the pid `q`: none before it ends the loop. -/
def NoneReports (q : Pid) (w : World) (s : State) (l : List Ref) : Prop :=
  ∀ l₁ c l₂, l = l₁ ++ c :: l₂ → (∀ b ∈ l₁, ¬ turnFails b w s) → reported w s c ≠ some q

theorem kids_lt (h : InLoop d s) (hk : Kids s d l) {r : Ref} (hr : r ∈ l) : r < s.next :=
  h.sound.lt_next r ((mem_kids_iff h.sound h.mem hk).mp hr).1

/-- The loop makes at most one turn for each child. -/
theorem exitLoop_returns {q : Pid} {k : ℕ} (h : InLoop d s) (hq : (s.heap d).pid = q)
    (hk : Kids s d l) (hn : NoneReports q w s l) :
    ∃ y, exitLoop d (fun _ => w) l.length k s = .ret y := by
  refine exitLoop_ret (I := fun _ s l => InLoop d s ∧ (s.heap d).pid = q ∧ Kids s d l ∧
    NoneReports q w s l) (fun _ _ hs => hs.2.2.1) ?_ ⟨h, hq, hk, hn⟩
  rintro k s c l ⟨h, hq, hk, hn⟩
  have hf : (s.heap d).firsChil = some c := hk.1
  refine ⟨hf, ?_⟩
  rcases exitTurn_kids (w := w) h hk with ⟨-, v, ht, -⟩ | ⟨hok, a, p, v, ha, ht, hp, -, hcase⟩
  · exact Or.inl ⟨v, ht⟩
  · have hi : InLoop d v := h.turn hf ht
    have hqv : (v.heap d).pid = q := (exitTurn_pid h hf ht (h.sound.lt_next d h.mem)).trans hq
    have hpd : p ≠ d := by
      rintro rfl
      have hap : a = q := (procLook_some hp).2.symm.trans hqv
      exact hn [] c l rfl (by simp) (hap ▸ ha)
    have hkv : Kids v d l := (hcase.resolve_left fun hd => hpd hd.1).2
    have hnv : NoneReports q w v l := by
      rintro l₁ b l₂ rfl hb
      have hlt : ∀ r ∈ c :: (l₁ ++ b :: l₂), r < s.next := fun r hr => kids_lt h hk hr
      rw [reported_turn h hf ht (hlt b (by simp))]
      refine hn (c :: l₁) b l₂ rfl fun r hr => ?_
      rcases List.mem_cons.mp hr with rfl | hr
      · exact hok
      · rw [← turnFails_turn h hf ht (hlt r (by simp [hr]))]
        exact hb r hr
    exact Or.inr ⟨v, ht, hi, hqv, hkv, hnv⟩

/-- If a child whose turn comes reports the pid, the loop never ends. -/
theorem exitLoop_spins {q : Pid} : ∀ {fuel : ℕ} {l₁ l₂ : List Ref} {c : Ref} {s : State} {k : ℕ},
    InLoop d s → procLook s q = some d → Kids s d (l₁ ++ c :: l₂) →
      (∀ b ∈ l₁, ¬ turnFails b w s) → reported w s c = some q →
        exitLoop d (fun _ => w) fuel k s = .spin
  | 0, [], _, _, _, _, _, _, hk, _, _ => exitLoop_zero hk.1
  | 0, _ :: _, _, _, _, _, _, _, hk, _, _ => exitLoop_zero hk.1
  | fuel + 1, [], l₂, c, s, k, h, hq, hk, hb, hc => by
    have hf : (s.heap d).firsChil = some c := hk.1
    have hclt := kids_lt h hk (r := c) (by simp)
    rcases exitTurn_kids (w := w) h hk with ⟨hfail, -⟩ | ⟨-, a, p, v, ha, ht, hp, -, hcase⟩
    · rcases turnFails_iff.mp hfail with hno | ⟨a, ha, hl⟩
      · rw [hc] at hno; cases hno
      · rw [hc] at ha; cases ha
        rcases hl with hl | ⟨hl, -⟩ <;> rw [hq] at hl <;> cases hl
        exact absurd rfl (h.sound.ne_firsChil h.mem hf)
    have hqv : procLook v q = some d := procLook_turn h hf ht hq
    have haq : a = q := by
      rw [hc] at ha
      exact (Option.some.inj ha).symm
    have hpd : p = d := by
      rw [haq, hqv] at hp
      exact (Option.some.inj hp).symm
    -- the child is in front again
    have hkv : Kids v d ([] ++ c :: l₂) := (hcase.resolve_right fun hd => hd.1 hpd).2
    rw [exitLoop_turn (w := fun _ => w) hf ht]
    exact exitLoop_spins (h.turn hf ht) hqv hkv (by simp)
      ((reported_turn h hf ht hclt).trans hc)
  | fuel + 1, b :: l₁, l₂, c, s, k, h, hq, hk, hb, hc => by
    have hf : (s.heap d).firsChil = some b := hk.1
    have hlt : ∀ r ∈ b :: (l₁ ++ c :: l₂), r < s.next := fun r hr => kids_lt h hk hr
    rcases exitTurn_kids (w := w) h hk with ⟨hfail, -⟩ | ⟨hok, a, p, v, -, ht, -, -, hcase⟩
    · exact absurd hfail (hb b (by simp))
    have hi := h.turn hf ht
    have hqv : procLook v q = some d := procLook_turn h hf ht hq
    have hbv : ∀ r ∈ b :: l₁, ¬ turnFails r w v := fun r hr => by
      have hrlt : r < s.next := by
        apply hlt
        rcases List.mem_cons.mp hr with rfl | hr
        · simp
        · simp [hr]
      rw [turnFails_turn h hf ht hrlt]
      exact hb r hr
    have hcv : reported w v c = some q := (reported_turn h hf ht (hlt c (by simp))).trans hc
    rw [exitLoop_turn (w := fun _ => w) hf ht]
    rcases hcase with ⟨-, hkv⟩ | ⟨-, hkv⟩
    · have hkb : Kids v d ((b :: l₁) ++ c :: l₂) := hkv
      exact exitLoop_spins hi hqv hkb hbv hcv
    · exact exitLoop_spins hi hqv hkv (fun r hr => hbv r (by simp [hr])) hcv

end Fixed

/-! ### The call -/

section Call
variable {s t : State} {d p : Ref} {code ts : ℕ} {l : List Ref} {w : World}

theorem kids_erase_detached (h : Sound s) (hd : d ∈ s.tracked) (hp : (s.heap d).pare = some p)
    (ht : Detached s d p code ts t) {r : Ref} (hr : r ∈ s.tracked) (hk : Kids s r l) :
    Kids t r (l.erase d) := by
  obtain ⟨kids, hf⟩ := h.forest
  have hlinks : (s.upd d (markDead code ts)).links = s.links := Sound.upd_markDead_links d code ts
  have hpt : p ∈ s.tracked := h.pare_mem hd hp
  obtain ⟨t', ht', -, hft⟩ := detaChil_of_mem (s := s.upd d (markDead code ts)) (hlinks.symm ▸ hf)
    h.lt_next hpt ((hf.mem_iff p hpt d hd).mpr hp)
  rw [ht.run] at ht'
  cases ht'
  obtain rfl : l = kids r := IsChain.unique hk (hf.chain r hr)
  have hch := hft.chain r hr
  by_cases hrp : r = p
  · rw [hrp, Function.update_self, ← hrp] at hch
    exact hch
  · rw [Function.update_of_ne hrp] at hch
    have hnot : d ∉ kids r := fun hm => by
      have hdr := (hf.mem_iff r hr d hd).mp hm
      have hdp : s.links.up d = some p := hp
      rw [hdp] at hdr
      exact hrp (Option.some.inj hdr).symm
    rwa [List.erase_of_not_mem hnot]

theorem kids_detached (h : Sound s) (hd : d ∈ s.tracked) (hp : (s.heap d).pare = some p)
    (ht : Detached s d p code ts t) (hk : Kids s d l) : Kids t d l := by
  have hnot : d ∉ l := fun hm => h.no_self d hd ((mem_kids_iff h hd hk).mp hm).2
  have := kids_erase_detached h hd hp ht hd hk
  rwa [List.erase_of_not_mem hnot] at this

theorem reported_detached (ht : Detached s d p code ts t) (c : Ref) :
    reported w t c = reported w s c := by
  unfold reported
  rw [ht.relinked.pid, Sound.markDead_pid]

theorem procLook_detached (ht : Detached s d p code ts t) (a : Pid) :
    procLook t a = procLook s a :=
  (ht.relinked.procLook a).trans (Sound.procLook_markDead d code ts a)

theorem turnFails_detached (ht : Detached s d p code ts t) (c : Ref) :
    turnFails c w t ↔ turnFails c w s := by
  simp only [turnFails_iff, reported_detached ht, procLook_detached ht]

/-- The condition: if the exit finds a record that has a parent, no child whose turn comes reports
the pid of the exit. -/
def Ok (s : State) (q : Pid) (w : World) : Prop :=
  ∀ d l, procLook s q = some d → (s.heap d).pare ≠ none → Kids s d l → NoneReports q w s l

/-- The loop ends after at most as many turns as the dead record had children. -/
def Ends (s : State) (q : Pid) (code ts : ℕ) (w : World) : Prop :=
  ∀ d l, procLook s q = some d → Kids s d l →
    ∃ y, evenExit l.length q code ts (fun _ => w) s = .ret y

theorem ends_of_ok (h : Sound s) {q : Pid} (hok : Ok s q w) : Ends s q code ts w := by
  intro d l hl hk
  rcases h.evenExit_cases l.length q code ts (fun _ => w) with
    ⟨hn, -⟩ | ⟨d', hl', hd, ⟨-, he⟩ | ⟨p, t, hp, ht, he⟩⟩
  · rw [hl] at hn; cases hn
  · exact ⟨_, he⟩
  rw [hl] at hl'; cases hl'
  rw [he]
  have hqd : (t.heap d).pid = q := by
    rw [ht.relinked.pid, Sound.markDead_pid]; exact (procLook_some hl).2
  have hn : NoneReports q w s l := hok d l hl (by simp [hp]) hk
  refine exitLoop_returns (ht.inLoop hd) hqd (kids_detached h hd hp ht hk) ?_
  intro l₁ c l₂ hls hb
  rw [reported_detached ht]
  exact hn l₁ c l₂ hls fun b hbl => by
    rw [← turnFails_detached ht]; exact hb b hbl

theorem spins_of_not_ok (h : Sound s) {q : Pid} (hok : ¬ Ok s q w) (fuel : ℕ) :
    evenExit fuel q code ts (fun _ => w) s = .spin := by
  simp only [Ok, NoneReports, not_forall, not_not] at hok
  obtain ⟨d, l, hl, hp, hk, l₁, c, l₂, rfl, hb, hc⟩ := hok
  rcases h.evenExit_cases fuel q code ts (fun _ => w) with
    ⟨hn, -⟩ | ⟨d', hl', hd, ⟨hno, -⟩ | ⟨p, t, hp', ht, he⟩⟩
  · rw [hl] at hn; cases hn
  · rw [hl] at hl'; cases hl'
    exact absurd hno hp
  rw [hl] at hl'; cases hl'
  rw [he]
  refine exitLoop_spins (ht.inLoop hd) ((procLook_detached ht q).trans hl)
    (kids_detached h hd hp' ht hk) (fun b hbl => ?_) ((reported_detached ht c).trans hc)
  rw [turnFails_detached ht]
  exact hb b hbl

end Call

/-- **The loop of `even_exit` ends in time exactly if no child whose turn comes reports the dying
pid**; if one does, it never ends. -/
theorem ends_iff_ok {tr : List (Input × State)} (hr : Steps Step init tr) (q : Pid) (code ts : ℕ)
    (w : World) :
    (Ends (final init tr) q code ts w ↔ Ok (final init tr) q w) ∧
      ((∃ fuel y, evenExit fuel q code ts (fun _ => w) (final init tr) = .ret y) ↔
        Ok (final init tr) q w) := by
  have h := sound_final hr
  have hspin : ∀ fuel y, evenExit fuel q code ts (fun _ => w) (final init tr) = .ret y →
      Ok (final init tr) q w := by
    intro fuel y he
    by_contra hok
    rw [spins_of_not_ok h hok fuel] at he
    cases he
  refine ⟨⟨fun hends => ?_, ends_of_ok h⟩, fun ⟨fuel, y, he⟩ => hspin fuel y he, fun hok => ?_⟩
  · intro d l hl hp hk
    obtain ⟨y, hy⟩ := hends d l hl hk
    exact hspin _ y hy d l hl hp hk
  · rcases hl : procLook (final init tr) q with _ | d
    · exact ⟨0, _, by rw [evenExit, hl]⟩
    · obtain ⟨l, hk, -⟩ := exists_kids h (procLook_some hl).1
      have hends : Ends (final init tr) q code ts w := ends_of_ok h hok
      obtain ⟨y, hy⟩ := hends d l hl hk
      exact ⟨l.length, y, hy⟩

theorem ends_iff_ok_adopted :
    let s := final init ((trace 2 init adopted).take 2)
    let w := answers [(3, ['1'])] 0
    (Ends s 2 0 3 w ↔ Ok s 2 w) ∧
      ((∃ fuel y, evenExit fuel 2 0 3 (fun _ => w) s = .ret y) ↔ Ok s 2 w) := by
  exact ends_iff_ok (adopted_steps.take 2) 2 0 3 (answers [(3, ['1'])] 0)

/-- A process and its child; the leader of the child's group has exited, so the child still reports
it. -/
def leader : List Input := [
  input 1 (.fork 1 2) [(1, ['0']), (2, ['1'])],
  input 2 (.fork 2 3) [(3, ['2'])]]

/-- The exit of process `2` never returns. -/
theorem not_ends_leader : Steps Step init (trace 0 init leader) ∧
    (∀ fuel, evenExit fuel 2 0 3 (answers [(3, ['2'])]) (final init (trace 0 init leader)) =
      .spin) ∧
    ¬ Ends (final init (trace 0 init leader)) 2 0 3 (answers [(3, ['2'])] 0) := by
  have hr : Steps Step init (trace 0 init leader) := steps_trace (by decide)
  have h := sound_final hr
  have hl : procLook (final init (trace 0 init leader)) 2 = some 1 := by decide
  have hlast : ((final init (trace 0 init leader)).heap 2).nextSibl = none := by decide
  have hk : Kids (final init (trace 0 init leader)) 1 [2] := ⟨by decide, hlast⟩
  have hok : ¬ Ok (final init (trace 0 init leader)) 2 (answers [(3, ['2'])] 0) := by
    intro hok
    refine hok 1 [2] hl (by decide) hk [] 2 [] rfl (by simp) (by decide)
  refine ⟨hr, spins_of_not_ok h hok, fun hends => ?_⟩
  obtain ⟨y, hy⟩ := hends 1 [2] hl hk
  rw [spins_of_not_ok h hok] at hy
  cases hy

end Serie.Tree.Orphans
