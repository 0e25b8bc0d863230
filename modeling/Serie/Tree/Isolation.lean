import Serie.Model.Runs
import Serie.Tree.Rule

/-! # Dead records in the tree

A dead record has no parent (`Sound.root_of_dead`). It may keep or get children, in three ways: a
fork may name it as the parent; it may have had no parent when it died, in which case its children
are not handed on; and a turn of the loop of `even_exit` may fail with children left, or find a dead
record for the child. `isolated_iff_ok`: in a run without these steps, and only then, dead records
are isolated after every event. -/

namespace Serie.Tree.Isolation

open Serie.Lib.Trace Serie.Lib.Intrusive Serie.Model.Record Serie.Model.Prfs Serie.Model.Refresh
open Serie.Model.Table Serie.Model.Conn Serie.Model.Steps Serie.Model.Loop Serie.Model.Runs
open Serie.Tree.Invariant Serie.Tree.Rule

/-- Dead records have no links. -/
def Isolated (s : State) : Prop :=
  ∀ r ∈ s.tracked, (s.heap r).alive = false → (s.heap r).pare = none ∧ (s.heap r).firsChil = none

/-- The parents are alive, except that `ex` may be one. -/
def Under (ex : Option Ref) (s : State) : Prop :=
  ∀ c ∈ s.tracked, ∀ p, (s.heap c).pare = some p → some p = ex ∨ (s.heap p).alive = true

/-! ### The condition -/

/-- A fork does not put its child under a dead record. -/
def ForkOk (q c : Pid) (w : ℕ → World) (s : State) : Prop :=
  ∀ p, procLook s q = some p → canLoad (w 1) c = true → (s.heap p).alive = true

/-- A turn of the loop leaves no children behind when it fails, and does not find a dead record
other than the one whose children are handed on. -/
def TurnOk (d : Ref) (w : World) (s : State) : Prop :=
  ∀ c, (s.heap d).firsChil = some c → (turnFails c w s → (s.heap c).nextSibl = none) ∧
    ∀ g p, readable (w.files (s.heap c).pid) = true → statRead (w.files (s.heap c).pid) = some g →
      procLook s g.ppid = some p → p ≠ d → (s.heap p).alive = true

/-- An exit finds a record with a parent, or without children; and every turn of its loop is in
order. -/
def ExitOk (q : Pid) (code ts : ℕ) (w : ℕ → World) (s : State) : Prop :=
  ∀ d, procLook s q = some d →
    ((s.heap d).pare = none → (s.heap d).firsChil = none) ∧
    ∀ p t, (s.heap d).pare = some p →
      detaChil (some p) (some d) (s.upd d (markDead code ts)) = .ret (0, t) →
        ∀ k s', LoopAt d w 0 t k s' → TurnOk d (w k) s'

/-- The condition on an event. -/
def Ok (s : State) (i : Input) : Prop :=
  match i.even.data with
  | .fork q c => ForkOk q c i.world s
  | .exit q code => ExitOk q code i.even.timestampNs i.world s
  | _ => True

section Under
variable {s t : State} {ex : Option Ref} {d c p : Ref}

theorem not_under_of_dead (hc : c ∈ s.tracked) (hp : (s.heap c).pare = some p)
    (ha : (s.heap p).alive = false) : ¬ Under none s := by
  intro hu
  rcases hu c hc p hp with hx | hx
  · cases hx
  · rw [ha] at hx; cases hx

theorem isolated_iff (h : Sound s) : Isolated s ↔ Under none s := by
  constructor
  · intro hi c hc p hp
    have hpt : p ∈ s.tracked := h.pare_mem hc hp
    by_contra ha
    exact h.barren hpt (hi p hpt (by simpa using ha)).2 c hc hp
  · intro hu r hr ha
    refine ⟨h.root_of_dead r hr ha, ?_⟩
    by_contra hf
    obtain ⟨c, hc⟩ := Option.ne_none_iff_exists'.mp hf
    obtain ⟨hct, hcp, -⟩ := h.firsChil hr hc
    exact not_under_of_dead hct hcp ha hu

theorem Under.of_barren (h : Sound s) (hu : Under (some d) s) (hd : d ∈ s.tracked)
    (hf : (s.heap d).firsChil = none) : Under none s := by
  intro c hc p hp
  rcases hu c hc p hp with hx | hx
  · obtain rfl := Option.some.inj hx
    exact absurd hp (h.barren hd hf c hc)
  · exact Or.inr hx

theorem Under.except (hu : Under none s) (ht : t.tracked = s.tracked)
    (hpare : ∀ r p, (t.heap r).pare = some p → (s.heap r).pare = some p)
    (halive : ∀ r ≠ d, (t.heap r).alive = (s.heap r).alive) : Under (some d) t := by
  intro c hc p hp
  rw [ht] at hc
  by_cases hpd : p = d
  · exact Or.inl (by rw [hpd])
  · have hpa := hu c hc p (hpare c p hp)
    rw [halive p hpd]
    exact Or.inr (hpa.resolve_left (by simp))

/-! ### What keeps the parents alive -/

theorem Under.quiet (hu : Under ex s) (h : Sound s) (hq : Quiet s t) : Under ex t := by
  intro c hc p hp
  rw [hq.tracked] at hc
  rw [hq.heap c (h.lt_next c hc)] at hp
  have hpt : p ∈ s.tracked := h.pare_mem hc hp
  rw [hq.heap p (h.lt_next p hpt)]
  exact hu c hc p hp

theorem Under.adds (hu : Under ex s) (h : Sound s) {x : Proc} (ha : Adds s x t)
    (hx : x.pare = none) : Under ex t := by
  intro c hc p hp
  rw [ha.tracked] at hc
  rcases hc with rfl | hc
  · rw [ha.heap, Function.update_self, hx] at hp; cases hp
  · rw [ha.heap, Function.update_of_ne (h.lt_next c hc).ne] at hp
    have hpt : p ∈ s.tracked := h.pare_mem hc hp
    rw [ha.heap, Function.update_of_ne (h.lt_next p hpt).ne]
    exact hu c hc p hp

theorem under_grows : Grows (Under ex) where
  quiet h hq hu := hu.quiet h hq
  adds h ha hx hu := hu.adds h ha hx

theorem Under.orphan (hu : Under ex s) {w : World} : Under ex (orphaned d c w s).2 := by
  intro r hr p hp
  rw [orphaned_tracked] at hr
  rw [orphaned_pare] at hp
  split_ifs at hp
  exact (hu r hr p hp).imp_right fun ha => orphaned_alive ha

theorem Under.attach (hu : Under ex s) (hne : p ≠ c)
    (hp : some p = ex ∨ (s.heap p).alive = true) :
    Under ex (attaChil (some p) (some c) s).2 := by
  intro r hr p' hp'
  rw [(attaChil_relinked _ _).tracked] at hr
  rw [(attaChil_relinked _ _).alive]
  rw [attaChil_pare hne] at hp'
  split_ifs at hp'
  · cases hp'; exact hp
  · exact hu r hr p' hp'

/-! ### The loop -/

theorem Under.turn (hu : Under (some d) s) (h : InLoop d s) {w : World} {x : ℤ}
    (hf : (s.heap d).firsChil = some c) (hok : TurnOk d w s)
    (he : exitTurn d c w s = .ret (x, t)) : Under (some d) t := by
  refine under_grows.turn h hf hu.orphan (fun g p v hr hg hpc hfd _ hv => ?_) he
  refine hv.attach hpc ?_
  by_cases hpd : p = d
  · exact Or.inl (by rw [hpd])
  · refine Or.inr (hfd.alive fun hl => ?_)
    rw [procLook_orphaned] at hl
    exact orphaned_alive ((hok c hf).2 g p hr hg hl hpd)

/-- The loop in order: at every head no dead record other than `d` has children. -/
theorem Under.loopAt {w : ℕ → World} (hu : Under (some d) s) (h : InLoop d s)
    (hok : ∀ k s', LoopAt d w 0 s k s' → TurnOk d (w k) s') {k : ℕ} (hl : LoopAt d w 0 s k t) :
    Under (some d) t :=
  inv_of_loopAt (fun _ _ _ _ _ hi hv hf hok he => Under.turn hv hi hf hok he) h hu hok hl

/-- **The loop in order ends with every parent alive.** -/
theorem Under.loopEnd {w : ℕ → World} (hu : Under (some d) s) (h : InLoop d s)
    (hok : ∀ k s', LoopAt d w 0 s k s' → TurnOk d (w k) s') (hl : LoopEnd d w 0 s t) :
    Under none t := by
  have ht := h.loopEnd hl
  obtain ⟨k, s', hat, ⟨hf, rfl⟩ | ⟨c, hf, he⟩⟩ := hl
  · exact Under.of_barren ht.sound (hu.loopAt h hok hat) ht.mem hf
  · have hs' := h.loopAt hat
    have hct := hs'.sound.lt_next c (hs'.sound.firsChil hs'.mem hf).1
    obtain ⟨hfail, hft⟩ := exitTurn_failed hf hct (hs'.sound.lt_next d hs'.mem) he
    refine Under.of_barren ht.sound ((hu.loopAt h hok hat).turn hs' hf (hok k s' hat) he) ht.mem ?_
    rw [hft]; exact (hok k s' hat c hf).1 hfail

end Under

/-! ### Steps that are not in order -/

section Stray
variable {s t : State} {d c p : Ref}

/-- `c` is under the dead record `p`, which is not `d`. -/
structure Stray (d c p : Ref) (s : State) : Prop where
  inLoop : InLoop d s
  mem : c ∈ s.tracked
  pare : (s.heap c).pare = some p
  ne : p ≠ d
  dead : (s.heap p).alive = false

theorem Stray.pare_mem (h : Stray d c p s) : p ∈ s.tracked :=
  h.inLoop.sound.pare_mem h.mem h.pare

theorem Stray.not_under (h : Stray d c p s) : ¬ Under none s :=
  not_under_of_dead h.mem h.pare h.dead

/-- The loop does not see it: the first child of `d` is another record, and alive. -/
theorem Stray.turn (h : Stray d c p s) {w : World} {x : ℤ} {c' : Ref}
    (hf : (s.heap d).firsChil = some c') (he : exitTurn d c' w s = .ret (x, t)) :
    Stray d c p t := by
  have hs := h.inLoop.sound
  obtain ⟨hc't, hc'p, hc'a⟩ := hs.firsChil h.inLoop.mem hf
  have hcc : c ≠ c' := by
    rintro rfl
    rw [h.pare] at hc'p
    exact h.ne (Option.some.inj hc'p)
  have hpc : p ≠ c' := by
    rintro rfl
    rw [h.dead] at hc'a; cases hc'a
  have hh := exitTurn_handed hf (hs.lt_next c' hc't) he
  refine ⟨h.inLoop.turn hf he, (hs.exitTurn h.inLoop.mem hf he).2 h.mem, ?_, h.ne, ?_⟩
  · rw [(hh.other c (hs.lt_next c h.mem) hcc).2]; exact h.pare
  · rw [hh.other_field Proc.alive (fun _ => rfl) (hs.lt_next p h.pare_mem) hpc]; exact h.dead

theorem Stray.loopEnd (h : Stray d c p s) {w : ℕ → World} {k : ℕ} (hl : LoopEnd d w k s t) :
    Stray d c p t :=
  hl.inv (I := Stray d c p) (fun _ _ _ _ _ hs hf he => hs.turn hf he) h

/-- **A turn that is not in order** leaves a record under a dead one. -/
theorem not_under_of_turn (h : InLoop d s) {w : ℕ → World} {k : ℕ} (hok : ¬ TurnOk d (w k) s)
    (hl : LoopEnd d w k s t) : ¬ Under none t := by
  simp only [TurnOk, not_forall, not_and_or] at hok
  obtain ⟨c, hf, hbad⟩ := hok
  obtain ⟨hct, hcp, hca⟩ := h.sound.firsChil h.mem hf
  have hcn := h.sound.lt_next c hct
  rcases hbad with ⟨hfail, hn⟩ | ⟨g, p, hr, hg, hp, hpd, hpa⟩
  · -- the turn fails and leaves the next child under `d`
    obtain ⟨v, hv⟩ := exitTurn_of_fails hf hcn hfail
    rcases hl.cons hf with he | ⟨s', he, -⟩ <;> rw [hv] at he <;> cases he
    have ht := h.turn hf hv
    have hft := (exitTurn_failed hf hcn (h.sound.lt_next d h.mem) hv).2
    obtain ⟨c', hc'⟩ := Option.ne_none_iff_exists'.mp hn
    rw [hc'] at hft
    obtain ⟨hc't, hc'p, -⟩ := ht.sound.firsChil ht.mem hft
    exact not_under_of_dead hc't hc'p ht.dead
  · -- the child goes under the dead record `p`
    have hpa : (s.heap p).alive = false := by simpa using hpa
    have hpc : p ≠ c := by rintro rfl; rw [hca] at hpa; cases hpa
    have hturn := exitTurn_of_procLook hf hcn hr hg hp hpc
    have hi := h.turn hf hturn
    have hstray : Stray d c p (attaChil (some p) (some c) (orphaned d c (w k) s).2).2 := by
      refine ⟨hi, ?_, by rw [attaChil_pare hpc, if_pos rfl], hpd, ?_⟩
      · rw [(attaChil_relinked _ _).tracked, orphaned_tracked]; exact hct
      · have hh := exitTurn_handed hf hcn hturn
        rw [hh.other_field Proc.alive (fun _ => rfl)
          (h.sound.lt_next p (procLook_some hp).1) hpc]
        exact hpa
    rcases hl.cons hf with he | ⟨s', he, hl'⟩ <;> rw [hturn] at he <;> cases he
    exact (hstray.loopEnd hl').not_under

end Stray

/-! ### The handlers -/

section Handlers
variable {s t : State}

theorem Under.detached (hu : Under none s) {d p : Ref} {code ts : ℕ}
    (ht : Detached s d p code ts t) : Under (some d) t := by
  refine hu.except ht.tracked (fun r p' hp' => ?_) fun r hr => by rw [ht.alive, if_neg hr]
  rw [ht.pare] at hp'
  split_ifs at hp'
  exact hp'

theorem Under.exit (hu : Under none s) (h : Sound s) {q : Pid} {code ts : ℕ} {w : ℕ → World}
    (hok : ExitOk q code ts w s) {fuel : ℕ} {x : ℤ}
    (he : evenExit fuel q code ts w s = .ret (x, t)) : Under none t := by
  rcases h.evenExit_inv he with ⟨-, rfl⟩ | ⟨d, hl, hd, ⟨hp, rfl⟩ | ⟨p, t₀, hp, ht, hend⟩⟩
  · exact hu
  · have hbar := (hok d hl).1 hp
    have hex : Under (some d) (s.upd d (markDead code ts)) := by
      refine hu.except rfl (fun r p' hp' => ?_) fun r hr => ?_
      · rwa [Sound.markDead_pare] at hp'
      · rw [Sound.markDead_alive, if_neg hr]
    exact hex.of_barren (h.mark hp code ts) hd (by simpa [markDead] using hbar)
  · exact (hu.detached ht).loopEnd (ht.inLoop hd) ((hok d hl).2 p t₀ hp ht.run) hend

/-- **An exit that is not in order** leaves a record under a dead one. -/
theorem not_under_exit (h : Sound s) {q : Pid} {code ts : ℕ} {w : ℕ → World}
    (hok : ¬ ExitOk q code ts w s) {fuel : ℕ} {x : ℤ}
    (he : evenExit fuel q code ts w s = .ret (x, t)) : ¬ Under none t := by
  simp only [ExitOk, not_forall, not_and_or] at hok
  obtain ⟨d, hl, hbad⟩ := hok
  rcases h.evenExit_inv he with ⟨hl', -⟩ | ⟨d', hl', hd, hcase⟩ <;> rw [hl] at hl' <;> cases hl'
  rcases hbad with ⟨hp, hf⟩ | ⟨p, t₀, hp, hrun, k, s', hat, hturn⟩
  · rcases hcase with ⟨-, rfl⟩ | ⟨p, t₀, hp', -⟩
    · obtain ⟨c, hc⟩ := Option.ne_none_iff_exists'.mp hf
      obtain ⟨hct, hcp, -⟩ := h.firsChil hd hc
      refine not_under_of_dead (p := d) hct ?_ ?_
      · rw [Sound.markDead_pare]; exact hcp
      · rw [Sound.markDead_alive, if_pos rfl]
    · rw [hp] at hp'; cases hp'
  · rcases hcase with ⟨hp', -⟩ | ⟨p', t₁, hp', ht, hend⟩ <;> rw [hp] at hp' <;> cases hp'
    have hrun' := ht.run
    rw [hrun] at hrun'; cases hrun'
    exact not_under_of_turn ((ht.inLoop hd).loopAt hat) hturn (hend.of_loopAt hat)

theorem Under.fork (hu : Under none s) (h : Sound s) {q c : Pid} {ts : ℕ} {w : ℕ → World}
    (hok : ForkOk q c w s) {x : ℤ} (he : evenFork q c ts w s = .ret (x, t)) : Under none t := by
  refine under_grows.fork h hu (fun p s₁ y s₂ hfd hc h₁ _ hy ha hs₂ => ?_) he
  have hpn := h₁.lt_next p (h.found hfd).2.1
  refine hs₂.attach hpn.ne (Or.inr ?_)
  rw [ha.heap, Function.update_of_ne hpn.ne]
  exact hfd.alive fun hl => hok p hl hc

/-- **A fork under a dead record** puts the child there. -/
theorem not_under_fork (h : Sound s) {q c : Pid} {ts : ℕ} {w : ℕ → World}
    (hok : ¬ ForkOk q c w s) {x : ℤ} (he : evenFork q c ts w s = .ret (x, t)) :
    ¬ Under none t := by
  simp only [ForkOk, not_forall] at hok
  obtain ⟨p, hp, hc, hpa⟩ := hok
  have hpa : (s.heap p).alive = false := by simpa using hpa
  rcases evenFork_inv h.lt_next he with
    ⟨hn, -, -⟩ | ⟨p', s₁, hfd, ⟨hn, -⟩ | ⟨-, y, s₂, hy, ha, rfl⟩⟩
  · rw [hp] at hn; cases hn
  · rw [hc] at hn; cases hn
  · cases hfd with
    | new hn => rw [hp] at hn; cases hn
    | old hp' =>
      rw [hp] at hp'; cases hp'
      have hpn := h.lt_next p (procLook_some hp).1
      refine not_under_of_dead (c := s.next) (p := p) ?_ ?_ ?_
      · rw [(attaChil_relinked _ _).tracked, ha.tracked]; exact Or.inl rfl
      · rw [attaChil_pare hpn.ne, if_pos rfl]
      · rw [(attaChil_relinked _ _).alive, ha.heap, Function.update_of_ne hpn.ne, hpa]

theorem Under.lookRec (hu : Under none s) (r : Ref) (f : Files) :
    Under none (lookRec r f s).2 := by
  intro c hc p hp
  rw [lookRec_tracked] at hc
  rw [lookRec_field Proc.pare prfsLook_pare] at hp
  exact (hu c hc p hp).imp_right fun ha => lookRec_alive ha

theorem Under.renamed (hu : Under none s) (hr : Renamed s t) : Under none t := by
  intro c hc p hp
  rw [hr.tracked] at hc
  rw [hr.pare] at hp
  rw [hr.alive]
  exact hu c hc p hp

/-- **An event keeps the parents alive if it meets the condition.** -/
theorem Under.step (hu : Under none s) (h : Sound s) {i : Input} (hok : Ok s i)
    (hs : Step s i t) : Under none t := by
  obtain ⟨fuel, x, he⟩ := handle_of_step hs
  obtain ⟨⟨ts, data⟩, w⟩ := i
  cases data with
  | fork q c => exact hu.fork h hok he
  | exec q g =>
    rcases handle_exec he with ⟨-, rfl⟩ | ⟨r, -, rfl⟩
    · exact hu
    · exact hu.lookRec _ _
  | exit q code => exact hu.exit h hok he
  | comm | uid | gid | other => exact hu.renamed (handle_renamed he rfl)

theorem not_under_step (h : Sound s) {i : Input} (hok : ¬ Ok s i) (hs : Step s i t) :
    ¬ Under none t := by
  obtain ⟨fuel, x, he⟩ := handle_of_step hs
  obtain ⟨⟨ts, data⟩, w⟩ := i
  cases data with
  | fork q c => exact not_under_fork h hok he
  | exit q code => exact not_under_exit h hok he
  | exec | comm | uid | gid | other => exact absurd trivial hok

end Handlers

/-- **Dead records are isolated after every event of a run exactly when every event meets the
condition.** -/
theorem isolated_iff_ok {tr : List (Input × State)} (hr : Steps Step init tr) :
    (∀ x ∈ tr, Isolated x.2) ↔ Steps (fun s i _ => Ok s i) init tr := by
  refine Steps.forall_mem_iff (J := fun s => Sound s ∧ Under none s) (G := Ok)
    (fun s hs => (isolated_iff hs.1).mpr hs.2)
    (fun s i t hs hst hok => ⟨hs.1.step hst, hs.2.step hs.1 hok hst⟩)
    (fun s i t hs hst hok hi => not_under_step hs.1 hok hst ((isolated_iff (hs.1.step hst)).mp hi))
    ⟨sound_init, ?_⟩ hr
  exact fun c ht => absurd ht (notMem_init c)

theorem isolated_iff_ok_adopted : (∀ x ∈ trace 2 init adopted, Isolated x.2) ↔
    Steps (fun s i _ => Ok s i) init (trace 2 init adopted) :=
  isolated_iff_ok adopted_steps

/-- The first process, which has no parent in the tree, forks and exits. -/
def rootExit : List Input := [
  input 1 (.fork 1 2) [(1, ['0']), (2, ['1'])],
  input 2 (.exit 1 0) [(2, ['1'])]]

/-- The child is still under its dead record. -/
theorem not_isolated_rootExit : Steps Step init (trace 0 init rootExit) ∧
    ¬ ∀ x ∈ trace 0 init rootExit, Isolated x.2 := by
  refine ⟨steps_trace (by decide), fun hi => ?_⟩
  have hlast := forall_final (P := Isolated) (s := init) hi (by simp [rootExit, trace]) 0
  have hf := (hlast ⟨1, by decide⟩ (by decide)).2
  exact absurd hf (by decide)

end Serie.Tree.Isolation
