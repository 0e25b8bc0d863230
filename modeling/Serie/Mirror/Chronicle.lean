import Serie.Mirror.Tasks
import Serie.Table.Commute

/-! # The records and the lives of processes

`Chronicles` says that the records of a pid show the lives of the processes that had it, newest
first. It is kept by the changes that the handlers are made of: a refresh reads what `/proc` renders
of a process that runs (`life_prfsLook`), the record found for such a process is its own
(`Chronicles.newest`), and a write to it goes with a write to the process (`Chronicles.write`).

`Below` says that the parent of a process is the one whose living record its record is below, so
that the loop of `even_exit` only looks for processes that run. -/

namespace Serie.Mirror.Chronicle

open Serie.Lib.CText Serie.Lib.Trace Serie.Model.Record Serie.Model.Prfs Serie.Model.Refresh
open Serie.Model.Table Serie.Model.Conn Serie.Model.Steps Serie.Model.Loop Serie.Model.Runs
open Serie.Tree.Invariant Serie.Records.Plain Serie.Records.StatText Serie.Records.StatusText
open Serie.Table.Entries Serie.Table.Commute Serie.Mirror.Tasks

/-- **The records of every pid show the lives of the processes that had it**, newest first; a
process that ran before the program may be missing. -/
def Chronicles (k : Kernel) (s : State) : Prop :=
  ∀ q, ∃ m, Kept (k q) m ∧ (chain s q).map (fun r => lifeOf (s.heap r)) = m.map (Task.life q)

/-! ### Reading -/

section Reading
variable {q : Pid} {t : Task} {f : Files}

theorem lifeOf_bare {p x : Proc} (h : bare p = bare x) : lifeOf p = lifeOf x := by
  have hl := congrArg lifeOf h
  exact hl

theorem lifeOf_plain {p x : Proc} (h : plain p = x) : lifeOf p = lifeOf x := by
  have hl := congrArg lifeOf h
  exact hl

theorem statRead_of_renders (h : Renders q t f) :
    ∃ g, statRead f = some g ∧ g.name = t.name.bytes ∧ g.ppid = t.parent := by
  obtain ⟨state, ppid, fields, eol, hst, hpp, hpar, he, hf⟩ := h.stat
  obtain ⟨tgid, -, -, -, hq, htg, -⟩ := h.status
  have hpid : q.natAbs ≤ 2 ^ 31 := by
    rw [hq]
    omega
  exact ⟨_, statRead_of_notMem hf hpid t.name.length_le t.name.no_null hst hpp he
    t.name.no_newline, rfl, hpar.symm⟩

theorem prfsStatus_of_renders (h : Renders q t f) (p : Proc) :
    (prfsStatus p f).2.tgid = q ∧ (prfsStatus p f).2.ruid = t.uids.1.real ∧
      (prfsStatus p f).2.euid = t.uids.1.effective ∧ (prfsStatus p f).2.rgid = t.gids.1.real ∧
      (prfsStatus p f).2.egid = t.gids.1.effective := by
  obtain ⟨tgid, fdSize, lines, rest, hq, htg, hfd, hw, he, hf⟩ := h.status
  obtain ⟨-, h1, h2, h3, h4, h5, -⟩ :=
    recovered_of_written (p := p) htg t.uids.2 t.gids.2 hfd hw he hf
  exact ⟨h1.trans hq.symm, h2, h3, h4, h5⟩

theorem prfsLook_fdless (h : readable f = true) (p : Proc) (m : Strs) :
    fdless (prfsLook p m f).2.1 = fdless (prfsStatus (prfsStat p f).2 f).2 := by
  have hcode := prfsLook_readable p m f
  rw [if_pos h] at hcode
  unfold Model.Prfs.prfsLook at hcode ⊢
  dsimp only at hcode ⊢
  split_ifs at hcode ⊢
  · cases hcode
  · cases hcode
  · cases hcode
  · exact prfsFd_fdless ..

/-- **A refresh shows the process**, and keeps the times and the exit code. -/
theorem life_prfsLook (h : Renders q t f) (p : Proc) (m : Strs) :
    lifeOf (prfsLook p m f).2.1 = { t.life q with
      birthTime := p.birthTime
      alive := true
      exitCode := p.exitCode
      deathTime := p.deathTime } := by
  obtain ⟨g, hg, hname, -⟩ := statRead_of_renders h
  obtain ⟨h1, h2, h3, h4, h5⟩ := prfsStatus_of_renders h (prfsStat p f).2
  have hfd := prfsLook_fdless h.readable p m
  have hn : (prfsLook p m f).2.1.name = t.name.bytes := by
    rw [prfsLook_field Proc.name (fun _ => rfl), prfsStat, hg]
    exact hname
  have ha : (prfsLook p m f).2.1.alive = true := by simp [prfsLook_alive, hg]
  have hfield : ∀ {α : Type} (z : Proc → α), (∀ y, z (fdless y) = z y) →
      z (prfsLook p m f).2.1 = z (Model.Prfs.prfsStatus (prfsStat p f).2 f).2 := by
    intro α z hz
    rw [← hz, hfd, hz]
  unfold lifeOf
  rw [hn, ha, hfield Proc.tgid fun _ => rfl, hfield Proc.ruid fun _ => rfl,
    hfield Proc.euid fun _ => rfl, hfield Proc.rgid fun _ => rfl, hfield Proc.egid fun _ => rfl,
    h1, h2, h3, h4, h5, prfsLook_birthTime, prfsLook_exitCode, prfsLook_deathTime]
  rfl

/-- The refresh of a record that shows a process with the same birth. -/
theorem life_refresh (h : Renders q t f) (he : t.ended = none) {u : Task} (hb : u.born = t.born)
    (hu : u.ended = none) {p : Proc} (hp : lifeOf p = u.life q) (m : Strs) :
    lifeOf (prfsLook p m f).2.1 = t.life q := by
  have h1 : p.birthTime = (u.life q).birthTime := congrArg Life.birthTime hp
  have h2 : p.exitCode = (u.life q).exitCode := congrArg Life.exitCode hp
  have h3 : p.deathTime = (u.life q).deathTime := congrArg Life.deathTime hp
  rw [life_prfsLook h, h1, h2, h3]
  simp only [Task.life, hb, hu, he]
  rfl

theorem life_loadFields (h : Renders q t f) (hb : t.born = none) (he : t.ended = none) :
    lifeOf (loadFields q f) = t.life q := by
  have hl := life_prfsLook h { Proc.zero with pid := q } ⟨0, [], []⟩
  refine Eq.trans ?_ (hl.trans ?_)
  · rfl
  · simp only [Task.life, hb, he]
    rfl

theorem life_loadChild {p : Pid} {ts : ℕ} (h : Renders q (t.child p ts) f) :
    lifeOf { loadFields q f with birthTime := splitNs ts } = (t.child p ts).life q := by
  have hl := life_prfsLook h { Proc.zero with pid := q } ⟨0, [], []⟩
  have hb := congrArg (fun x : Life => { x with birthTime := splitNs ts }) hl
  exact hb

theorem canLoad_of_reports {k : Kernel} {w : ℕ → World} (hw : Reports k w) (hq : k.Now q t)
    (n : ℕ) : canLoad (w n) q = true := by
  obtain ⟨h1, h2, h3⟩ := hw n
  rw [canLoad, h1, h2, (h3 q t hq).readable]
  rfl

end Reading

/-! ### Changes of the table -/

section Change
variable {k k' : Kernel} {s u : State} {q : Pid} {t : Task} {r : Ref}

theorem chronicles_init (hk : Begins k) : Chronicles k init := by
  intro q
  refine ⟨[], ?_, rfl⟩
  rcases hk q with hq | ⟨t, hq, hb, -⟩
  · exact Or.inl hq.symm
  · right
    rw [hq]
    simp [hb]

theorem Chronicles.congr (h : Chronicles k s) (hc : ∀ q, chain u q = chain s q)
    (hl : ∀ r ∈ s.tracked, lifeOf (u.heap r) = lifeOf (s.heap r)) : Chronicles k u := by
  intro q
  obtain ⟨m, hm, hmap⟩ := h q
  refine ⟨m, hm, ?_⟩
  rw [hc, ← hmap]
  exact List.map_congr_left fun r hr => hl r (mem_chain hr).1

theorem Chronicles.relinked (h : Chronicles k s) (hr : Relinked s u) : Chronicles k u :=
  h.congr (fun q => chain_congr hr.buckets (fun r _ => hr.pid r) q) fun r _ =>
    lifeOf_bare (hr.bare r)

theorem Chronicles.newest (h : Chronicles k s) (hs : Sound s) (ho : k.Ordered)
    (hn : k.Now q t) (hl : procLook s q = some r) : lifeOf (s.heap r) = t.life q := by
  obtain ⟨l, hq, -⟩ := hn
  obtain ⟨m, hm, hmap⟩ := h q
  obtain ⟨rs, hc, -⟩ := chain_of_procLook hs hl
  rw [hq] at hm
  rcases hm.cases (hq ▸ ho q) with ⟨rfl, -⟩ | ⟨m', rfl, -⟩
  · rw [hc] at hmap
    cases hmap
  · rw [hc] at hmap
    exact (List.cons.inj hmap).1

/-- **A record that is alive is the one found for its pid, and its process runs.** -/
theorem Chronicles.running (h : Chronicles k s) (hs : Sound s) (ho : k.Ordered)
    (hr : r ∈ s.tracked) (ha : (s.heap r).alive = true) :
    procLook s (s.heap r).pid = some r ∧ ∃ t, k.Now (s.heap r).pid t := by
  set q := (s.heap r).pid
  obtain ⟨m, hm, hmap⟩ := h q
  have hmem : r ∈ chain s q := mem_chain_pid hs hr
  have halive : ∀ v : Task, lifeOf (s.heap r) = v.life q → v.ended = none := by
    intro v hv
    have hal : (v.life q).alive = true := by
      rw [← hv]
      exact ha
    exact Option.isNone_iff_eq_none.mp hal
  rcases hc : chain s q with _ | ⟨x, rs⟩
  · rw [hc] at hmem
    cases hmem
  rcases hk : k q with _ | ⟨t, l⟩
  · have hnil := List.subset_nil.mp (hk ▸ hm.subset)
    rw [hc, hnil] at hmap
    cases hmap
  rw [hk] at hm
  rw [hc] at hmap
  rcases hm.cases (hk ▸ ho q) with ⟨rfl, -⟩ | ⟨m', rfl, hsub, -⟩
  · cases hmap
  obtain ⟨hx, hrest⟩ := List.cons.inj hmap
  rw [hc] at hmem
  rcases List.mem_cons.mp hmem with rfl | hmem
  · exact ⟨by rw [procLook_eq_head?, hc]; rfl, t, l, hk, halive t hx⟩
  · -- an older record shows a process that has ended
    exfalso
    have hlr : lifeOf (s.heap r) ∈ m'.map (Task.life q) := by
      rw [← hrest]
      exact List.mem_map_of_mem hmem
    obtain ⟨v, hv, hvr⟩ := List.mem_map.mp hlr
    have hend := ho.tail_ended hk (hsub hv)
    rw [halive v hvr.symm] at hend
    cases hend

theorem Chronicles.relabel (h : Chronicles k s) (ho : k.Ordered)
    (hk : ∀ q, ∃ f : Task → Task, (∀ t, (f t).born = t.born ∧ (f t).life q = t.life q) ∧
      k' q = (k q).modifyHead f) : Chronicles k' s := by
  intro q
  obtain ⟨m, hm, hmap⟩ := h q
  obtain ⟨f, hf, hq⟩ := hk q
  rcases hkq : k q with _ | ⟨t, l⟩
  · rw [hkq] at hm hq
    exact ⟨m, by rw [hq]; exact hm, hmap⟩
  rw [hkq] at hm hq
  rw [List.modifyHead_cons] at hq
  rcases hm.cases (hkq ▸ ho q) with ⟨rfl, rfl, hb⟩ | ⟨m', rfl, -, hm'⟩
  · refine ⟨[], Or.inr ?_, hmap⟩
    rw [hq]
    simp [(hf t).1, hb]
  · refine ⟨f t :: m', by rw [hq]; exact hm' _ (hf t).1, ?_⟩
    rw [hmap, List.map_cons, List.map_cons, (hf t).2]

/-- **A write to the process that runs, and to its record.** -/
theorem Chronicles.write (h : Chronicles k s) (hs : Sound s) (ho : k.Ordered) (hn : k.Now q t)
    {f : Task → Task} (hf : (f t).born = t.born) (hc : ∀ b, chain u b = chain s b)
    (hother : ∀ x ∈ s.tracked, procLook s q ≠ some x → lifeOf (u.heap x) = lifeOf (s.heap x))
    (hself : ∀ x, procLook s q = some x → lifeOf (u.heap x) = (f t).life q) :
    Chronicles (k.write q f) u := by
  intro b
  obtain ⟨m, hm, hmap⟩ := h b
  by_cases hb : b = q
  swap
  · refine ⟨m, by rw [Kernel.write, Function.update_of_ne hb]; exact hm, ?_⟩
    rw [hc, ← hmap]
    refine List.map_congr_left fun x hx => hother x (mem_chain hx).1 fun hl => hb ?_
    rw [← (mem_chain hx).2, (procLook_some hl).2]
  subst hb
  obtain ⟨l, hq, -⟩ := hn
  have hw : k.write b f b = f t :: l := by
    rw [Kernel.write, Function.update_self, hq, List.modifyHead_cons]
  rw [hq] at hm
  rw [hw, hc]
  rcases hm.cases (hq ▸ ho b) with ⟨rfl, rfl, hbo⟩ | ⟨m', rfl, -, hm'⟩
  · refine ⟨[], Or.inr (by simp [hf, hbo]), ?_⟩
    rw [List.map_eq_nil_iff.mp hmap]
    rfl
  refine ⟨f t :: m', hm' _ hf, ?_⟩
  rcases hch : chain s b with _ | ⟨x, rs⟩
  · rw [hch] at hmap
    cases hmap
  have hl : procLook s b = some x := by
    rw [procLook_eq_head?, hch]
    rfl
  have hx : x ∉ rs := (List.nodup_cons.mp (hch ▸ nodup_chain hs b)).1
  rw [hch] at hmap
  rw [List.map_cons, List.map_cons, hself x hl, ← (List.cons.inj hmap).2]
  congr 1
  refine List.map_congr_left fun y hy => ?_
  have hyt : y ∈ s.tracked := (mem_chain (hch ▸ List.mem_cons_of_mem x hy)).1
  refine hother y hyt fun hly => hx ?_
  rw [hl] at hly
  cases hly
  exact hy

/-- **The record found or made for a process that runs.** -/
theorem Chronicles.found (h : Chronicles k s) (hs : Sound s) (ho : k.Ordered) (hn : k.Now q t)
    {w : World} (hr : Renders q t (w.files q)) {p : Ref}
    (hf : findPare q w s = (some p, u)) (hfd : Found q w s p u) : Chronicles k u := by
  cases hfd with
  | old => exact h
  | @new x _ hl hc hx ha =>
    have hfields := findPare_fields hl hf
    have hold : ∀ y ∈ s.tracked, u.heap y = s.heap y := fun y hy => by
      rw [ha.heap, Function.update_of_ne (hs.lt_next y hy).ne]
    intro b
    obtain ⟨m, hm, hmap⟩ := h b
    have hsame : (chain s b).map (fun y => lifeOf (u.heap y)) = m.map (Task.life b) := by
      rw [← hmap]
      exact List.map_congr_left fun y hy => by rw [hold y (mem_chain hy).1]
    rw [chain_adds hs ha, hx.pid]
    by_cases hb : q = b
    · subst hb
      obtain ⟨l, hq, he⟩ := hn
      have hnil : chain s q = [] := by
        rw [procLook_eq_head?] at hl
        exact List.head?_eq_none_iff.mp hl
      rw [hnil] at hmap ⊢
      have hm0 : m = [] := List.map_eq_nil_iff.mp hmap.symm
      rw [hq, hm0] at hm
      rcases hm.cases (hq ▸ ho q) with ⟨-, rfl, hbo⟩ | ⟨m', hno, -⟩
      · -- the process ran before the program, and no other one had its pid since
        refine ⟨[t], by rw [hq]; exact Or.inl rfl, ?_⟩
        rw [if_pos rfl, List.map_cons, List.map_cons, lifeOf_plain hfields,
          life_loadFields hr hbo he]
        rfl
      · cases hno
    · rw [if_neg hb]
      exact ⟨m, hm, hsame⟩

end Change

/-! ### Parents -/

/-- **The parent of a process is the one whose living record its record is below.** -/
def Below (k : Kernel) (s : State) : Prop :=
  ∀ r ∈ s.tracked, ∀ p, (s.heap r).pare = some p → (s.heap p).alive = true →
    ∀ t, k.Now (s.heap r).pid t → t.parent = (s.heap p).pid

/-- The parents of the processes whose records are below `d` run. -/
def Handed (k : Kernel) (d : Ref) (s : State) : Prop :=
  ∀ r ∈ s.tracked, (s.heap r).pare = some d → ∀ t, k.Now (s.heap r).pid t →
    ∃ u, k.Now t.parent u

section Parents
variable {k k' : Kernel} {s u v : State} {q : Pid} {t : Task} {r : Ref}

theorem below_init : Below k init := fun r hr => absurd hr (notMem_init r)

/-- No record came below a living record, and no process got another parent. -/
theorem Below.mono (h : Below k s) (hu : ∀ r ∈ u.tracked, ∀ p, (u.heap r).pare = some p →
      (u.heap p).alive = true → r ∈ s.tracked ∧ (s.heap r).pare = some p ∧
        (s.heap p).alive = true ∧ (u.heap r).pid = (s.heap r).pid ∧
        (u.heap p).pid = (s.heap p).pid)
    (hk : ∀ q t, k'.Now q t → ∃ t₀, k.Now q t₀ ∧ t₀.parent = t.parent) : Below k' u := by
  intro r hr p hp ha t ht
  obtain ⟨hrs, hps, has, hpr, hpp⟩ := hu r hr p hp ha
  rw [hpr] at ht
  obtain ⟨t₀, ht₀, hpar⟩ := hk _ t ht
  rw [hpp, ← hpar]
  exact h r hrs p hps has t₀ ht₀

theorem now_write {p : Pid} {f : Task → Task} (hf : ∀ t, (f t).ended = t.ended) :
    (k.write p f).Now q t → ∃ t₀, k.Now q t₀ ∧ (t = t₀ ∨ t = f t₀) := by
  rintro ⟨l, hl, he⟩
  unfold Kernel.write at hl
  by_cases hq : q = p
  · subst hq
    rw [Function.update_self] at hl
    rcases hk : k q with _ | ⟨t₀, l₀⟩ <;> rw [hk] at hl
    · cases hl
    · rw [List.modifyHead_cons] at hl
      obtain ⟨h1, -⟩ := List.cons.inj hl
      exact ⟨t₀, ⟨l₀, hk, by rw [← hf, h1, he]⟩, Or.inr h1.symm⟩
  · rw [Function.update_of_ne hq] at hl
    exact ⟨t, ⟨l, hl, he⟩, Or.inl rfl⟩

theorem now_exit {p : Pid} {code ts : ℕ} {adopter : Pid → Pid}
    (h : (k.act ts (.exit p code adopter)).Now q t) :
    q ≠ p ∧ ∃ t₀, k.Now q t₀ ∧ t = Task.handOver p adopter q t₀ := by
  obtain ⟨l, hl, he⟩ := h
  by_cases hq : q = p
  · subst hq
    rw [exit_self] at hl
    rcases hk : k q with _ | ⟨t₀, l₀⟩ <;> rw [hk] at hl
    · cases hl
    · rw [List.modifyHead_cons] at hl
      obtain ⟨h1, -⟩ := List.cons.inj hl
      rw [← h1] at he
      cases he
  · rw [exit_of_ne hq] at hl
    rcases hk : k q with _ | ⟨t₀, l₀⟩ <;> rw [hk] at hl
    · cases hl
    · rw [List.modifyHead_cons] at hl
      obtain ⟨h1, -⟩ := List.cons.inj hl
      exact ⟨hq, t₀, ⟨l₀, hk, by rw [← handOver_ended, h1, he]⟩, h1.symm⟩

theorem now_exit_of_ne {p : Pid} {code ts : ℕ} {adopter : Pid → Pid} (hq : q ≠ p)
    (h : k.Now q t) : ∃ t', (k.act ts (.exit p code adopter)).Now q t' := by
  obtain ⟨l, hl, he⟩ := h
  refine ⟨Task.handOver p adopter q t, l, ?_, by rw [handOver_ended, he]⟩
  rw [exit_of_ne hq, hl, List.modifyHead_cons]

end Parents

/-! ### Events about one process -/

section Event
variable {k : Kernel} {s u : State} {q : Pid} {t : Task} {r : Ref}

/-- **The invariant of the joint steps.** -/
structure Follows (k : Kernel) (s : State) : Prop where
  sound : Sound s
  ordered : k.Ordered
  chronicles : Chronicles k s
  below : Below k s

theorem Follows.write (h : Follows k s) (hn : k.Now q t) {f : Task → Task}
    (hf : ∀ t, (f t).born = t.born ∧ (f t).ended = t.ended ∧ (f t).parent = t.parent)
    (hu : Sound u) (hb : u.buckets = s.buckets)
    (hsame : ∀ r, (u.heap r).pid = (s.heap r).pid ∧ (u.heap r).pare = (s.heap r).pare)
    (hother : ∀ x ∈ s.tracked, procLook s q ≠ some x → u.heap x = s.heap x)
    (hself : ∀ x, procLook s q = some x → lifeOf (s.heap x) = t.life q →
      lifeOf (u.heap x) = (f t).life q) : Follows (k.write q f) u where
  sound := hu
  ordered := h.ordered.write fun t => (hf t).1
  chronicles := by
    refine h.chronicles.write h.sound h.ordered hn (hf t).1
      (fun b => chain_congr hb (fun r _ => (hsame r).1) b)
      (fun x hx hl => by rw [hother x hx hl]) fun x hl => hself x hl ?_
    exact h.chronicles.newest h.sound h.ordered hn hl
  below := by
    have htr : u.tracked = s.tracked := by
      unfold State.tracked
      rw [hb]
    refine h.below.mono (fun r hr p hp ha => ?_) fun b t' ht' => ?_
    · rw [htr] at hr
      rw [(hsame r).2] at hp
      have hpt := h.sound.pare_mem hr hp
      refine ⟨hr, hp, ?_, (hsame r).1, (hsame p).1⟩
      by_cases hl : procLook s q = some p
      · have hlife := h.chronicles.newest h.sound h.ordered hn hl
        have hal : (lifeOf (s.heap p)).alive = t.ended.isNone := by
          rw [hlife]
          rfl
        obtain ⟨-, -, he⟩ := hn
        rw [he] at hal
        exact hal
      · rw [← hother p hpt hl]
        exact ha
    · obtain ⟨t₀, ht₀, rfl | rfl⟩ := now_write (fun t => (hf t).2.1) ht'
      · exact ⟨_, ht₀, rfl⟩
      · exact ⟨t₀, ht₀, (hf t₀).2.2.symm⟩

theorem Follows.evenWrite (h : Follows k s) (hn : k.Now q t) (f : Task → Task) (g : Proc → Proc)
    (hf : ∀ t, (f t).born = t.born ∧ (f t).ended = t.ended ∧ (f t).parent = t.parent)
    (hg : ∀ y, unnamed (g y) = unnamed y) {x : ℤ}
    (he : evenWrite q g s = (x, u))
    (hlife : ∀ y, lifeOf y = t.life q → lifeOf (g y) = (f t).life q) :
    Follows (k.write q f) u := by
  have hr : Renamed s u := by
    have := evenWrite_renamed (s := s) (q := q) hg
    rwa [he] at this
  refine h.write hn hf (h.sound.renamed hr) hr.buckets (fun r => ⟨hr.pid r, hr.pare r⟩) ?_ ?_
  all_goals
    intro y
    unfold Model.Conn.evenWrite at he
    rcases hl : procLook s q with _ | r <;> rw [hl] at he <;> cases he
  · exact fun _ _ => rfl
  · intro _ hy
    rw [upd_heap, Function.update_of_ne fun hyr => hy (congrArg some hyr).symm]
  · intro hy
    cases hy
  · intro hy hyl
    cases hy
    rw [upd_heap, Function.update_self]
    exact hlife _ hyl

theorem Follows.exec (h : Follows k s) (hn : k.Now q t) {name : Tasks.Name} {uids gids : FitIds}
    {ts : ℕ} {w : ℕ → World} (hw : Reports (k.act ts (.exec q name uids gids)) w) {fuel : ℕ}
    {x : ℤ} (he : handle fuel ⟨ts, .exec q q⟩ w s = .ret (x, u)) :
    Follows (k.act ts (.exec q name uids gids)) u := by
  have hf : ∀ t : Task, ({ t with name := name, uids := uids, gids := gids } : Task).born = t.born ∧
      ({ t with name := name, uids := uids, gids := gids } : Task).ended = t.ended ∧
      ({ t with name := name, uids := uids, gids := gids } : Task).parent = t.parent :=
    fun _ => ⟨rfl, rfl, rfl⟩
  obtain ⟨-, -, hren⟩ := hw 0
  obtain ⟨l, hl, hend⟩ := hn
  have hn' : (k.act ts (.exec q name uids gids)).Now q
      { t with name := name, uids := uids, gids := gids } := by
    refine ⟨l, ?_, hend⟩
    change k.write q _ q = _
    rw [Kernel.write, Function.update_self, hl, List.modifyHead_cons]
  rcases handle_exec he with ⟨hl0, rfl⟩ | ⟨r, hl0, rfl⟩
  · exact h.write ⟨l, hl, hend⟩ hf h.sound rfl (fun _ => ⟨rfl, rfl⟩) (fun _ _ _ => rfl)
      fun y hy => by rw [hl0] at hy; cases hy
  · refine h.write ⟨l, hl, hend⟩ hf (h.sound.lookRec r _) rfl
      (fun y => ⟨lookRec_pid y, lookRec_field Proc.pare prfsLook_pare y⟩)
      (fun y _ hy => lookRec_of_ne fun hyr => hy (by rw [hyr]; exact hl0)) fun y hy hyl => ?_
    rw [hl0] at hy
    cases hy
    rw [lookRec_self]
    exact life_refresh (u := t) (hren q _ hn') hend rfl hend hyl _

end Event

end Serie.Mirror.Chronicle
