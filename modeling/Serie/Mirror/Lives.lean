import Serie.Mirror.Chronicle

/-! # The table is a chronicle of the kernel

When every event is handled before the next action of the kernel, the records of a pid show the
lives of the processes that had it, newest first, none twice and none left out
(`chronicles_of_run`): a process that ran before the program may be missing, a process forked later
is not. Here it does not matter whether the exits hand over the children well, since a child that
is left below a dead record still gets its events. -/

namespace Serie.Mirror.Lives

open Serie.Lib.CText Serie.Lib.Decimal Serie.Lib.Lines Serie.Lib.Trace Serie.Model.Record
open Serie.Model.Prfs Serie.Model.Refresh Serie.Model.Table Serie.Model.Conn Serie.Model.Steps
open Serie.Model.Loop Serie.Model.Runs Serie.Tree.Invariant Serie.Records.Plain
open Serie.Records.Status Serie.Records.StatText Serie.Records.StatusText Serie.Table.Entries
open Serie.Table.Commute Serie.Mirror.Tasks Serie.Mirror.Chronicle

/-! ### A fork -/

section Fork
variable {k : Kernel} {s u : State} {p c : Pid} {t : Task}

theorem chronicles_child (h : Chronicles k s) (hs : Sound s) (hn : k.Now p t) {ts : ℕ} {x : Proc}
    (ha : Adds s x u) (hx : x.pid = c) (hl : lifeOf x = (t.child p ts).life c) :
    Chronicles (k.act ts (.fork p c)) u := by
  intro b
  obtain ⟨m, hm, hmap⟩ := h b
  have hsame : (chain s b).map (fun y => lifeOf (u.heap y)) = m.map (Task.life b) := by
    rw [← hmap]
    refine List.map_congr_left fun y hy => ?_
    rw [ha.heap, Function.update_of_ne (hs.lt_next y (mem_chain hy).1).ne]
  rw [chain_adds hs ha, hx]
  by_cases hb : b = c
  · subst hb
    refine ⟨t.child p ts :: m, ?_, ?_⟩
    · rw [fork_self hn]
      rcases hm with rfl | rfl
      · exact Or.inl rfl
      · exact Or.inr (List.filter_cons_of_pos rfl).symm
    · rw [if_pos rfl, List.map_cons, List.map_cons, hsame, ha.heap, Function.update_self, hl]
  · rw [if_neg (Ne.symm hb), fork_of_ne hb]
    exact ⟨m, hm, hsame⟩

/-- The parents after a fork: the child is below the record found for its parent. -/
theorem below_fork (h : Follows k s) (hn : k.Now p t) (hc : ∀ t, ¬ k.Now c t) {w : World}
    {r : Ref} {s₁ s₂ : State} (hfd : Found p w s r s₁) {x : Proc} (ha : Adds s₁ x s₂)
    (hx : x.pid = c) (ts : ℕ) :
    Below (k.act ts (.fork p c)) (attaChil (some r) (some s₁.next) s₂).2 := by
  obtain ⟨h₁, hr₁, -, hold⟩ := h.sound.found hfd
  have hne : r ≠ s₁.next := (h₁.lt_next r hr₁).ne
  have hrel : Relinked s₂ (attaChil (some r) (some s₁.next) s₂).2 := attaChil_relinked _ _
  have hheap : ∀ a ∈ s₁.tracked, s₂.heap a = s₁.heap a := fun a hat => by
    rw [ha.heap, Function.update_of_ne (h₁.lt_next a hat).ne]
  intro a hat b hb hba v hv
  rw [hrel.tracked, ha.tracked] at hat
  rw [hrel.pid] at hv ⊢
  rw [attaChil_pare hne] at hb
  rcases hat with rfl | hat
  · -- the child
    rw [if_pos rfl] at hb
    cases hb
    rw [ha.heap, Function.update_self, hx] at hv
    obtain ⟨l, hl, -⟩ := hv
    rw [fork_self hn] at hl
    rw [← (List.cons.inj hl).1, hheap r hr₁, hfd.pid]
    rfl
  rw [if_neg (h₁.lt_next a hat).ne, hheap a hat] at hb
  rw [hheap a hat] at hv
  rcases hfd.mem_or_pare h.sound.lt_next hat with ⟨has, haeq⟩ | hno
  swap
  · rw [hno] at hb
    cases hb
  have hb₁ := h₁.pare_mem hat hb
  rw [haeq] at hb hv
  have hbs := h.sound.pare_mem has hb
  rw [hrel.alive, hheap b hb₁, hold b hbs] at hba
  rw [hheap b hb₁, hold b hbs]
  -- a record below another one is that of a process that runs
  obtain ⟨-, v₀, hv₀⟩ := h.chronicles.running h.sound h.ordered has (h.sound.alive_of_pare has hb)
  have hac : (s.heap a).pid ≠ c := by
    intro hac
    rw [hac] at hv₀
    exact hc v₀ hv₀
  obtain ⟨l, hl, hend⟩ := hv
  rw [fork_of_ne hac] at hl
  exact h.below a has b hb hba v ⟨l, hl, hend⟩

theorem follows_fork (h : Follows k s) (hen : k.Enabled (.fork p c)) {ts : ℕ} {w : ℕ → World}
    (hw : Reports (k.act ts (.fork p c)) w) {x : ℤ} (he : evenFork p c ts w s = .ret (x, u)) :
    Follows (k.act ts (.fork p c)) u := by
  have hsu : Sound u := h.sound.evenFork he
  obtain ⟨⟨t, (hn : k.Now p t)⟩, (hc : ∀ t, ¬ k.Now c t)⟩ := hen
  have hpc : p ≠ c := by
    rintro rfl
    exact hc t hn
  have hnp : (k.act ts (.fork p c)).Now p t := by
    obtain ⟨l, hl, hend⟩ := hn
    exact ⟨l, by rw [fork_of_ne hpc, hl], hend⟩
  have hnc : (k.act ts (.fork p c)).Now c (t.child p ts) := ⟨k c, fork_self hn, rfl⟩
  unfold Model.Conn.evenFork at he
  rcases hfp : findPare p (w 0) s with ⟨o, s₁⟩
  rw [hfp] at he
  rcases findPare_cases hfp with ⟨-, hno, -⟩ | ⟨r, rfl, hfd⟩
  · rw [canLoad_of_reports hw hnp] at hno
    cases hno
  obtain ⟨h₁, hr₁, -, -⟩ := h.sound.found hfd
  have hch₁ : Chronicles k s₁ :=
    h.chronicles.found h.sound h.ordered hn ((hw 0).2.2 p t hnp) hfp hfd
  dsimp only at he
  rcases forkChil_cases (q := c) (h₁.lt_next r hr₁) ts (w 1) with
    ⟨hno, -⟩ | ⟨-, y, s₂, hy, ha, hf⟩
  · rw [canLoad_of_reports hw hnc] at hno
    cases hno
  have hrel : Relinked s₂ (attaChil (some r) (some s₁.next) s₂).2 := attaChil_relinked _ _
  have hlife : lifeOf { y with birthTime := splitNs ts } = (t.child p ts).life c := by
    have hfields := forkChil_fields hf
    rw [plain_of_bare (hrel.bare _), ha.heap, Function.update_self] at hfields
    rw [lifeOf_plain hfields]
    exact life_loadChild ((hw 1).2.2 c _ hnc)
  rw [hf] at he
  cases he
  exact ⟨hsu, h.ordered.act (a := .fork p c) ⟨⟨t, hn⟩, hc⟩ ts,
    (chronicles_child hch₁ h₁ hn ha hy.pid hlife).relinked hrel,
    below_fork h hn hc hfd ha hy.pid ts⟩

end Fork

/-! ### An exit -/

section Exit
variable {k : Kernel} {s u : State} {p : Pid} {t : Task} {d : Ref} {code ts : ℕ}
  {adopter : Pid → Pid}

theorem chain_markDead (b : Pid) : chain (s.upd d (markDead code ts)) b = chain s b :=
  chain_congr (upd_buckets _) (fun r _ => Sound.markDead_pid d code ts r) b

theorem life_markDead (x : Proc) : lifeOf (markDead code ts x) = { lifeOf x with
    alive := false
    exitCode := toInt32 code
    deathTime := splitNs ts } := by
  unfold lifeOf markDead
  dsimp only

theorem life_ended (t : Task) :
    ({ t with ended := some (code, ts) } : Task).life p = { t.life p with
      alive := false
      exitCode := toInt32 code
      deathTime := splitNs ts } := by
  unfold Task.life
  rw [Option.elim_some, Option.elim_some]
  rfl

theorem chronicles_die (h : Chronicles k s) (hs : Sound s) (ho : k.Ordered) (hn : k.Now p t)
    (hc : ∀ b, chain u b = chain s b)
    (hother : ∀ x ∈ s.tracked, procLook s p ≠ some x → lifeOf (u.heap x) = lifeOf (s.heap x))
    (hself : ∀ x, procLook s p = some x →
      lifeOf (u.heap x) = lifeOf (markDead code ts (s.heap x))) :
    Chronicles (k.act ts (.exit p code adopter)) u := by
  have hend : Chronicles (k.write p fun t => { t with ended := some (code, ts) }) u := by
    refine h.write hs ho hn rfl hc hother fun x hx => ?_
    rw [hself x hx, life_markDead, h.newest hs ho hn hx, life_ended]
  refine hend.relabel (ho.write fun _ => rfl) fun q => ?_
  by_cases hq : q = p
  · refine ⟨id, fun _ => ⟨rfl, rfl⟩, ?_⟩
    rw [hq, exit_self, Kernel.write, Function.update_self, List.modifyHead_id, id]
  · refine ⟨Task.handOver p adopter q, fun t => ⟨handOver_born t, handOver_life q t⟩, ?_⟩
    rw [exit_of_ne hq, Kernel.write, Function.update_of_ne hq]

theorem follows_die (h : Follows k s) (hen : k.Enabled (.exit p code adopter)) (hu : Sound u)
    (ht : u.tracked = s.tracked) (hc : ∀ b, chain u b = chain s b)
    (hpid : ∀ r, (u.heap r).pid = (s.heap r).pid)
    (hpare : ∀ r x, (u.heap r).pare = some x →
      (s.heap r).pare = some x ∧ procLook s p ≠ some r)
    (halive : ∀ r, (u.heap r).alive = true → (s.heap r).alive = true ∧ procLook s p ≠ some r)
    (hother : ∀ x ∈ s.tracked, procLook s p ≠ some x → lifeOf (u.heap x) = lifeOf (s.heap x))
    (hself : ∀ x, procLook s p = some x →
      lifeOf (u.heap x) = lifeOf (markDead code ts (s.heap x))) :
    Follows (k.act ts (.exit p code adopter)) u ∧
      ∀ d, procLook s p = some d → Handed (k.act ts (.exit p code adopter)) d u := by
  obtain ⟨⟨t, (hn : k.Now p t)⟩, (hadopt : ∀ c t, k.Now c t → t.parent = p →
    adopter c ≠ p ∧ ∃ u, k.Now (adopter c) u)⟩ := hen
  have ho := h.ordered.act (a := .exit p code adopter) ⟨⟨t, hn⟩, hadopt⟩ ts
  refine ⟨⟨hu, ho, chronicles_die h.chronicles h.sound h.ordered hn hc hother hself, ?_⟩, ?_⟩
  · intro r hr x hx hxa v hv
    rw [ht] at hr
    rw [hpid] at hv ⊢
    obtain ⟨hxs, -⟩ := hpare r x hx
    obtain ⟨hxa', hxl⟩ := halive x hxa
    obtain ⟨-, v₀, hv₀, rfl⟩ := now_exit hv
    have hpar := h.below r hr x hxs hxa' v₀ hv₀
    have hxp : (s.heap x).pid ≠ p := by
      intro hxp
      have hxt := h.sound.pare_mem hr hxs
      have hfound := (h.chronicles.running h.sound h.ordered hxt hxa').1
      rw [hxp] at hfound
      exact hxl hfound
    unfold Task.handOver
    rw [if_neg (by rw [hpar]; exact hxp)]
    exact hpar
  · intro d hd r hr hrd v hv
    rw [ht] at hr
    rw [hpid] at hv
    obtain ⟨hrs, -⟩ := hpare r d hrd
    obtain ⟨-, v₀, hv₀, rfl⟩ := now_exit hv
    have hlife := h.chronicles.newest h.sound h.ordered hn hd
    have hda : (s.heap d).alive = true := by
      have hal : (lifeOf (s.heap d)).alive = t.ended.isNone := by
        rw [hlife]
        rfl
      obtain ⟨-, -, he⟩ := hn
      rw [he] at hal
      exact hal
    have hpar := h.below r hr d hrs hda v₀ hv₀
    rw [(procLook_some hd).2] at hpar
    obtain ⟨hne, y, hy⟩ := hadopt _ v₀ hv₀ hpar
    unfold Task.handOver
    rw [if_pos hpar]
    exact now_exit_of_ne hne hy

theorem chronicles_orphaned (h : Follows k s) {w : World} {c : Ref}
    (hn : k.Now (s.heap c).pid t) (hcl : procLook s (s.heap c).pid = some c)
    (hren : Renders (s.heap c).pid t (w.files (s.heap c).pid)) :
    Chronicles k (orphaned d c w s).2 := by
  have hlife := h.chronicles.newest h.sound h.ordered hn hcl
  refine h.chronicles.congr (fun b => chain_congr ?_ (fun r _ => orphaned_pid r) b) fun r hr => ?_
  · exact (headOff_relinked (p := d) (c := c) (s := s)).buckets
  · by_cases hrc : r = c
    · subst hrc
      obtain ⟨l, hl, hend⟩ := hn
      have hbare : lifeOf ((headOff d r s).heap r) = t.life (s.heap r).pid := by
        rw [lifeOf_bare (headOff_relinked.bare r), hlife]
      rw [orphaned, lookRec_self, headOff_relinked.pid, hlife]
      exact life_refresh hren hend rfl hend hbare _
    · exact lifeOf_bare (orphaned_of_ne hrc)

theorem turn_child (h : Follows k s) (hi : InLoop d s) (hh : Handed k d s) {w : World}
    (hw : ∀ q t, k.Now q t → Renders q t (w.files q)) {c : Ref} {x : ℤ}
    (hf : (s.heap d).firsChil = some c) (he : exitTurn d c w s = .ret (x, u))
    (hn : k.Now (s.heap c).pid t) :
    Chronicles k u ∧ ∀ b, (u.heap c).pare = some b → (u.heap b).pid = t.parent := by
  obtain ⟨hct, hcd, -⟩ := h.sound.firsChil hi.mem hf
  have hclt := h.sound.lt_next c hct
  have hcl := (h.chronicles.running h.sound h.ordered hct (h.sound.alive_of_pare hct hcd)).1
  obtain ⟨g, hg, -, hpp⟩ := statRead_of_renders (hw _ t hn)
  have ho₁ : Sound (orphaned d c w s).2 := (h.sound.orphan hi.mem hf w).1
  have hch₁ : Chronicles k (orphaned d c w s).2 := chronicles_orphaned h hn hcl (hw _ t hn)
  have hpc : ((orphaned d c w s).2.heap c).ppid = t.parent := by
    rw [orphaned_ppid, hg]
    exact hpp
  have hno₁ : ((orphaned d c w s).2.heap c).pare = none := by
    rw [orphaned_pare, if_pos rfl]
  obtain ⟨y, hy⟩ := hh c hct hcd t hn
  rcases exitTurn_cases (w := w) hf with ⟨-, ht⟩ | ⟨-, o, v, hfp, hcase⟩
  · rw [ht] at he
    cases he
    refine ⟨hch₁, fun b hb => ?_⟩
    rw [hno₁] at hb
    cases hb
  rw [hpc] at hfp
  have hct₁ : c ∈ (orphaned d c w s).2.tracked := by
    rw [orphaned_tracked]
    exact hct
  -- looking for the parent leaves the child alone
  have hv : Chronicles k v ∧ (v.heap c).pare = none ∧
      ∀ b, o = some b → (v.heap b).pid = t.parent := by
    rcases findPare_cases hfp with ⟨-, -, rfl, hq⟩ | ⟨b, rfl, hfd⟩
    · have hsame : ∀ r ∈ (orphaned d c w s).2.tracked,
          v.heap r = (orphaned d c w s).2.heap r := fun r hr => hq.heap r (ho₁.lt_next r hr)
      refine ⟨hch₁.congr (fun b => chain_congr hq.buckets (fun r hr => ?_) b) fun r hr => ?_, ?_,
        fun b hb => (by cases hb)⟩
      · rw [hsame r hr]
      · rw [hsame r hr]
      · rw [hsame c hct₁, hno₁]
    · refine ⟨hch₁.found ho₁ h.ordered hy (hw _ y hy) hfp hfd, ?_, ?_⟩
      · rw [(ho₁.found hfd).2.2.2 c hct₁, hno₁]
      · intro b' hb'
        cases hb'
        exact hfd.pid
  rcases hcase with ⟨-, ht⟩ | ⟨b, rfl, hbc, ht⟩ <;> rw [ht] at he <;> cases he
  · refine ⟨hv.1, fun b hb => ?_⟩
    rw [hv.2.1] at hb
    cases hb
  · have hrel : Relinked v (attaChil (some b) (some c) v).2 := attaChil_relinked _ _
    refine ⟨hv.1.relinked hrel, fun b' hb' => ?_⟩
    rw [attaChil_pare hbc, if_pos rfl] at hb'
    cases hb'
    rw [hrel.pid, hv.2.2 b rfl]

theorem follows_turn (h : Follows k s) (hi : InLoop d s) (hh : Handed k d s) {w : World}
    (hw : ∀ q t, k.Now q t → Renders q t (w.files q)) {c : Ref} {x : ℤ}
    (hf : (s.heap d).firsChil = some c) (he : exitTurn d c w s = .ret (x, u)) :
    Follows k u ∧ Handed k d u := by
  obtain ⟨hct, hcd, -⟩ := h.sound.firsChil hi.mem hf
  have hclt := h.sound.lt_next c hct
  have hca := h.sound.alive_of_pare hct hcd
  obtain ⟨-, t, hn⟩ := h.chronicles.running h.sound h.ordered hct hca
  obtain ⟨hch, hchild⟩ := turn_child h hi hh hw hf he hn
  have hmoved := exitTurn_handed hf hclt he
  have hpid : ∀ r ∈ s.tracked, (u.heap r).pid = (s.heap r).pid := fun r hr =>
    hmoved.field r (h.sound.lt_next r hr) Proc.pid (fun _ => rfl) prfsLook_pid
  -- a record with a parent was there before, and has it still, unless it is the child
  have hold : ∀ r ∈ u.tracked, ∀ b, (u.heap r).pare = some b →
      r ∈ s.tracked ∧ (r ≠ c → (s.heap r).pare = some b) := by
    intro r hr b hb
    rcases exitTurn_mem_or_pare hf hclt he hr with hrs | hno
    · refine ⟨hrs, fun hrc => ?_⟩
      rw [← (hmoved.other r (h.sound.lt_next r hrs) hrc).2]
      exact hb
    · rw [hno] at hb
      cases hb
  refine ⟨⟨(hi.turn hf he).sound, h.ordered, hch, ?_⟩, ?_⟩
  · intro r hr b hb hba v hv
    obtain ⟨hrs, hpr⟩ := hold r hr b hb
    rw [hpid r hrs] at hv
    by_cases hrc : r = c
    · subst hrc
      obtain ⟨l, hl, -⟩ := hv
      obtain ⟨l', hl', -⟩ := hn
      rw [hl] at hl'
      rw [(List.cons.inj hl').1, hchild b hb]
    · have hbs := h.sound.pare_mem hrs (hpr hrc)
      rw [hpid b hbs]
      refine h.below r hrs b (hpr hrc) ?_ v hv
      by_cases hbc : b = c
      · rw [hbc]
        exact hca
      · rw [← hmoved.other_field Proc.alive (fun _ => rfl) (h.sound.lt_next b hbs) hbc]
        exact hba
  · intro r hr hb v hv
    obtain ⟨hrs, hpr⟩ := hold r hr d hb
    rw [hpid r hrs] at hv
    by_cases hrc : r = c
    · rw [hrc] at hv
      exact hh c hct hcd v hv
    · exact hh r hrs (hpr hrc) v hv

theorem follows_exit (h : Follows k s) (hen : k.Enabled (.exit p code adopter)) {w : ℕ → World}
    (hw : Reports (k.act ts (.exit p code adopter)) w) {fuel : ℕ} {x : ℤ}
    (he : evenExit fuel p code ts w s = .ret (x, u)) :
    Follows (k.act ts (.exit p code adopter)) u := by
  rcases h.sound.evenExit_inv he with ⟨hl, rfl⟩ | ⟨d, hl, hd, ⟨hp, rfl⟩ | ⟨p₀, t₀, hp₀, ht, hend⟩⟩
  · refine (follows_die h hen h.sound rfl (fun _ => rfl) (fun _ => rfl) ?_ ?_ (fun _ _ _ => rfl)
      ?_).1
    · exact fun r x hx => ⟨hx, by rw [hl]; exact (Option.some_ne_none r).symm⟩
    · exact fun r ha => ⟨ha, by rw [hl]; exact (Option.some_ne_none r).symm⟩
    · intro x hx
      rw [hl] at hx
      cases hx
  · refine (follows_die h hen (h.sound.mark hp code ts) rfl
      (fun b => chain_markDead b)
      (Sound.markDead_pid d code ts) (fun r x hx => ?_) (fun r ha => ?_) (fun x _ hx => ?_)
      fun x hx => ?_).1
    · rw [Sound.markDead_pare] at hx
      refine ⟨hx, fun hr => ?_⟩
      rw [hl] at hr
      cases hr
      rw [hp] at hx
      cases hx
    · rw [Sound.markDead_alive] at ha
      split_ifs at ha with hrd
      exact ⟨ha, fun hr => hrd (by rw [hl] at hr; exact (Option.some.inj hr).symm)⟩
    · rw [upd_heap, Function.update_of_ne fun hxd => hx (by rw [hxd]; exact hl)]
    · rw [hl] at hx
      cases hx
      rw [upd_heap, Function.update_self]
  · have hchain : ∀ b, chain t₀ b = chain s b := fun b =>
      (chain_congr ht.relinked.buckets (fun r _ => ht.relinked.pid r) b).trans
        (chain_markDead b)
    obtain ⟨hfol, hhand⟩ := follows_die h hen ht.sound ht.tracked hchain
      (fun r => (ht.relinked.pid r).trans (Sound.markDead_pid d code ts r))
      (fun r x hx => by
        rw [ht.pare] at hx
        split_ifs at hx with hrd
        exact ⟨hx, fun hr => hrd (by rw [hl] at hr; exact (Option.some.inj hr).symm)⟩)
      (fun r ha => by
        rw [ht.alive] at ha
        split_ifs at ha with hrd
        exact ⟨ha, fun hr => hrd (by rw [hl] at hr; exact (Option.some.inj hr).symm)⟩)
      (fun x _ hx => by
        rw [lifeOf_bare (ht.relinked.bare x), upd_heap,
          Function.update_of_ne fun hxd => hx (by rw [hxd]; exact hl)])
      fun x hx => by
        rw [hl] at hx
        cases hx
        rw [lifeOf_bare (ht.relinked.bare d), upd_heap, Function.update_self]
    exact (hend.inv (I := fun v => InLoop d v ∧ Follows _ v ∧ Handed _ d v)
      (fun n v c x v' hv hf ht' => ⟨hv.1.turn hf ht',
        follows_turn hv.2.1 hv.1 hv.2.2 (fun q t hq => (hw n).2.2 q t hq) hf ht'⟩)
      ⟨ht.inLoop hd, hfol, hhand d hl⟩).2.1

end Exit

/-! ### Runs -/

/-- **A joint step keeps the chronicle.** -/
theorem follows_step {k : Kernel} {s : State} {m : Move} {y : Kernel × State} (h : Follows k s)
    (hst : Sync (k, s) m y) : Follows y.1 y.2 := by
  obtain ⟨hen, hy, hw, hstep⟩ := hst
  obtain ⟨fuel, x, he⟩ := handle_of_step hstep
  obtain ⟨act, ts, w⟩ := m
  obtain ⟨k', u⟩ := y
  dsimp only at hy hw ⊢
  subst hy
  obtain ⟨t, hn⟩ := hen.1
  cases act with
  | fork p c => exact follows_fork h hen hw he
  | exec p name uids gids => exact h.exec hn hw he
  | exit p code adopter => exact follows_exit h hen hw he
  | comm p name =>
    exact h.evenWrite (q := p) hn (fun t => { t with name := name })
      (fun y => { y with name := name.bytes }) (fun _ => ⟨rfl, rfl, rfl⟩) (fun _ => rfl)
      (Outcome.ret.inj he) fun y hy => congrArg (fun l : Life => { l with name := name.bytes }) hy
  | uid p uids =>
    exact h.evenWrite (q := p) hn (fun t => { t with uids := uids })
      (fun y => { y with ruid := uids.1.real, euid := uids.1.effective })
      (fun _ => ⟨rfl, rfl, rfl⟩) (fun _ => rfl) (Outcome.ret.inj he) fun y hy =>
      congrArg (fun l : Life => { l with ruid := uids.1.real, euid := uids.1.effective }) hy
  | gid p gids =>
    exact h.evenWrite (q := p) hn (fun t => { t with gids := gids })
      (fun y => { y with rgid := gids.1.real, egid := gids.1.effective })
      (fun _ => ⟨rfl, rfl, rfl⟩) (fun _ => rfl) (Outcome.ret.inj he) fun y hy =>
      congrArg (fun l : Life => { l with rgid := gids.1.real, egid := gids.1.effective }) hy

/-- **The table is a chronicle of the kernel** in every state of a run of joint steps. -/
theorem chronicles_of_run {k : Kernel} (hk : Begins k) {tr : List (Move × Kernel × State)}
    (hr : Steps Sync (k, init) tr) : ∀ x ∈ tr, Chronicles x.2.1 x.2.2 := by
  have h₀ : Follows (k, init).1 (k, init).2 :=
    ⟨sound_init, ordered_of_begins hk, chronicles_init hk, below_init⟩
  intro x hx
  exact (hr.forall_mem (J := fun y => Follows y.1 y.2) (fun y m z hy hst => follows_step hy hst) h₀
    x hx).chronicles

/-! ### Runs that can be computed -/

/-- A pid, in range. -/
def InRange (q : ℤ) : Prop := 0 ≤ q ∧ q < 2 ^ 31

/-- The texts of the process `t` with the pid `q`, which sleeps and has no descriptors. -/
def filesOf (q : Pid) (t : Task) : Files where
  stat := some (statText q t.name.bytes (ch 'S') t.parent.toNat [] [])
  stale := []
  status := some (unlines (ch '\n') [tgidLine q.toNat, idsLine uidKey t.uids,
    idsLine gidKey t.gids] ++ (fdSizeLine 0 ++ []))
  fd := some []
  arrAlloc := true

/-- What the kernel says of its processes. -/
def procOf (k : Kernel) (_ : ℕ) : World where
  files q := ((k q).head?.filter (·.ended.isNone)).elim noFiles (filesOf q)
  procCalloc := true
  nodeCalloc := true

section Compute
variable {k : Kernel} {q : Pid} {t : Task}

theorem written_lines (n : ℕ) (u g : Ids) :
    Written n u g [tgidLine n, idsLine uidKey u, idsLine gidKey g] where
  tgid := rfl
  uids := rfl
  gids := rfl
  fdSize line hl := by
    simp only [List.mem_cons, List.not_mem_nil, or_false] at hl
    rcases hl with rfl | rfl | rfl <;> rfl
  other line hl ho := by
    simp only [List.mem_cons, List.not_mem_nil, or_false] at hl
    rcases hl with rfl | rfl | rfl <;> cases ho

theorem renders_filesOf (hq : InRange q) (hp : InRange t.parent) :
    Renders q t (filesOf q t) := by
  have hstat : ∃ state ppid fields eol, isLetter state = true ∧ ppid < 2 ^ 31 ∧
      t.parent = (ppid : ℕ) ∧ Ends eol ∧
      (filesOf q t).stat = some (statText q t.name.bytes state ppid fields eol) :=
    ⟨ch 'S', t.parent.toNat, [], [], by decide, by have := hp.2; omega,
      (Int.toNat_of_nonneg hp.1).symm, Or.inl rfl, rfl⟩
  have hstatus : ∃ tgid fdSize lines rest, q = (tgid : ℕ) ∧ tgid < 2 ^ 31 ∧ fdSize < 2 ^ 31 ∧
      Written tgid t.uids t.gids lines ∧ Ends rest ∧ (filesOf q t).status =
        some (unlines (ch '\n') lines ++ (fdSizeLine fdSize ++ rest)) :=
    ⟨q.toNat, 0, _, [], (Int.toNat_of_nonneg hq.1).symm, by have := hq.2; omega, by decide,
      written_lines _ _ _, Or.inl rfl, rfl⟩
  have hread : ∃ g, statRead (filesOf q t) = some g := by
    have hpid : q.natAbs ≤ 2 ^ 31 := by
      have h1 := hq.1
      have h2 := hq.2
      omega
    exact ⟨_, statRead_of_notMem rfl hpid t.name.length_le t.name.no_null (by decide)
      (by have := hp.2; omega) (Or.inl rfl) t.name.no_newline⟩
  refine ⟨?_, hstat, hstatus⟩
  obtain ⟨g, hg⟩ := hread
  have hrec : Recovered (prfsStat Proc.zero (filesOf q t)).2 (filesOf q t) q.toNat t.uids t.gids
      0 :=
    recovered_of_written (by have := hq.2; omega) t.uids.2 t.gids.2 (by decide)
      (written_lines _ _ _) (Or.inl rfl) rfl
  have hcode : (prfsStat Proc.zero (filesOf q t)).1 = 0 := by
    rw [prfsStat, hg]
  have hfd : (prfsStatus (prfsStat Proc.zero (filesOf q t)).2 (filesOf q t)).2.fdCoun = 0 :=
    hrec.2.2.2.2.2.2
  simp only [readable, prfsLook, hcode, hrec.1, prfsFd, hfd]
  rfl

/-- The pids of the processes and of their parents are in range. -/
def Ranged (k : Kernel) : Prop := ∀ q, ∀ t ∈ k q, InRange q ∧ InRange t.parent

theorem reports_procOf (h : Ranged k) : Reports k (procOf k) := by
  refine fun n => ⟨rfl, rfl, fun q t ⟨l, hl, he⟩ => ?_⟩
  have hfiles : (procOf k n).files q = filesOf q t := by
    simp [procOf, hl, Option.filter, he]
  have hr := h q t (by rw [hl]; exact List.mem_cons_self)
  rw [hfiles]
  exact renders_filesOf hr.1 hr.2

/-- The joint run of the actions, with the times of their events. -/
def syncTrace (fuel : ℕ) : Kernel × State → List (Action × ℕ) → List (Move × Kernel × State)
  | _, [] => []
  | x, (a, ts) :: as =>
    let k := x.1.act ts a
    let m : Move := ⟨a, ts, procOf k⟩
    let y := (k, after fuel x.2 m.input)
    (m, y) :: syncTrace fuel y as

/-- The kernel can make the moves. -/
def Allowed : Kernel → List (Action × ℕ) → Prop
  | _, [] => True
  | k, (a, ts) :: as => k.Enabled a ∧ Ranged (k.act ts a) ∧ Allowed (k.act ts a) as

/-- The events of the actions. -/
def inputs : Kernel → List (Action × ℕ) → List Input
  | _, [] => []
  | k, (a, ts) :: as => (⟨a, ts, procOf (k.act ts a)⟩ : Move).input :: inputs (k.act ts a) as

theorem steps_syncTrace {fuel : ℕ} : ∀ {as : List (Action × ℕ)} {k : Kernel} {s : State},
    Allowed k as → returns fuel s (inputs k as) = true →
      Steps Sync (k, s) (syncTrace fuel (k, s) as)
  | [], _, _, _, _ => trivial
  | (a, ts) :: as, k, s, ⟨h1, h2, h3⟩, hr => by
    rw [inputs, returns] at hr
    set m : Move := ⟨a, ts, procOf (k.act ts a)⟩ with hm
    rcases hx : readEven fuel m.input.even m.input.world s with u | _ | _ <;> rw [hx] at hr
    · have ha : after fuel s m.input = u := by rw [after, hx]
      refine ⟨⟨h1, rfl, reports_procOf h2, fuel, ?_⟩, steps_syncTrace h3 ?_⟩
      · dsimp only
        rw [← hm, ha]
        exact hx
      · rw [← hm, ha]
        exact hr
    · cases hr
    · cases hr

theorem Ranged.modifyHead {l : List Task} (h : ∀ t ∈ l, InRange q ∧ InRange t.parent)
    {f : Task → Task} (hf : ∀ t, InRange t.parent → InRange (f t).parent) :
    ∀ t ∈ l.modifyHead f, InRange q ∧ InRange t.parent := by
  rcases l with _ | ⟨u, l⟩
  · exact h
  · intro t ht
    rw [List.modifyHead_cons] at ht
    obtain ⟨hq, hu⟩ := h u List.mem_cons_self
    rcases List.mem_cons.mp ht with rfl | ht
    · exact ⟨hq, hf u hu⟩
    · exact h t (List.mem_cons_of_mem u ht)

theorem Ranged.fork (h : Ranged k) {p c : Pid} {ts : ℕ} (hp : InRange p) (hc : InRange c) :
    Ranged (k.act ts (.fork p c)) := by
  intro q t ht
  by_cases hq : q = c
  · subst hq
    rw [Kernel.act, Function.update_self, List.mem_append] at ht
    rcases ht with ht | ht
    · obtain ⟨u, -, rfl⟩ := List.mem_map.mp ht
      exact ⟨hc, hp⟩
    · exact h q t ht
  · rw [fork_of_ne hq] at ht
    exact h q t ht

theorem Ranged.exit (h : Ranged k) {p : Pid} {code ts : ℕ} {adopter : Pid → Pid}
    (ha : ∀ q, InRange (adopter q)) : Ranged (k.act ts (.exit p code adopter)) := by
  intro q
  by_cases hq : q = p
  · rw [hq, exit_self]
    exact Ranged.modifyHead (h p) fun _ hu => hu
  · rw [exit_of_ne hq]
    refine Ranged.modifyHead (h q) fun u hu => ?_
    unfold Task.handOver
    split_ifs
    · exact ha q
    · exact hu

theorem Ranged.comm (h : Ranged k) {p : Pid} {ts : ℕ} {name : Tasks.Name} :
    Ranged (k.act ts (.comm p name)) := by
  intro q
  rw [Kernel.act, Kernel.write, Function.update_apply]
  split_ifs with hq
  · rw [hq]
    exact Ranged.modifyHead (h p) fun _ hu => hu
  · exact h q

/-- A name of one letter. -/
def letter (b : Byte) (h0 : 0 ≠ b) (hn : ch '\n' ≠ b) : Tasks.Name :=
  ⟨⟨[b], by simp, by simpa using h0⟩, by simpa using hn⟩

/-- The ids of root. -/
def rootIds : FitIds := ⟨⟨0, 0, 0, 0⟩, by unfold Ids.Fit; decide⟩

/-- Process 1 runs when the program starts. -/
def started : Kernel := fun q =>
  if q = 1 then [⟨0, letter (ch 'a') (by decide) (by decide), rootIds, rootIds, none, none⟩]
  else []

/-- A fork, a new name, an exit, and a fork with the same pid. -/
def reused : List (Action × ℕ) := [
  (.fork 1 2, 1000000000),
  (.comm 2 (letter (ch 'b') (by decide) (by decide)), 2000000000),
  (.exit 2 3 fun _ => 1, 3000000000),
  (.fork 1 2, 4000000000)]

theorem begins_started : Begins started := by
  intro q
  unfold started
  split_ifs
  · exact Or.inr ⟨_, rfl, rfl, rfl⟩
  · exact Or.inl rfl

theorem ranged_started : Ranged started := by
  intro q t ht
  unfold started at ht
  split_ifs at ht with hq
  · rw [hq, List.mem_singleton.mp ht]
    exact ⟨⟨by decide, by decide⟩, ⟨by decide, by decide⟩⟩
  · cases ht

theorem allowed_reused : Allowed started reused := by
  have hone : InRange 1 := ⟨by decide, by decide⟩
  have htwo : InRange 2 := ⟨by decide, by decide⟩
  have h1 : Ranged (started.act 1000000000 (.fork 1 2)) := ranged_started.fork hone htwo
  refine ⟨⟨⟨_, _, rfl, rfl⟩, ?_⟩, h1, ⟨⟨_, _, rfl, rfl⟩, trivial⟩, h1.comm,
    ⟨⟨_, _, rfl, rfl⟩, ?_⟩, h1.comm.exit fun _ => hone, ⟨⟨_, _, rfl, rfl⟩, ?_⟩,
    (h1.comm.exit fun _ => hone).fork hone htwo, trivial⟩
  · rintro t ⟨l, hl, -⟩
    cases hl
  · -- no process has the parent 2
    rintro c t ⟨l, hl, -⟩ hp
    exfalso
    by_cases hc2 : c = 2
    · subst hc2
      cases hl
      cases hp
    unfold Kernel.act at hl
    dsimp only at hl
    unfold Kernel.write at hl
    rw [Function.update_of_ne hc2, Function.update_of_ne hc2, started] at hl
    split_ifs at hl
    cases hl
    cases hp
  · rintro t ⟨l, hl, he⟩
    cases hl
    cases he

/-- The pid is used again: the table has a record of each of the two processes. -/
theorem chronicles_of_run_reused :
    (syncTrace 0 (started, init) reused).map (fun x => (chain x.2.2 2).length) = [1, 1, 1, 2] ∧
      ∀ x ∈ syncTrace 0 (started, init) reused, Chronicles x.2.1 x.2.2 :=
  ⟨by decide, chronicles_of_run begins_started (steps_syncTrace allowed_reused (by decide))⟩

end Compute

end Serie.Mirror.Lives
