import Serie.Mirror.History
import Serie.Model.Runs
import Serie.Tree.Invariant

/-! # The program and the kernel in step

When every event is handled before the next action of the kernel, the program mirrors the kernel
(`mirrors_iff_ok`) exactly if no process that ran before the program exits while it has a child that
was forked during the history: the record of such a process has no parent, and `even_exit` returns
before its loop. `Follows` is the simulation relation; while `even_exit` hands the children over,
those still below the dead record are its exceptions (`loose`). -/

namespace Serie.Mirror.Sync

open Serie.Lib.Trace Serie.Model.Record Serie.Model.Prfs Serie.Model.Refresh Serie.Model.Table
open Serie.Model.Conn Serie.Model.Steps Serie.Model.Loop Serie.Model.Runs Serie.Tree.Invariant
open Serie.Mirror.History

/-- The condition on an action: a process that was not forked during the history exits without a
child that was. -/
def Ok (x : Kernel × State) (m : Move) : Prop :=
  match m.act with
  | .exit p _ _ => p ∈ x.1.forked ∨ ∀ c ∈ x.1.forked, x.1.parent c ≠ some p
  | _ => True

/-- **The simulation relation.** The record of a forked process that runs is found and alive, below
the record found for its parent or below a record in `loose`; what is found for a process that runs
is alive; a record with a parent is the one found for a forked process. -/
structure Follows (loose : Set Ref) (k : Kernel) (s : State) : Prop where
  linked : ∀ q ∈ k.forked, ∃ a r p, k.parent q = some a ∧ k.Runs a ∧ a ≠ q ∧
    procLook s q = some r ∧ (s.heap r).alive = true ∧ (s.heap r).pare = some p ∧
    (p ∈ loose ∨ procLook s a = some p)
  alive : ∀ q, k.Runs q → ∀ r, procLook s q = some r → (s.heap r).alive = true
  forked : ∀ r ∈ s.tracked, ∀ p, (s.heap r).pare = some p →
    (s.heap r).pid ∈ k.forked ∧ procLook s (s.heap r).pid = some r

section Follows
variable {k : Kernel} {s t u : State} {loose : Set Ref}

theorem Follows.mirrors (h : Follows ∅ k s) : Mirrors (k, s) := by
  intro q hq
  obtain ⟨a, r, p, hka, ha, -, hr, hra, hrp, hp⟩ := h.linked q hq
  have hp := hp.resolve_left (Set.notMem_empty p)
  exact ⟨r, p, hr, hra, hrp, h.alive a ha p hp, by rw [(procLook_some hp).2]; exact hka⟩

theorem Follows.settle {d : Ref} (h : Follows {d} k s)
    (hd : ∀ r ∈ s.tracked, (s.heap r).pare ≠ some d) : Follows ∅ k s where
  linked q hq := by
    obtain ⟨a, r, p, hka, ha, haq, hr, hra, hrp, hp⟩ := h.linked q hq
    refine ⟨a, r, p, hka, ha, haq, hr, hra, hrp, Or.inr (hp.resolve_left ?_)⟩
    rintro rfl
    exact hd r (procLook_some hr).1 hrp
  alive := h.alive
  forked := h.forked

theorem follows_init (hk : k.forked = ∅) : Follows ∅ k init where
  linked q hq := by rw [hk] at hq; cases hq
  alive q _ r hr := by cases hr
  forked r hr := absurd hr (notMem_init r)

theorem canLoad_of_reports {w : ℕ → World} (hw : Reports k w) {q : Pid} (hq : k.Runs q) (n : ℕ) :
    canLoad (w n) q = true := by
  obtain ⟨h1, h2, h3⟩ := hw n
  obtain ⟨a, ha⟩ := hq
  simp [canLoad, h1, h2, (h3 q a ha).1]

end Follows

/-! ### Events -/

section Event
variable {k : Kernel} {s t u : State} {loose : Set Ref}

theorem Follows.found (h : Follows loose k s) (hs : Sound s) {q : Pid} {w : World} {p : Ref}
    (hf : Found q w s p t) : Follows loose k t := by
  have hold : ∀ r ∈ s.tracked, t.heap r = s.heap r := (hs.found hf).2.2.2
  constructor
  · intro q hq
    obtain ⟨a, r, p', hka, ha, haq, hr, hra, hrp, hp⟩ := h.linked q hq
    rw [← hold r (procLook_some hr).1] at hra hrp
    exact ⟨a, r, p', hka, ha, haq, hf.procLook_of_some hs.lt_next hr, hra, hrp,
      hp.imp_right (hf.procLook_of_some hs.lt_next)⟩
  · intro q hq r hr
    rcases hf.some_or_alive hs.lt_next hr with hr | hra
    · rw [hold r (procLook_some hr).1]; exact h.alive q hq r hr
    · exact hra
  · intro r hr p' hp
    rcases hf.mem_or_pare hs.lt_next hr with ⟨hrs, he⟩ | hn
    · rw [he] at hp ⊢
      obtain ⟨h1, h2⟩ := h.forked r hrs p' hp
      exact ⟨h1, hf.procLook_of_some hs.lt_next h2⟩
    · rw [hn] at hp; cases hp

/-- In `u` there is a new record, that of the process `c` below the record `p`; the others are as in
`s`. -/
structure Born (c : Pid) (p : Ref) (s u : State) : Prop where
  look : ∀ b, procLook u b = if c = b then some s.next else procLook s b
  tracked : u.tracked = insert s.next s.tracked
  old : ∀ r ∈ s.tracked, (u.heap r).alive = (s.heap r).alive ∧
    (u.heap r).pare = (s.heap r).pare ∧ (u.heap r).pid = (s.heap r).pid
  new : (u.heap s.next).alive = true ∧ (u.heap s.next).pare = some p ∧ (u.heap s.next).pid = c

theorem born_attach (hs : Sound s) {c : Pid} {p : Ref} {y : Proc} {f : Files} {ts : ℕ}
    (hp : p ∈ s.tracked) (hy : IsLoad c f y) (ha : Adds s { y with birthTime := splitNs ts } t) :
    Born c p s (attaChil (some p) (some s.next) t).2 := by
  have hrl : Relinked t (attaChil (some p) (some s.next) t).2 := attaChil_relinked _ _
  have hpn : p ≠ s.next := (hs.lt_next p hp).ne
  refine ⟨fun b => ?_, ?_, fun r hr => ?_, ?_⟩
  · rw [hrl.procLook, ha.procLook hs.lt_next, show Proc.pid { y with birthTime := splitNs ts } = c
      from hy.pid]
  · rw [hrl.tracked, ha.tracked]
  · have hrn := (hs.lt_next r hr).ne
    rw [hrl.alive, hrl.pid, attaChil_pare hpn, if_neg hrn, ha.heap, Function.update_of_ne hrn]
    exact ⟨rfl, rfl, rfl⟩
  · rw [hrl.alive, hrl.pid, attaChil_pare hpn, if_pos rfl, ha.heap, Function.update_self]
    exact ⟨hy.alive, rfl, hy.pid⟩

theorem Follows.child (h : Follows ∅ k s) {q c : Pid} {p : Ref} (hq : k.Runs q) (hc : ¬ k.Runs c)
    (hp : procLook s q = some p) (hb : Born c p s u) : Follows ∅ (k.act (.fork q c)) u := by
  have hqc : q ≠ c := by rintro rfl; exact hc hq
  have hruns : ∀ a, k.Runs a → a ≠ c ∧ (k.act (.fork q c)).Runs a := fun a hka =>
    ⟨by rintro rfl; exact hc hka, runs_fork.mpr (Or.inr hka)⟩
  constructor
  · rintro q' (rfl | hq')
    · refine ⟨q, s.next, p, Function.update_self .., (hruns q hq).2, hqc, ?_, hb.new.1, hb.new.2.1,
        Or.inr ?_⟩
      · rw [hb.look, if_pos rfl]
      · rw [hb.look, if_neg hqc.symm]; exact hp
    · obtain ⟨a, r, p', hka, hra, haq, hr, hral, hrp, hp'⟩ := h.linked q' hq'
      obtain ⟨ho1, ho2, -⟩ := hb.old r (procLook_some hr).1
      have hq'c := (hruns q' ⟨a, hka⟩).1
      refine ⟨a, r, p', ?_, (hruns a hra).2, haq, ?_, ho1.trans hral, ho2.trans hrp,
        hp'.imp_right fun hp' => ?_⟩
      · rw [parent_fork_of_ne hq'c, hka]
      · rw [hb.look, if_neg hq'c.symm, hr]
      · rw [hb.look, if_neg (hruns a hra).1.symm, hp']
  · intro q' hq' r hr
    rw [hb.look] at hr
    split_ifs at hr with hc'
    · cases hr; exact hb.new.1
    · rw [(hb.old r (procLook_some hr).1).1]
      exact h.alive q' ((runs_fork.mp hq').resolve_left (Ne.symm hc')) r hr
  · intro r hr p' hp'
    rw [hb.tracked] at hr
    rcases hr with rfl | hr
    · rw [hb.new.2.2]
      exact ⟨Or.inl rfl, by rw [hb.look, if_pos rfl]⟩
    · obtain ⟨-, ho2, ho3⟩ := hb.old r hr
      rw [ho2] at hp'
      obtain ⟨h1, h2⟩ := h.forked r hr p' hp'
      rw [ho3]
      obtain ⟨a, -, -, hka, -⟩ := h.linked _ h1
      exact ⟨Or.inr h1, by rw [hb.look, if_neg (hruns _ ⟨a, hka⟩).1.symm]; exact h2⟩

theorem Follows.fork (h : Follows ∅ k s) (hs : Sound s) {q c : Pid} {ts : ℕ} {w : ℕ → World} {x : ℤ}
    (hen : k.Enabled (.fork q c)) (hw : Reports (k.act (.fork q c)) w)
    (he : evenFork q c ts w s = .ret (x, t)) : Follows ∅ (k.act (.fork q c)) t := by
  obtain ⟨hq, hc⟩ := hen
  have hqr : (k.act (.fork q c)).Runs q := runs_fork.mpr (Or.inr hq)
  have hcr : (k.act (.fork q c)).Runs c := runs_fork.mpr (Or.inl rfl)
  rcases evenFork_inv hs.lt_next he with
    ⟨-, hn, -⟩ | ⟨p, s₁, hfd, ⟨hn, -⟩ | ⟨-, y, s₂, hy, ha, rfl⟩⟩
  · rw [canLoad_of_reports hw hqr] at hn; cases hn
  · rw [canLoad_of_reports hw hcr] at hn; cases hn
  · have hp : procLook s₁ q = some p := hfd.procLook hs.lt_next
    exact (h.found hs hfd).child hq hc hp (born_attach (hs.found hfd).1 (procLook_some hp).1 hy ha)

theorem Follows.lookRec (h : Follows loose k s) (r : Ref) (f : Files) :
    Follows loose k (lookRec r f s).2 := by
  have hpare : ∀ r', ((Model.Table.lookRec r f s).2.heap r').pare = (s.heap r').pare :=
    fun r' => lookRec_field Proc.pare prfsLook_pare r'
  constructor
  · intro q hq
    obtain ⟨a, r', p, hka, ha, haq, hr, hra, hrp, hp⟩ := h.linked q hq
    exact ⟨a, r', p, hka, ha, haq, (procLook_lookRec q).trans hr, lookRec_alive hra,
      (hpare r').trans hrp, hp.imp_right fun hp => (procLook_lookRec a).trans hp⟩
  · intro q hq r' hr
    rw [procLook_lookRec] at hr
    exact lookRec_alive (h.alive q hq r' hr)
  · intro r' hr p hp
    rw [hpare] at hp
    rw [lookRec_pid, procLook_lookRec]
    exact h.forked r' hr p hp

end Event

/-! ### Exits -/

section Exit
variable {k : Kernel} {s t : State} {p : Pid} {code : ℕ} {adopter : Pid → Pid} {d : Ref}

theorem Follows.gone (h : Follows ∅ k s) (hl : procLook s p = none) :
    Follows ∅ (k.act (.exit p code adopter)) s := by
  have hne : ∀ {q r}, procLook s q = some r → q ≠ p := fun hq => by
    rintro rfl; rw [hl] at hq; cases hq
  constructor
  · rintro q ⟨hq, hqp⟩
    obtain ⟨a, r, p', hka, ha, haq, hr, hra, hrp, hp⟩ := h.linked q hq
    have hap : a ≠ p := hne (hp.resolve_left (Set.notMem_empty _))
    refine ⟨a, r, p', ?_, runs_exit.mpr ⟨hap, ha⟩, haq, hr, hra, hrp, hp⟩
    rw [parent_exit hqp, if_neg (by rw [hka]; simpa using hap), hka]
  · exact fun q hq => h.alive q (runs_exit.mp hq).2
  · intro r hr p' hp
    obtain ⟨h1, h2⟩ := h.forked r hr p' hp
    exact ⟨⟨h1, hne h2⟩, h2⟩

/-- **The start of an exit**: in `t` the record `d` of the process is dead and has no parent. Its
children are the exceptions. -/
theorem Follows.die (h : Follows ∅ k s) (hen : k.Enabled (.exit p code adopter))
    (hl : procLook s p = some d) (ht : t.tracked = s.tracked)
    (hlk : ∀ q, procLook t q = procLook s q) (hpid : ∀ r, (t.heap r).pid = (s.heap r).pid)
    (halive : ∀ r, (t.heap r).alive = if r = d then false else (s.heap r).alive)
    (hpare : ∀ r, (t.heap r).pare = if r = d then none else (s.heap r).pare) :
    Follows {d} (k.act (.exit p code adopter)) t := by
  -- the records of other processes are not `d`
  have hne : ∀ {q r}, q ≠ p → procLook s q = some r → r ≠ d := fun hq hr => by
    rintro rfl
    exact hq ((procLook_some hr).2.symm.trans (procLook_some hl).2)
  constructor
  · rintro q ⟨hq, hqp⟩
    obtain ⟨a, r, p', hka, ha, haq, hr, hra, hrp, hp⟩ := h.linked q hq
    have hp := hp.resolve_left (Set.notMem_empty _)
    have hrd := hne hqp hr
    rw [← hlk] at hr
    by_cases hap : a = p
    · -- a child of the process
      subst hap
      rw [hl] at hp; cases hp
      obtain ⟨h1, h2, h3⟩ := hen.2 q hka
      refine ⟨adopter q, r, d, ?_, runs_exit.mpr ⟨h2, h1⟩, h3, hr, ?_, ?_, Or.inl rfl⟩
      · rw [parent_exit hqp, if_pos hka]
      · rw [halive, if_neg hrd, hra]
      · rw [hpare, if_neg hrd, hrp]
    · refine ⟨a, r, p', ?_, runs_exit.mpr ⟨hap, ha⟩, haq, hr, ?_, ?_, Or.inr ((hlk a).trans hp)⟩
      · rw [parent_exit hqp, if_neg (by rw [hka]; simpa using hap), hka]
      · rw [halive, if_neg hrd, hra]
      · rw [hpare, if_neg hrd, hrp]
  · intro q hq r hr
    obtain ⟨hqp, hq⟩ := runs_exit.mp hq
    rw [hlk] at hr
    rw [halive, if_neg (hne hqp hr)]
    exact h.alive q hq r hr
  · intro r hr p' hp
    rw [hpare] at hp
    split_ifs at hp with hrd
    obtain ⟨h1, h2⟩ := h.forked r (ht ▸ hr) p' hp
    rw [hpid, hlk]
    refine ⟨⟨h1, fun he => hrd ?_⟩, h2⟩
    rw [Set.mem_singleton_iff.mp he, hl] at h2
    exact (Option.some.inj h2).symm

/-- The children of `d` are in `l`. -/
def KidsIn (d : Ref) (l : List Ref) (s : State) : Prop :=
  ∀ r ∈ s.tracked, (s.heap r).pare = some d → r ∈ l

/-- What holds throughout the loop: the process of `d` does not run, and its children are the
exceptions. -/
structure Handing (k : Kernel) (d : Ref) (s : State) : Prop where
  follows : Follows {d} k s
  inLoop : InLoop d s
  gone : ¬ k.Runs (s.heap d).pid

/-- A turn gave the child `c` to the record `p`, which is found for `a`. What was found before is
found again, and what is found was found before or is alive. -/
structure AdoptedBy (c : Ref) (a : Pid) (p : Ref) (s t : State) : Prop where
  handed : Handed c s t
  mem : ∀ r ∈ t.tracked, r ∈ s.tracked ∨ (t.heap r).pare = none
  found : procLook t a = some p
  pare : (t.heap c).pare = some p
  look : ∀ q r, procLook s q = some r → procLook t q = some r
  back : ∀ q r, procLook t q = some r → procLook s q = some r ∨ (t.heap r).alive = true

/-- A turn whose child reports `a`, which is not the child and can be loaded, does not fail, and the
child is adopted. -/
theorem exitTurn_adopts {c : Ref} {a : Pid} {w : World} (hi : InLoop d s)
    (hf : (s.heap d).firsChil = some c) (hrd : readable (w.files (s.heap c).pid) = true)
    (hpp : ∀ g, statRead (w.files (s.heap c).pid) = some g → g.ppid = a)
    (hla : procLook s a ≠ some c) (hca : canLoad w a = true) :
    ∃ p t, exitTurn d c w s = .ret (0, t) ∧ AdoptedBy c a p s t := by
  have hcn := hi.sound.lt_next c (hi.sound.firsChil hi.mem hf).1
  have hu := (hi.sound.orphan hi.mem hf w).1
  rcases exitTurn_spec (w := w) hf hcn with ⟨hn, -⟩ | ⟨g, -, hg, ⟨hn, -⟩ | ⟨v, -, hn, -, -⟩ |
    ⟨p, v, hpc, hfd, ht⟩⟩
  · rw [hrd] at hn; cases hn
  · rw [hpp g hg] at hn; exact absurd hn hla
  · rw [hpp g hg, hca] at hn; cases hn
  rw [hpp g hg] at hfd
  have hrl : Relinked v (attaChil (some p) (some c) v).2 := attaChil_relinked _ _
  refine ⟨p, _, ht, exitTurn_handed hf hcn ht, fun r hr => exitTurn_mem_or_pare hf hcn ht hr, ?_,
    ?_, fun q r hq => ?_, fun q r hq => ?_⟩
  · rw [hrl.procLook]; exact hfd.procLook hu.lt_next
  · rw [attaChil_pare hpc, if_pos rfl]
  · rw [hrl.procLook]
    exact hfd.procLook_of_some hu.lt_next ((procLook_orphaned _).trans hq)
  · rw [hrl.procLook] at hq
    rw [hrl.alive]
    exact (hfd.some_or_alive hu.lt_next hq).imp_left (procLook_orphaned _).symm.trans

theorem AdoptedBy.pare_cases {c : Ref} {a : Pid} {p : Ref} (h : AdoptedBy c a p s t) (hs : Sound s)
    {r p' : Ref} (hr : r ∈ t.tracked) (hp : (t.heap r).pare = some p') :
    r = c ∧ p' = p ∨ r ≠ c ∧ r ∈ s.tracked ∧ (s.heap r).pare = some p' := by
  rcases h.mem r hr with hrs | hn
  · by_cases hrc : r = c
    · subst hrc
      rw [h.pare] at hp
      exact Or.inl ⟨rfl, (Option.some.inj hp).symm⟩
    · rw [(h.handed.other r (hs.lt_next r hrs) hrc).2] at hp
      exact Or.inr ⟨hrc, hrs, hp⟩
  · rw [hn] at hp; cases hp

/-- **An adoption keeps the simulation**: the child is below the record of its parent then. -/
theorem AdoptedBy.follows {c : Ref} {a : Pid} {p : Ref} (h : AdoptedBy c a p s t) (hs : Sound s)
    (hfol : Follows {d} k s) (hct : c ∈ s.tracked) (hka : k.parent (s.heap c).pid = some a)
    (hcq : (s.heap c).pid ∈ k.forked) (hcl : procLook s (s.heap c).pid = some c) :
    Follows {d} k t where
  linked q hq := by
    obtain ⟨b, r, p', hkb, hb, hbq, hr, hra, hrp, hp⟩ := hfol.linked q hq
    have hrn := hs.lt_next r (procLook_some hr).1
    by_cases hrc : r = c
    · subst hrc
      rw [(procLook_some hr).2, hkb] at hka; cases hka
      exact ⟨_, r, p, hkb, hb, hbq, h.look _ _ hr, h.handed.alive r hrn hra, h.pare,
        Or.inr h.found⟩
    · exact ⟨b, r, p', hkb, hb, hbq, h.look _ _ hr, h.handed.alive r hrn hra,
        ((h.handed.other r hrn hrc).2).trans hrp, hp.imp_right (h.look _ _)⟩
  alive q hq r hr := by
    rcases h.back q r hr with hr | hra
    · exact h.handed.alive r (hs.lt_next r (procLook_some hr).1) (hfol.alive q hq r hr)
    · exact hra
  forked r hr p' hp := by
    have hpid : ∀ r ∈ s.tracked, (t.heap r).pid = (s.heap r).pid := fun r hr =>
      h.handed.field r (hs.lt_next r hr) Proc.pid (fun _ => rfl) prfsLook_pid
    rcases h.pare_cases hs hr hp with ⟨rfl, -⟩ | ⟨-, hrs, hp⟩
    · rw [hpid r hct]
      exact ⟨hcq, h.look _ _ hcl⟩
    · rw [hpid r hrs]
      obtain ⟨h1, h2⟩ := hfol.forked r hrs p' hp
      exact ⟨h1, h.look _ _ h2⟩

theorem AdoptedBy.kidsIn {c : Ref} {a : Pid} {p : Ref} (h : AdoptedBy c a p s t) (hs : Sound s)
    (hpd : p ≠ d) {l : List Ref} (hk : KidsIn d l s) : KidsIn d (l.erase c) t := by
  intro r hr hp
  rcases h.pare_cases hs hr hp with ⟨-, hdp⟩ | ⟨hrc, hrs, hp⟩
  · exact absurd hdp.symm hpd
  · exact (List.mem_erase_of_ne hrc).mpr (hk r hrs hp)

/-- **A turn of the loop hands the child to its new parent.** It does not fail. -/
theorem Handing.turn {c : Ref} {w : ℕ → World} (h : Handing k d s) (hw : Reports k w)
    (hf : (s.heap d).firsChil = some c) (n : ℕ) :
    ∃ t, exitTurn d c (w n) s = .ret (0, t) ∧ Handing k d t ∧
      ∀ l, KidsIn d l s → KidsIn d (l.erase c) t := by
  obtain ⟨h, hi, hdp⟩ := h
  obtain ⟨hct, hcd, -⟩ := hi.sound.firsChil hi.mem hf
  obtain ⟨hcq, hcl⟩ := h.forked c hct d hcd
  obtain ⟨a, c', p', hka, ha, haq, hr, -⟩ := h.linked _ hcq
  rw [hcl] at hr; cases hr
  -- what the turn reads of the child and of its parent
  obtain ⟨-, -, hread⟩ := hw n
  obtain ⟨hrd, hpp⟩ := hread _ a hka
  have hla : procLook s a ≠ some c := fun he => haq (procLook_some he).2.symm
  obtain ⟨p, t, ht, had⟩ := exitTurn_adopts hi hf hrd hpp hla (canLoad_of_reports hw ha n)
  have hdt : (t.heap d).pid = (s.heap d).pid :=
    had.handed.field d (hi.sound.lt_next d hi.mem) Proc.pid (fun _ => rfl) prfsLook_pid
  have hpd : p ≠ d := by
    -- the new parent runs, and the process of `d` does not
    rintro rfl
    exact hdp (by rw [← hdt, (procLook_some had.found).2]; exact ha)
  exact ⟨t, ht, ⟨had.follows hi.sound h hct hka hcq hcl, hi.turn hf ht, by rw [hdt]; exact hdp⟩,
    fun l hk => had.kidsIn hi.sound hpd hk⟩

/-- **At the end of the loop there are no exceptions.** -/
theorem Handing.loopEnd (h : Handing k d s) {w : ℕ → World} (hw : Reports k w) {n : ℕ}
    (hl : LoopEnd d w n s t) : Follows ∅ k t := by
  obtain ⟨n', s', hat, hend⟩ := hl
  have hs' : Handing k d s' := hat.inv (I := fun _ => Handing k d)
    (fun n s c s' hs hf ht => by
      obtain ⟨v, hv, hh, -⟩ := hs.turn hw hf n
      rw [ht] at hv; cases hv
      exact hh) h
  rcases hend with ⟨hf, rfl⟩ | ⟨c, hf, ht⟩
  · exact hs'.follows.settle (hs'.inLoop.sound.barren hs'.inLoop.mem hf)
  · obtain ⟨v, hv, -⟩ := hs'.turn hw hf n'
    rw [ht] at hv; cases hv

/-- **The loop ends**, after as many turns as there are children. -/
theorem Handing.returns {w : ℕ → World} (hw : Reports k w) : ∀ {l : List Ref} {s : State} {n m : ℕ},
    Handing k d s → KidsIn d l s → l.length ≤ m → ∃ t, exitLoop d w m n s = .ret (0, t)
  | l, s, n, m, h, hk, hm => by
    rcases hf : (s.heap d).firsChil with _ | c
    · exact ⟨s, exitLoop_nil hf⟩
    obtain ⟨hct, hcd, -⟩ := h.inLoop.sound.firsChil h.inLoop.mem hf
    have hcl := hk c hct hcd
    obtain ⟨t, ht, hh, hkt⟩ := h.turn hw hf n
    have hlen := List.length_erase_of_mem hcl
    have hpos := List.length_pos_of_mem hcl
    obtain ⟨m, rfl⟩ : ∃ m', m = m' + 1 := ⟨m - 1, by omega⟩
    rw [exitLoop_turn hf ht]
    exact Handing.returns hw hh (hkt l hk) (by omega)
termination_by l => l.length

/-- The record of a process with a forked child is above the record of the child. -/
theorem Follows.above (h : Follows ∅ k s) {c : Pid} (hc : c ∈ k.forked) (hp : k.parent c = some p) :
    ∃ r d, procLook s c = some r ∧ (s.heap r).pare = some d ∧ procLook s p = some d := by
  obtain ⟨a, r, d, hka, -, -, hr, -, hrp, hd⟩ := h.linked c hc
  rw [hp] at hka; cases hka
  exact ⟨r, d, hr, hrp, hd.resolve_left (Set.notMem_empty _)⟩

theorem Follows.handing (h : Follows ∅ k s) (hen : k.Enabled (.exit p code adopter))
    (hl : procLook s p = some d) {p₀ : Ref} {ts : ℕ} (ht : Detached s d p₀ code ts t) :
    Handing (k.act (.exit p code adopter)) d t := by
  have hpid : ∀ r, (t.heap r).pid = (s.heap r).pid := fun r =>
    (ht.relinked.pid r).trans (Sound.markDead_pid d code ts r)
  refine ⟨h.die hen hl ht.tracked (fun q => ?_) hpid ht.alive ht.pare,
    ht.inLoop (procLook_some hl).1, ?_⟩
  · exact procLook_congr ht.relinked.buckets fun r _ => hpid r
  · rw [hpid, (procLook_some hl).2]
    exact fun hr => (runs_exit.mp hr).1 rfl

theorem Follows.exit (h : Follows ∅ k s) (hs : Sound s) (hen : k.Enabled (.exit p code adopter))
    {w : ℕ → World} (hw : Reports (k.act (.exit p code adopter)) w)
    (hok : p ∈ k.forked ∨ ∀ c ∈ k.forked, k.parent c ≠ some p) {fuel ts : ℕ} {x : ℤ}
    (he : evenExit fuel p code ts w s = .ret (x, t)) :
    Follows ∅ (k.act (.exit p code adopter)) t := by
  rcases hs.evenExit_inv he with ⟨hl, rfl⟩ | ⟨d, hl, hd, ⟨hp, rfl⟩ | ⟨p₀, t₀, -, ht, hend⟩⟩
  · exact h.gone hl
  · -- a record without a parent is not that of a forked process
    have hkids : ∀ c ∈ k.forked, k.parent c ≠ some p := hok.resolve_left fun hf => by
      obtain ⟨a, r, p', -, -, -, hr, -, hrp, -⟩ := h.linked p hf
      rw [hl] at hr; cases hr
      rw [hp] at hrp; cases hrp
    have hdie : Follows {d} (k.act (.exit p code adopter)) (s.upd d (markDead code ts)) := by
      refine h.die hen hl rfl (Sound.procLook_markDead d code ts) (Sound.markDead_pid d code ts)
        (Sound.markDead_alive d code ts) fun r => ?_
      rw [Sound.markDead_pare]
      split_ifs with hrd
      · rw [hrd, hp]
      · rfl
    refine hdie.settle fun r hr hrd => ?_
    rw [Sound.markDead_pare] at hrd
    obtain ⟨hf, hlr⟩ := h.forked r hr d hrd
    obtain ⟨a, r', p', hka, -, -, hr', -, hrp, hp'⟩ := h.linked _ hf
    rw [hlr] at hr'; cases hr'
    rw [hrd] at hrp; cases hrp
    have hap := (procLook_some (hp'.resolve_left (Set.notMem_empty _))).2
    rw [(procLook_some hl).2] at hap
    exact hkids _ hf (hap ▸ hka)
  · exact (h.handing hen hl ht).loopEnd hw hend

/-- **An exit that misses the condition** leaves the children below the dead record. -/
theorem not_mirrors_exit (h : Follows ∅ k s) (hs : Sound s) (hpf : p ∉ k.forked) {c : Pid}
    (hc : c ∈ k.forked) (hcp : k.parent c = some p) {w : ℕ → World} {fuel ts : ℕ} {x : ℤ}
    (he : evenExit fuel p code ts w s = .ret (x, t)) :
    ¬ Mirrors (k.act (.exit p code adopter), t) := by
  obtain ⟨r, d, hr, hrd, hl⟩ := h.above hc hcp
  have hroot : (s.heap d).pare = none := by
    by_contra hn
    obtain ⟨p₀, hp₀⟩ := Option.ne_none_iff_exists'.mp hn
    have := (h.forked d (procLook_some hl).1 p₀ hp₀).1
    rw [(procLook_some hl).2] at this
    exact hpf this
  rcases hs.evenExit_inv he with ⟨hl', -⟩ | ⟨d', hl', -, ⟨-, rfl⟩ | ⟨p₀, t₀, hp₀, -⟩⟩ <;>
    rw [hl] at hl' <;> cases hl'
  · intro hm
    obtain ⟨r', p', hr', -, hrp, hpa, -⟩ := hm c ⟨hc, fun he => hpf (he ▸ hc)⟩
    rw [Sound.procLook_markDead, hr] at hr'; cases hr'
    rw [Sound.markDead_pare, hrd] at hrp; cases hrp
    rw [Sound.markDead_alive, if_pos rfl] at hpa; cases hpa
  · rw [hroot] at hp₀; cases hp₀

end Exit

/-! ### Runs -/

section Step
variable {k : Kernel} {s t : State} {m : Move}

theorem Follows.step {y : Kernel × State} (h : Follows ∅ k s) (hs : Sound s) (hok : Ok (k, s) m)
    (hst : Sync (k, s) m y) : Follows ∅ y.1 y.2 := by
  obtain ⟨hen, hy, hw, hstep⟩ := hst
  obtain ⟨fuel, x, he⟩ := handle_of_step hstep
  obtain ⟨act, ts, w⟩ := m
  obtain ⟨k', t⟩ := y
  dsimp only at hy hw ⊢
  subst hy
  cases act with
  | fork p c => exact h.fork hs hen hw he
  | exec p =>
    rcases handle_exec he with ⟨-, rfl⟩ | ⟨r, -, rfl⟩
    · exact h
    · exact h.lookRec _ _
  | exit p code adopter => exact h.exit hs hen hw hok he

theorem not_mirrors_step {y : Kernel × State} (h : Follows ∅ k s) (hs : Sound s)
    (hok : ¬ Ok (k, s) m) (hst : Sync (k, s) m y) : ¬ Mirrors y := by
  obtain ⟨-, hy, -, hstep⟩ := hst
  obtain ⟨fuel, x, he⟩ := handle_of_step hstep
  obtain ⟨act, ts, w⟩ := m
  obtain ⟨k', t⟩ := y
  dsimp only at hy
  subst hy
  cases act with
  | fork | exec => exact absurd trivial hok
  | exit p code adopter =>
    simp only [Ok, not_or, not_forall, not_not] at hok
    obtain ⟨hpf, c, hc, hcp⟩ := hok
    exact not_mirrors_exit h hs hpf hc hcp he

theorem Follows.returns (h : Follows ∅ k s) (hs : Sound s) (hen : k.Enabled m.act)
    (hw : Reports (k.act m.act) m.world) : ∃ y, Sync (k, s) m y := by
  suffices ∃ fuel x, handle fuel m.input.even m.world s = .ret x by
    obtain ⟨fuel, x, hx⟩ := this
    exact ⟨(k.act m.act, x.2), hen, rfl, hw, fuel, by
      rw [readEven, show m.input.world = m.world from rfl, hx]; rfl⟩
  obtain ⟨act, ts, w⟩ := m
  cases act with
  | fork p c => exact ⟨0, hs.evenFork_returns p c ts w⟩
  | exec p => exact ⟨0, _, rfl⟩
  | exit p code adopter =>
    rcases hs.evenExit_cases 0 p code ts w with ⟨-, he⟩ | ⟨d, hl, hd, ⟨-, he⟩ | ⟨p₀, t₀, hp, ht, -⟩⟩
    · exact ⟨0, _, he⟩
    · exact ⟨0, _, he⟩
    · have hh := h.handing hen hl ht
      obtain ⟨kids, hk⟩ := hh.inLoop.sound.forest
      have hkids : KidsIn d (kids d) t₀ := fun r hr hp =>
        (hk.mem_iff d hh.inLoop.mem r hr).mpr hp
      obtain ⟨t, he⟩ := hh.returns hw (n := 0) hkids le_rfl
      refine ⟨(kids d).length, (0, t), ?_⟩
      rcases hs.evenExit_cases (kids d).length p code ts w with ⟨hl', -⟩ |
        ⟨d', hl', -, ⟨hp', -⟩ | ⟨p₁, t₁, hp', ht', he'⟩⟩ <;> rw [hl] at hl' <;> cases hl' <;>
        rw [hp] at hp' <;> cases hp'
      have hrun := ht.run
      rw [ht'.run] at hrun; cases hrun
      exact he'.trans he

end Step

/-- **The program mirrors the kernel in every state of a run exactly if every action meets the
condition**; and as long as it does, the handlers return. A wrong access of a refresh, which may end
the real program, counts as a return here and is only noted in `strs.faults`. -/
theorem mirrors_iff_ok {k : Kernel} (hk : k.forked = ∅) {tr : List (Move × Kernel × State)}
    (hr : Steps Sync (k, init) tr) :
    ((∀ x ∈ tr, Mirrors x.2) ↔ Steps (fun x m _ => Ok x m) (k, init) tr) ∧
      (Steps (fun x m _ => Ok x m) (k, init) tr → ∀ m, (final (k, init) tr).1.Enabled m.act →
        Reports ((final (k, init) tr).1.act m.act) m.world →
          ∃ y, Sync (final (k, init) tr) m y) := by
  have h₀ : Sound (k, init).2 ∧ Follows ∅ (k, init).1 (k, init).2 := ⟨sound_init, follows_init hk⟩
  constructor
  · exact Steps.forall_mem_iff (J := fun x => Sound x.2 ∧ Follows ∅ x.1 x.2) (G := Ok)
      (fun x hx => hx.2.mirrors)
      (fun x m y hx hst hok => ⟨hx.1.step hst.2.2.2, hx.2.step hx.1 hok hst⟩)
      (fun x m y hx hst hok => not_mirrors_step hx.2 hx.1 hok hst) h₀ hr
  · intro hok m hen hw
    obtain ⟨hs, hf⟩ := Steps.final (J := fun x => Sound x.2 ∧ Follows ∅ x.1 x.2)
      (fun x m y hx hst => ⟨hx.1.step hst.1.2.2.2, hx.2.step hx.1 hst.2 hst.1⟩) h₀
      (steps_and.mpr ⟨hr, hok⟩)
    exact hf.returns hs hen hw

/-- Processes 1 and 5 run when the program starts. -/
def started : Kernel := ⟨fun q => if q = 1 then some 0 else if q = 5 then some 1 else none, ∅⟩

theorem known_started : Known [(1, 0), (5, 1)] started := by
  intro q a h
  simp only [started] at h
  split_ifs at h with h1 h5 <;> cases h
  · rw [h1]; decide
  · rw [h5]; decide

/-- A fork by a process that ran before the program. -/
def lateFork : Move :=
  ⟨.fork 5 7, 1000000000, answers [(1, ['0']), (5, ['1']), (7, ['5'])]⟩

/-- A fork by the child. -/
def nextFork : Move :=
  ⟨.fork 7 8, 2000000000, answers [(1, ['0']), (5, ['1']), (7, ['5']), (8, ['7'])]⟩

/-- The exit of the child, whose own child is taken over. -/
def nextExit : Move :=
  ⟨.exit 7 0 fun _ => 5, 3000000000, answers [(1, ['0']), (5, ['1']), (8, ['5'])]⟩

theorem allowed_next : Allowed started [lateFork, nextFork, nextExit] := by
  have h1 : Known _ (started.act lateFork.act) := known_started.fork
  have h2 : Known _ ((started.act lateFork.act).act nextFork.act) := h1.fork
  have h3 : Known _ (((started.act lateFork.act).act nextFork.act).act nextExit.act) := h2.exit
  refine ⟨⟨⟨1, rfl⟩, fun ⟨a, ha⟩ => by cases ha⟩, h1.reports (by decide),
    ⟨⟨5, rfl⟩, fun ⟨a, ha⟩ => by cases ha⟩, h2.reports (by decide),
    ⟨⟨5, rfl⟩, fun c hc => ⟨⟨1, rfl⟩, show (5 : Pid) ≠ 7 by decide, fun (he : 5 = c) => ?_⟩⟩,
    h3.reports (by decide), trivial⟩
  exact absurd (h2 _ _ (he ▸ hc)) (by decide)

theorem mirrors_iff_ok_next :
    ((∀ x ∈ syncTrace 1 (started, init) [lateFork, nextFork, nextExit], Mirrors x.2) ↔
      Steps (fun x m _ => Ok x m) (started, init)
        (syncTrace 1 (started, init) [lateFork, nextFork, nextExit])) :=
  (mirrors_iff_ok rfl (steps_syncTrace allowed_next (by decide))).1

/-- The exit of the process that ran before the program. -/
def lateExit : Move := ⟨.exit 5 0 fun _ => 1, 2000000000, answers [(1, ['0']), (7, ['1'])]⟩

theorem allowed_late : Allowed started [lateFork, lateExit] := by
  have h1 : Known _ (started.act lateFork.act) := known_started.fork
  have h2 : Known _ ((started.act lateFork.act).act lateExit.act) := h1.exit
  refine ⟨⟨⟨1, rfl⟩, fun ⟨a, ha⟩ => by cases ha⟩, h1.reports (by decide),
    ⟨⟨1, rfl⟩, fun c hc => ⟨⟨0, rfl⟩, show (1 : Pid) ≠ 5 by decide, fun (he : 1 = c) => ?_⟩⟩,
    h2.reports (by decide), trivial⟩
  exact absurd (h1 _ _ (he ▸ hc)) (by decide)

/-- The child stays below the dead record. -/
theorem not_mirrors_lateExit :
    Steps Sync (started, init) (syncTrace 0 (started, init) [lateFork, lateExit]) ∧
      ¬ ∀ x ∈ syncTrace 0 (started, init) [lateFork, lateExit], Mirrors x.2 := by
  refine ⟨steps_syncTrace allowed_late (by decide), fun hi => ?_⟩
  have hm := forall_final (P := Mirrors) (s := (started, init)) hi (by simp [syncTrace])
  obtain ⟨r, p, hr, -, hrp, hpa, -⟩ := hm 7 ⟨Or.inl rfl, by decide⟩
  have hr1 : r = 1 := Option.some.inj (hr.symm.trans (by decide))
  subst hr1
  have hp0 : p = 0 := Option.some.inj (hrp.symm.trans (by decide))
  subst hp0
  exact absurd hpa (by decide)

end Serie.Mirror.Sync
