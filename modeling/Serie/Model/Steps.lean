import Serie.Model.Conn
import Serie.Model.Refresh
import Mathlib.Data.List.Find

/-! # What the functions of the table and the tree do

One lemma for each function, with everything it can do, in terms of a few ways in which a state
changes:

* `Relinked`: only links changed (`atta_chil`, `deta_chil`);
* `Quiet`: no record changed, some memory was used up (a record that could not be loaded or kept);
* `Adds`: one new record, in front of its bucket (a record that was loaded and inserted);
* `lookRec` and `State.upd`: a write to one record.

`findPare_cases`, `evenFork_inv` and (in `Loop`) `exitTurn_spec` take the handlers apart into
these; every invariant is proved for the few changes and then follows for the handlers. -/

namespace Serie.Model.Steps

open Serie.Lib.CText Serie.Lib.Intrusive Serie.Model.Record Serie.Model.Prfs Serie.Model.Refresh
open Serie.Model.Table Serie.Model.Conn

/-! ### Ways in which a state changes -/

/-- The record without its links. -/
def bare (p : Proc) : Proc := { p with pare := none, firsChil := none, nextSibl := none }

/-- Only links changed. -/
structure Relinked (s t : State) : Prop where
  same : t = { s with heap := t.heap }
  bare : ∀ r, bare (t.heap r) = bare (s.heap r)

/-- No record allocated before changed, nor did the table. -/
structure Quiet (s t : State) : Prop where
  heap : ∀ r < s.next, t.heap r = s.heap r
  buckets : t.buckets = s.buckets
  next : s.next ≤ t.next

/-- The record `x` was allocated and put in front of its bucket. -/
structure Adds (s : State) (x : Proc) (t : State) : Prop where
  heap : t.heap = Function.update s.heap s.next x
  buckets : t.buckets = Function.update s.buckets (procHash x.pid)
    (s.next :: s.buckets (procHash x.pid))
  next : t.next = s.next + 1

/-- What `proc_load` makes of the answers `f` for the pid `q`. -/
structure IsLoad (q : Pid) (f : Files) (x : Proc) : Prop where
  pid : x.pid = q
  alive : x.alive = true
  birthPpid : x.birthPpid = -1
  birthTime : x.birthTime = ⟨0, 0⟩
  deathTime : x.deathTime = ⟨0, 0⟩
  exitCode : x.exitCode = 0
  pare : x.pare = none
  firsChil : x.firsChil = none
  nextSibl : x.nextSibl = none
  stat : ∃ g, statRead f = some g ∧ x.ppid = g.ppid

theorem mem_tracked {s : State} {r : Ref} : r ∈ s.tracked ↔ ∃ b, r ∈ s.buckets b := Iff.rfl

theorem notMem_init (r : Ref) : r ∉ init.tracked := by
  rintro ⟨b, hb⟩
  cases hb

theorem Quiet.refl (s : State) : Quiet s s := ⟨fun _ _ => rfl, rfl, le_rfl⟩

theorem Quiet.tracked {s t : State} (h : Quiet s t) : t.tracked = s.tracked := by
  unfold State.tracked; rw [h.buckets]

namespace Relinked

variable {s t u : State}

theorem refl (s : State) : Relinked s s := ⟨rfl, fun _ => rfl⟩

theorem trans (h : Relinked s t) (h' : Relinked t u) : Relinked s u where
  same := by rw [h'.same, h.same]
  bare r := (h'.bare r).trans (h.bare r)

theorem buckets (h : Relinked s t) : t.buckets = s.buckets := by rw [h.same]

theorem next (h : Relinked s t) : t.next = s.next := by rw [h.same]

theorem tracked (h : Relinked s t) : t.tracked = s.tracked := by
  unfold State.tracked; rw [h.buckets]

theorem field {α : Type} (h : Relinked s t) (g : Proc → α) (hg : ∀ p, g (Steps.bare p) = g p)
    (r : Ref) : g (t.heap r) = g (s.heap r) := by
  rw [← hg, h.bare, hg]

theorem pid (h : Relinked s t) (r : Ref) : (t.heap r).pid = (s.heap r).pid :=
  h.field Proc.pid (fun _ => rfl) r

theorem ppid (h : Relinked s t) (r : Ref) : (t.heap r).ppid = (s.heap r).ppid :=
  h.field Proc.ppid (fun _ => rfl) r

theorem alive (h : Relinked s t) (r : Ref) : (t.heap r).alive = (s.heap r).alive :=
  h.field Proc.alive (fun _ => rfl) r

end Relinked

/-! ### Lookups -/

/-- The low bits of any pid, a negative one included, are below the number of buckets. -/
theorem procHash_lt (q : Pid) : procHash q < procBuckNodes := by
  have h0 : (0 : ℤ) < procBuckNodes := by decide
  have hlt := Int.emod_lt_of_pos q h0
  have hnn := Int.emod_nonneg q h0.ne'
  unfold procHash
  omega

theorem procLook_congr {s t : State} {q : Pid} (hb : t.buckets = s.buckets)
    (hp : ∀ r ∈ s.tracked, (t.heap r).pid = (s.heap r).pid) : procLook t q = procLook s q := by
  unfold procLook
  rw [hb]
  refine List.find?_congr fun r hr => ?_
  rw [hp r ⟨_, hr⟩]

theorem Relinked.procLook {s t : State} (h : Relinked s t) (q : Pid) :
    procLook t q = procLook s q :=
  procLook_congr h.buckets fun r _ => h.pid r

theorem procLook_some {s : State} {q : Pid} {r : Ref} (h : procLook s q = some r) :
    r ∈ s.tracked ∧ (s.heap r).pid = q :=
  ⟨⟨_, List.mem_of_find?_eq_some h⟩, by simpa using List.find?_some h⟩

theorem procLook_none {s : State} {q : Pid} {r : Ref} (h : procLook s q = none)
    (hr : r ∈ s.buckets (procHash q)) : (s.heap r).pid ≠ q := by
  simpa using List.find?_eq_none.mp h r hr

/-- The new record is the one found for its pid; no other lookup changes. -/
theorem Adds.procLook {s t : State} {x : Proc} (h : Adds s x t)
    (hlt : ∀ r ∈ s.tracked, r < s.next) (q : Pid) :
    procLook t q = if x.pid = q then some s.next else procLook s q := by
  have hold : ∀ r ∈ s.buckets (procHash q), (t.heap r).pid = (s.heap r).pid := fun r hr => by
    rw [h.heap, Function.update_of_ne (hlt r ⟨_, hr⟩).ne]
  have hfind : (s.buckets (procHash q)).find? (fun r => (t.heap r).pid = q) =
      (s.buckets (procHash q)).find? (fun r => (s.heap r).pid = q) :=
    List.find?_congr fun r hr => by rw [hold r hr]
  have hx : (t.heap s.next).pid = x.pid := by rw [h.heap, Function.update_self]
  unfold Table.procLook
  rw [h.buckets]
  by_cases hq : x.pid = q
  · rw [if_pos hq, ← hq, Function.update_self]
    simp [hx]
  · rw [if_neg hq]
    by_cases hb : procHash q = procHash x.pid
    · rw [hb] at hfind ⊢
      rw [Function.update_self, List.find?_cons_of_neg (by simp [hx, hq])]
      exact hfind
    · rw [Function.update_of_ne hb]
      exact hfind

theorem Adds.tracked {s t : State} {x : Proc} (h : Adds s x t) :
    t.tracked = insert s.next s.tracked := by
  ext r
  simp only [mem_tracked, h.buckets, Set.mem_insert_iff]
  constructor
  · rintro ⟨b, hb⟩
    by_cases he : b = procHash x.pid
    · subst he
      rw [Function.update_self] at hb
      rcases List.mem_cons.mp hb with rfl | hb
      · exact Or.inl rfl
      · exact Or.inr ⟨_, hb⟩
    · rw [Function.update_of_ne he] at hb
      exact Or.inr ⟨b, hb⟩
  · rintro (rfl | ⟨b, hb⟩)
    · exact ⟨procHash x.pid, by simp⟩
    · by_cases he : b = procHash x.pid
      · exact ⟨b, by subst he; simp [hb]⟩
      · exact ⟨b, by rwa [Function.update_of_ne he]⟩

/-! ### The tree -/

section Tree
variable {s t : State} {p c r : Ref} {x : ℤ}

@[simp] theorem upd_heap (f : Proc → Proc) :
    (s.upd r f).heap = Function.update s.heap r (f (s.heap r)) := rfl

@[simp] theorem upd_buckets (f : Proc → Proc) : (s.upd r f).buckets = s.buckets := rfl

@[simp] theorem upd_next (f : Proc → Proc) : (s.upd r f).next = s.next := rfl

theorem relinked_upd {f : Proc → Proc} (hf : ∀ y, bare (f y) = bare y) :
    Relinked s (s.upd r f) where
  same := rfl
  bare q := by
    by_cases hq : q = r
    · subst hq; simp [hf]
    · simp [hq]

theorem relinked_upd_upd {f g : Proc → Proc} (hf : ∀ y, bare (f y) = bare y)
    (hg : ∀ y, bare (g y) = bare y) : Relinked s ((s.upd p f).upd c g) :=
  (relinked_upd hf).trans (relinked_upd hg)

theorem attaChil_self : attaChil (some c) (some c) s = (-1, s) := by simp [attaChil]

theorem attaChil_of_ne (h : p ≠ c) : (attaChil (some p) (some c) s).1 = 0 := by
  simp [attaChil, h]

theorem attaChil_relinked (pare chil : Option Ref) : Relinked s (attaChil pare chil s).2 := by
  unfold attaChil
  split
  · split_ifs
    · exact Relinked.refl s
    · dsimp only
      apply relinked_upd_upd <;> exact fun _ => rfl
  · exact Relinked.refl s

theorem attaChil_links (h : p ≠ c) :
    (attaChil (some p) (some c) s).2.links = s.links.attach p c := by
  simp only [attaChil, if_neg h, State.links, Links.attach]
  congr 1 <;> funext r <;> by_cases hp : r = p <;> by_cases hc : r = c <;> simp_all

theorem attaChil_pare (h : p ≠ c) (r : Ref) :
    ((attaChil (some p) (some c) s).2.heap r).pare =
      if r = c then some p else (s.heap r).pare := by
  have := congrArg (fun l : Links Ref => l.up r) (attaChil_links (s := s) h)
  simpa [State.links, Links.attach, Function.update_apply] using this

theorem attaChil_firsChil (h : p ≠ c) (r : Ref) :
    ((attaChil (some p) (some c) s).2.heap r).firsChil =
      if r = p then some c else (s.heap r).firsChil := by
  have := congrArg (fun l : Links Ref => l.first r) (attaChil_links (s := s) h)
  simpa [State.links, Links.attach, Function.update_apply] using this

theorem attaChil_nextSibl (h : p ≠ c) (r : Ref) :
    ((attaChil (some p) (some c) s).2.heap r).nextSibl =
      if r = c then (s.heap p).firsChil else (s.heap r).nextSibl := by
  have := congrArg (fun l : Links Ref => l.next r) (attaChil_links (s := s) h)
  simpa [State.links, Links.attach, Function.update_apply] using this

theorem attaChil_buckets (h : p ≠ c) (b : ℕ → List Ref) :
    (attaChil (some p) (some c) { s with buckets := b }).2 =
      { (attaChil (some p) (some c) s).2 with buckets := b } := by
  simp only [attaChil, if_neg h]
  rfl

/-- What `deta_chil` makes of the state when `c` is the first child of `p`. -/
def headOff (p c : Ref) (s : State) : State :=
  (s.upd p fun x => { x with firsChil := (s.heap c).nextSibl }).upd c fun x =>
    { x with pare := none, nextSibl := none }

theorem headOff_relinked : Relinked s (headOff p c s) := by
  apply relinked_upd_upd <;> exact fun _ => rfl

theorem headOff_links : (headOff p c s).links = s.links.detachHead p c := by
  simp only [headOff, State.links, Links.detachHead]
  congr 1 <;> funext r <;> by_cases hp : r = p <;> by_cases hc : r = c <;> simp_all

theorem headOff_pare (r : Ref) :
    ((headOff p c s).heap r).pare = if r = c then none else (s.heap r).pare := by
  have := congrArg (fun l : Links Ref => l.up r) (headOff_links (p := p) (c := c) (s := s))
  simpa [State.links, Links.detachHead, Function.update_apply] using this

theorem detaChil_head (h : (s.heap p).firsChil = some c) :
    detaChil (some p) (some c) s = .ret (0, headOff p c s) := by
  simp [detaChil, h, headOff]

/-- What `deta_chil` makes of the state when `c` follows `b`. -/
def linkOff (b c : Ref) (s : State) : State :=
  (s.upd b fun x => { x with nextSibl := (s.heap c).nextSibl }).upd c fun x =>
    { x with pare := none, nextSibl := none }

theorem linkOff_relinked : Relinked s (linkOff p c s) := by
  apply relinked_upd_upd <;> exact fun _ => rfl

theorem linkOff_links : (linkOff p c s).links = s.links.detachAfter p c := by
  simp only [linkOff, State.links, Links.detachAfter]
  congr 1 <;> funext r <;> by_cases hp : r = p <;> by_cases hc : r = c <;> simp_all

theorem detaChil_scan (h : (s.heap p).firsChil ≠ some c) :
    detaChil (some p) (some c) s =
      (detaScan s c s.next (s.heap p).firsChil).bind fun found =>
        match found with
        | none => .ret (-1, s)
        | some b => .ret (0, linkOff b c s) := by
  rw [detaChil, if_neg h]
  rfl

theorem detaChil_relinked {pare chil : Option Ref} (h : detaChil pare chil s = .ret (x, t)) :
    Relinked s t := by
  rcases pare with _ | p
  · cases h; exact Relinked.refl s
  rcases chil with _ | c
  · cases h; exact Relinked.refl s
  by_cases hf : (s.heap p).firsChil = some c
  · rw [detaChil_head hf] at h
    cases h; exact headOff_relinked
  · rw [detaChil_scan hf] at h
    rcases hd : detaScan s c s.next (s.heap p).firsChil with (_ | b) | _ | _ <;> rw [hd] at h <;>
      cases h
    · exact Relinked.refl s
    · exact linkOff_relinked

end Tree

/-! ### Records from `/proc` -/

section Load
variable {s t : State} {q : Pid} {f : Files} {o : Option Ref}

/-- A record for the pid can be made: both allocations succeed and the answers can be read. -/
def canLoad (w : World) (q : Pid) : Bool := w.procCalloc && w.nodeCalloc && readable (w.files q)

theorem isLoad_of_readable (h : readable f = true) (m : Strs) :
    IsLoad q f { (prfsLook { Proc.zero with pid := q } m f).2.1 with birthPpid := -1 } := by
  obtain ⟨g, hg⟩ := statRead_of_readable h
  constructor
  case stat => exact ⟨g, hg, by simp [prfsLook_ppid, hg]⟩
  case alive => simp [prfsLook_alive, hg]
  all_goals simp [Proc.zero]

/-- **`proc_load`** leaves the records alone, and returns a new one or none. -/
theorem procLoad_cases {calloc : Bool} (h : procLoad q f calloc s = (o, t)) :
    ((calloc && readable f) = false ∧ o = none ∧ Quiet s t) ∨
    ∃ x, (calloc && readable f) = true ∧ o = some s.next ∧ IsLoad q f x ∧ t.next = s.next + 1 ∧
      t.heap = Function.update s.heap s.next x ∧ t.buckets = s.buckets := by
  simp only [procLoad, prfsLook_readable] at h
  rcases hc : calloc with _ | _
  · rw [if_pos hc] at h; cases h
    exact Or.inl ⟨rfl, rfl, Quiet.refl s⟩
  rw [if_neg (by simp [hc])] at h
  rcases hr : readable f with _ | _
  · rw [if_pos (by simp [hr])] at h; cases h
    exact Or.inl ⟨rfl, rfl, fun _ _ => rfl, rfl, Nat.le_succ _⟩
  · rw [if_neg (by simp [hr])] at h; cases h
    exact Or.inr ⟨_, rfl, rfl, isLoad_of_readable hr _, rfl, rfl, rfl⟩

/-- The record `p` is found for the pid `q`: it is in the table, or it is made. -/
inductive Found (q : Pid) (w : World) (s : State) : Ref → State → Prop where
  | old {p : Ref} (hp : procLook s q = some p) : Found q w s p s
  | new {x : Proc} {t : State} (hp : procLook s q = none) (hc : canLoad w q = true)
      (hx : IsLoad q (w.files q) x) (ha : Adds s x t) : Found q w s s.next t

theorem Found.old_of_lt {w : World} {p : Ref} (h : Found q w s p t) (hp : p < s.next) :
    procLook s q = some p ∧ t = s := by
  cases h with
  | old hl => exact ⟨hl, rfl⟩
  | new => exact absurd hp (lt_irrefl _)

section Found
variable {w : World} {p : Ref}

theorem Found.pid (h : Found q w s p t) : (t.heap p).pid = q := by
  cases h with
  | old hl => exact (procLook_some hl).2
  | new _ _ hx ha => rw [ha.heap, Function.update_self]; exact hx.pid

theorem Found.alive (h : Found q w s p t)
    (hp : procLook s q = some p → (s.heap p).alive = true) : (t.heap p).alive = true := by
  cases h with
  | old hl => exact hp hl
  | new _ _ hx ha => rw [ha.heap, Function.update_self]; exact hx.alive

theorem Found.procLook (h : Found q w s p t) (hlt : ∀ r ∈ s.tracked, r < s.next) :
    procLook t q = some p := by
  cases h with
  | old hl => exact hl
  | new _ _ hx ha => rw [ha.procLook hlt, hx.pid, if_pos rfl]

theorem Found.procLook_of_some (h : Found q w s p t) (hlt : ∀ r ∈ s.tracked, r < s.next)
    {b : Pid} {r : Ref} (hb : Model.Table.procLook s b = some r) :
    Model.Table.procLook t b = some r := by
  cases h with
  | old => exact hb
  | new hp _ hx ha =>
    rw [ha.procLook hlt, hx.pid, if_neg]
    · exact hb
    · rintro rfl; rw [hp] at hb; cases hb

theorem Found.some_or_alive (h : Found q w s p t) (hlt : ∀ r ∈ s.tracked, r < s.next)
    {b : Pid} {r : Ref} (hb : Model.Table.procLook t b = some r) :
    Model.Table.procLook s b = some r ∨ (t.heap r).alive = true := by
  cases h with
  | old => exact Or.inl hb
  | new _ _ hx ha =>
    rw [ha.procLook hlt] at hb
    split_ifs at hb
    · cases hb; right; rw [ha.heap, Function.update_self]; exact hx.alive
    · exact Or.inl hb

theorem Found.mem_or_pare (h : Found q w s p t) (hlt : ∀ r ∈ s.tracked, r < s.next) {r : Ref}
    (hr : r ∈ t.tracked) : (r ∈ s.tracked ∧ t.heap r = s.heap r) ∨ (t.heap r).pare = none := by
  cases h with
  | old => exact Or.inl ⟨hr, rfl⟩
  | new _ _ hx ha =>
    rw [ha.tracked] at hr
    rcases hr with rfl | hr
    · right; rw [ha.heap, Function.update_self]; exact hx.pare
    · left; exact ⟨hr, by rw [ha.heap, Function.update_of_ne (hlt r hr).ne]⟩

end Found

/-- **The block that finds a parent** finds one unless there is none and none can be made. -/
theorem findPare_cases {w : World} (h : findPare q w s = (o, t)) :
    (procLook s q = none ∧ canLoad w q = false ∧ o = none ∧ Quiet s t) ∨
    ∃ p, o = some p ∧ Found q w s p t := by
  unfold findPare at h
  rcases hl : procLook s q with _ | p <;> rw [hl] at h
  swap
  · cases h; exact Or.inr ⟨p, rfl, .old hl⟩
  rcases hp : procLoad q (w.files q) w.procCalloc s with ⟨_ | r, s₁⟩
  · rw [hp] at h
    rcases procLoad_cases hp with ⟨hc, -, hq⟩ | ⟨x, -, he, -⟩
    · cases h
      refine Or.inl ⟨rfl, ?_, rfl, hq⟩
      rw [canLoad, Bool.and_right_comm, hc, Bool.false_and]
    · cases he
  · rcases procLoad_cases hp with ⟨-, he, -⟩ | ⟨x, hc, he, hx, hn, hh, hb⟩
    · cases he
    obtain rfl := Option.some.inj he
    have hcl : canLoad w q = w.nodeCalloc := by
      rw [canLoad, Bool.and_right_comm, hc, Bool.true_and]
    have hxh : s₁.heap s.next = x := by rw [hh, Function.update_self]
    simp only [hp, procInse, hxh, hb] at h
    rcases hw : w.nodeCalloc with _ | _ <;> simp only [hw] at h
    · cases h
      refine Or.inl ⟨rfl, hcl.trans hw, rfl, ⟨fun r hr => ?_, hb, ?_⟩⟩
      · simp [procDest, hh, hr.ne]
      · simp [procDest, hn]
    · cases h
      exact Or.inr ⟨_, rfl, .new hl (hcl.trans hw) hx ⟨hh, rfl, hn⟩⟩

/-- **The second half of `even_fork`** always returns. It fails and leaves the records alone, or
adds the child and attaches it. -/
theorem forkChil_cases {pare : Ref} (hp : pare < s.next) (ts : ℕ) (w : World) :
    (canLoad w q = false ∧ ∃ t, forkChil pare q ts w s = .ret (-1, t) ∧ Quiet s t) ∨
    canLoad w q = true ∧ ∃ x s₁, IsLoad q (w.files q) x ∧
      Adds s { x with birthTime := splitNs ts } s₁ ∧
      forkChil pare q ts w s = .ret (0, (attaChil (some pare) (some s.next) s₁).2) := by
  unfold forkChil
  rcases hl : procLoad q (w.files q) w.procCalloc s with ⟨_ | r, s₁⟩
  · rcases procLoad_cases hl with ⟨hc, -, hq⟩ | ⟨x, -, he, -⟩
    · refine Or.inl ⟨?_, s₁, rfl, hq⟩
      rw [canLoad, Bool.and_right_comm, hc, Bool.false_and]
    · cases he
  rcases procLoad_cases hl with ⟨-, he, -⟩ | ⟨x, hc, he, hx, hn, hh, hb⟩
  · cases he
  obtain rfl := Option.some.inj he
  have hcl : canLoad w q = w.nodeCalloc := by
    rw [canLoad, Bool.and_right_comm, hc, Bool.true_and]
  have hne : pare ≠ s.next := hp.ne
  have hxh : s₁.heap s.next = x := by rw [hh, Function.update_self]
  rcases hw : w.nodeCalloc with _ | _
  · -- the node is not allocated: the child is detached again, and the parent is as before
    refine Or.inl ⟨hcl.trans hw, ?_⟩
    have hsh : s₁.heap pare = s.heap pare := by rw [hh, Function.update_of_ne hne]
    simp only [attaChil, if_neg hne, procInse, Bool.false_eq_true, if_false,
      show ¬((0 : ℤ) = -1) by decide, if_true]
    rw [detaChil_head (by simp)]
    refine ⟨_, rfl, fun r hr => ?_, by simp [procDest, headOff, hb],
      by simp [procDest, headOff, hn]⟩
    by_cases hrp : r = pare
    · subst hrp; simp [procDest, headOff, hne, Ne.symm hne, hsh]
    · simp [procDest, headOff, hr.ne, hrp, hh]
  · refine Or.inr ⟨hcl.trans hw, ?_⟩
    set u := s₁.upd s.next (fun p => { p with birthTime := splitNs ts }) with hu
    have hrl : Relinked u (attaChil (some pare) (some s.next) u).2 := attaChil_relinked _ _
    have hpid : ((attaChil (some pare) (some s.next) u).2.heap s.next).pid = x.pid := by
      rw [hrl.pid]; simp [hu, hxh]
    have hbk : (attaChil (some pare) (some s.next) u).2.buckets = s.buckets := by
      rw [hrl.buckets]; exact hb
    set b := Function.update s.buckets (procHash x.pid) (s.next :: s.buckets (procHash x.pid))
      with hbs
    refine ⟨x, { u with buckets := b }, hx, ⟨?_, hbs, hn⟩, ?_⟩
    · funext r
      by_cases hr : r = s.next
      · subst hr; simp [hu, hxh]
      · simp [hu, hr, hh]
    · rw [attaChil_buckets hne b]
      simp only [← hu, attaChil_of_ne hne, show ¬((0 : ℤ) = -1) by decide, if_false, procInse,
        if_true, hpid, hbk, hbs]

/-- **What an `even_fork` that returns has done**, and what it returns: no parent was found; or the
parent was found and the child could not be made; or the child was made and attached. -/
theorem evenFork_spec {c : Pid} {ts : ℕ} {w : ℕ → World} {x : ℤ} (hlt : ∀ r ∈ s.tracked, r < s.next)
    (h : evenFork q c ts w s = .ret (x, t)) :
    (x = -1 ∧ procLook s q = none ∧ canLoad (w 0) q = false ∧ Quiet s t) ∨
    ∃ p s₁, Found q (w 0) s p s₁ ∧ (x = -1 ∧ canLoad (w 1) c = false ∧ Quiet s₁ t ∨
      x = 0 ∧ canLoad (w 1) c = true ∧ ∃ y s₂, IsLoad c ((w 1).files c) y ∧
        Adds s₁ { y with birthTime := splitNs ts } s₂ ∧
        t = (attaChil (some p) (some s₁.next) s₂).2) := by
  unfold evenFork at h
  rcases hfp : findPare q (w 0) s with ⟨o, s₁⟩
  rw [hfp] at h
  rcases findPare_cases hfp with ⟨hl, hc, rfl, hq⟩ | ⟨p, rfl, hfd⟩
  · cases h; exact Or.inl ⟨rfl, hl, hc, hq⟩
  have hp : p < s₁.next := by
    cases hfd with
    | old hl => exact hlt p (procLook_some hl).1
    | new _ _ _ ha => rw [ha.next]; exact Nat.lt_succ_self _
  dsimp only at h
  refine Or.inr ⟨p, s₁, hfd, ?_⟩
  rcases forkChil_cases (q := c) hp ts (w 1) with ⟨hc, u, hu, hq⟩ | ⟨hc, y, s₂, hy, ha, hu⟩ <;>
    rw [hu] at h <;> cases h
  · exact Or.inl ⟨rfl, hc, hq⟩
  · exact Or.inr ⟨rfl, hc, y, s₂, hy, ha, rfl⟩

/-- What it has done, whatever it returns. -/
theorem evenFork_inv {c : Pid} {ts : ℕ} {w : ℕ → World} {x : ℤ} (hlt : ∀ r ∈ s.tracked, r < s.next)
    (h : evenFork q c ts w s = .ret (x, t)) :
    (procLook s q = none ∧ canLoad (w 0) q = false ∧ Quiet s t) ∨
    ∃ p s₁, Found q (w 0) s p s₁ ∧ (canLoad (w 1) c = false ∧ Quiet s₁ t ∨
      canLoad (w 1) c = true ∧ ∃ y s₂, IsLoad c ((w 1).files c) y ∧
        Adds s₁ { y with birthTime := splitNs ts } s₂ ∧
        t = (attaChil (some p) (some s₁.next) s₂).2) := by
  rcases evenFork_spec hlt h with ⟨-, hno⟩ | ⟨p, s₁, hfd, ⟨-, hno⟩ | ⟨-, hyes⟩⟩
  · exact Or.inl hno
  · exact Or.inr ⟨p, s₁, hfd, Or.inl hno⟩
  · exact Or.inr ⟨p, s₁, hfd, Or.inr hyes⟩

end Load

/-! ### A refresh of a record -/

section Look
variable {s : State} {r q : Ref} {f : Files}

@[simp] theorem lookRec_tracked : (lookRec r f s).2.tracked = s.tracked := rfl

theorem lookRec_self : (lookRec r f s).2.heap r = (prfsLook (s.heap r) s.strs f).2.1 :=
  Function.update_self ..

theorem lookRec_of_ne (h : q ≠ r) : (lookRec r f s).2.heap q = s.heap q :=
  Function.update_of_ne h ..

theorem lookRec_field {α : Type} (g : Proc → α) (hg : ∀ p m f, g (prfsLook p m f).2.1 = g p)
    (q : Ref) : g ((lookRec r f s).2.heap q) = g (s.heap q) := by
  by_cases h : q = r
  · subst h; rw [lookRec_self, hg]
  · rw [lookRec_of_ne h]

theorem lookRec_pid (q : Ref) : ((lookRec r f s).2.heap q).pid = (s.heap q).pid :=
  lookRec_field Proc.pid prfsLook_pid q

theorem lookRec_links : (lookRec r f s).2.links = s.links := by
  unfold State.links
  congr 1 <;> funext q
  · exact lookRec_field Proc.pare prfsLook_pare q
  · exact lookRec_field Proc.firsChil prfsLook_firsChil q
  · exact lookRec_field Proc.nextSibl prfsLook_nextSibl q

theorem lookRec_alive (h : (s.heap q).alive = true) : ((lookRec r f s).2.heap q).alive = true := by
  by_cases hq : q = r
  · subst hq; rw [lookRec_self, prfsLook_alive, h]; rfl
  · rw [lookRec_of_ne hq, h]

theorem procLook_lookRec (q : Pid) : procLook (lookRec r f s).2 q = procLook s q :=
  procLook_congr rfl fun _ _ => lookRec_pid _

end Look

/-! ### Events -/

/-- The record without the fields that the other events write. -/
def unnamed (p : Proc) : Proc := { p with name := [], ruid := 0, euid := 0, rgid := 0, egid := 0 }

/-- Only names and credentials changed. -/
structure Renamed (s t : State) : Prop where
  same : t = { s with heap := t.heap }
  unnamed : ∀ r, unnamed (t.heap r) = unnamed (s.heap r)

namespace Renamed

variable {s t : State}

theorem refl (s : State) : Renamed s s := ⟨rfl, fun _ => rfl⟩

theorem buckets (h : Renamed s t) : t.buckets = s.buckets := by rw [h.same]

theorem next (h : Renamed s t) : t.next = s.next := by rw [h.same]

theorem tracked (h : Renamed s t) : t.tracked = s.tracked := by
  unfold State.tracked; rw [h.buckets]

theorem field {α : Type} (h : Renamed s t) (g : Proc → α) (hg : ∀ p, g (Steps.unnamed p) = g p)
    (r : Ref) : g (t.heap r) = g (s.heap r) := by
  rw [← hg, h.unnamed, hg]

theorem pid (h : Renamed s t) (r : Ref) : (t.heap r).pid = (s.heap r).pid :=
  h.field Proc.pid (fun _ => rfl) r

theorem alive (h : Renamed s t) (r : Ref) : (t.heap r).alive = (s.heap r).alive :=
  h.field Proc.alive (fun _ => rfl) r

theorem pare (h : Renamed s t) (r : Ref) : (t.heap r).pare = (s.heap r).pare :=
  h.field Proc.pare (fun _ => rfl) r

theorem links (h : Renamed s t) : t.links = s.links := by
  unfold State.links
  congr 1 <;> funext r
  · exact h.pare r
  · exact h.field Proc.firsChil (fun _ => rfl) r
  · exact h.field Proc.nextSibl (fun _ => rfl) r

end Renamed

theorem evenWrite_renamed {s : State} {q : Pid} {f : Proc → Proc}
    (hf : ∀ y, unnamed (f y) = unnamed y) : Renamed s (evenWrite q f s).2 := by
  unfold evenWrite
  rcases procLook s q with _ | r
  · exact Renamed.refl s
  · refine ⟨rfl, fun y => ?_⟩
    by_cases hy : y = r
    · subst hy; simp [hf]
    · simp [hy]

/-- The events that neither fork, nor exec, nor exit. -/
def isWrite : EventData → Bool
  | .fork .. | .exec .. | .exit .. => false
  | _ => true

section Handle
variable {s t : State} {fuel ts : ℕ} {data : EventData} {w : ℕ → World} {x : ℤ}

theorem handle_renamed (h : handle fuel ⟨ts, data⟩ w s = .ret (x, t)) (hd : isWrite data = true) :
    Renamed s t := by
  have key : ∀ {q : Pid} {f : Proc → Proc}, evenWrite q f s = (x, t) →
      (∀ y, unnamed (f y) = unnamed y) → Renamed s t := by
    intro q f he hf
    have := evenWrite_renamed (s := s) (q := q) hf
    rwa [he] at this
  cases data with
  | fork | exec | exit => cases hd
  | comm q c => exact key (Outcome.ret.inj h) fun _ => rfl
  | uid q a b => exact key (Outcome.ret.inj h) fun _ => rfl
  | gid q a b => exact key (Outcome.ret.inj h) fun _ => rfl
  | other => cases h; exact Renamed.refl s

theorem handle_exec {q g : Pid} (h : handle fuel ⟨ts, .exec q g⟩ w s = .ret (x, t)) :
    (procLook s q = none ∧ t = s) ∨
      ∃ r, procLook s q = some r ∧ t = (lookRec r ((w 0).files q) s).2 := by
  have he : evenExec q w s = (x, t) := Outcome.ret.inj h
  unfold evenExec at he
  rcases hl : procLook s q with _ | r <;> rw [hl] at he <;> cases he
  · exact Or.inl ⟨rfl, rfl⟩
  · exact Or.inr ⟨r, rfl, by rw [(procLook_some hl).2]⟩

theorem handle_of_step {i : Input} (h : Step s i t) :
    ∃ fuel x, handle fuel i.even i.world s = .ret (x, t) := by
  obtain ⟨fuel, hr⟩ := h
  unfold readEven at hr
  rcases ho : handle fuel i.even i.world s with ⟨x, u⟩ | _ | _ <;> rw [ho] at hr <;> cases hr
  exact ⟨fuel, x, ho⟩

theorem step_of_handle {even : ProcEvent} (h : handle fuel even w s = .ret (x, t)) :
    Step s ⟨even, w⟩ t :=
  ⟨fuel, by rw [readEven, h]; rfl⟩

end Handle

end Serie.Model.Steps
