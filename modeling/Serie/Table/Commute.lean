import Serie.Lib.Footprint
import Serie.Table.Entries

/-! # Events about different processes

What the handlers of fork, exec, comm, uid and gid do to the book is a program that reads and writes
only at the pids that the event names (`bookHandle`, `local_bookHandle`), and the handlers do just
that (`handle_book`). So two such events that name different pids lead to the same book in either
order, and their handlers return the same (`handle_comm`). -/

namespace Serie.Table.Commute

open Serie.Lib.Footprint Serie.Lib.Trace Serie.Lib.Chain Serie.Model.Record Serie.Model.Prfs
open Serie.Model.Refresh Serie.Model.Table Serie.Model.Conn Serie.Model.Steps Serie.Model.Runs
open Serie.Tree.Invariant Serie.Tree.Children Serie.Records.Plain Serie.Table.Entries

/-! ### The handlers on the book -/

/-- The fields of a record that `proc_load` makes. -/
def loadFields (q : Pid) (f : Files) : Proc :=
  plain { (prfsLook { Proc.zero with pid := q } ⟨0, [], []⟩ f).2.1 with birthPpid := -1 }

/-- The entry found for the pid, or a new one. -/
def findEntry (w : World) (q : Pid) : StateM Book (Option Entry) := do
  match ← fetch q with
  | e :: _ => pure (some e)
  | [] =>
    if canLoad w q then
      let e : Entry := ⟨loadFields q (w.files q), none, none, none⟩
      store q [e]
      pure (some e)
    else pure none

/-- A new entry for `c`, below the entry `e`, the first one of `p`. -/
def addChild (p : Pid) (e : Entry) (c : Pid) (fields : Proc) : StateM Book Unit := do
  let ps ← fetch p
  let cs ← fetch c
  store p ({ e with firsChil := some (c, cs.length + 1) } :: ps.tail)
  let cs' ← fetch c
  store c (⟨fields, some (p, ps.length), none, e.firsChil⟩ :: cs')

/-- `even_fork`. -/
def bookFork (w : World) (p c : Pid) (ts : ℕ) : StateM Book ℤ := do
  match ← findEntry w p with
  | none => pure (-1)
  | some e =>
    if canLoad w c then
      addChild p e c { loadFields c (w.files c) with birthTime := splitNs ts }
      pure 0
    else pure (-1)

/-- A write to the first entry of the pid. -/
def bookWrite (q : Pid) (g : Proc → Proc) : StateM Book ℤ := do
  match ← fetch q with
  | [] => pure (-1)
  | e :: l =>
    store q ({ e with fields := g e.fields } :: l)
    pure 0

/-- The handlers but `even_exit`. -/
def bookHandle (w : World) (even : ProcEvent) : StateM Book ℤ :=
  match even.data with
  | .fork p c => bookFork w p c even.timestampNs
  | .exec q _ => bookWrite q fun x => plain (prfsLook x ⟨0, [], []⟩ (w.files q)).2.1
  | .comm q comm => bookWrite q fun x => { x with name := comm.bytes }
  | .uid q ruid euid => bookWrite q fun x => { x with ruid := ruid, euid := euid }
  | .gid q rgid egid => bookWrite q fun x => { x with rgid := rgid, egid := egid }
  | .exit .. | .other _ => pure 0

/-- The pids that an event names; the thread group of an exec is only printed. -/
def pids : EventData → Set Pid
  | .fork p c => {p, c}
  | .exec q _ | .exit q _ | .comm q _ | .uid q _ _ | .gid q _ _ => {q}
  | .other _ => ∅

section Local
variable {A : Set Pid} {w : World} {p c q : Pid}

theorem local_findEntry (hq : q ∈ A) : Local A (findEntry w q) := by
  refine (Local.fetch hq).bind fun es => ?_
  rcases es with _ | ⟨e, l⟩
  · dsimp only
    split_ifs
    · exact (Local.store hq _).bind fun _ => Local.pure _
    · exact Local.pure _
  · exact Local.pure _

theorem local_addChild (hp : p ∈ A) (hc : c ∈ A) (e : Entry) (fields : Proc) :
    Local A (addChild p e c fields) :=
  (Local.fetch hp).bind fun _ => (Local.fetch hc).bind fun _ => (Local.store hp _).bind fun _ =>
    (Local.fetch hc).bind fun _ => Local.store hc _

theorem local_bookFork (hp : p ∈ A) (hc : c ∈ A) (ts : ℕ) : Local A (bookFork w p c ts) := by
  refine (local_findEntry hp).bind fun o => ?_
  rcases o with _ | e
  · exact Local.pure _
  · dsimp only
    split_ifs
    · exact (local_addChild hp hc _ _).bind fun _ => Local.pure _
    · exact Local.pure _

theorem local_bookWrite (hq : q ∈ A) (g : Proc → Proc) : Local A (bookWrite q g) := by
  refine (Local.fetch hq).bind fun es => ?_
  rcases es with _ | ⟨e, l⟩
  · exact Local.pure _
  · exact (Local.store hq _).bind fun _ => Local.pure _

/-- **A handler is local to the pids of its event.** -/
theorem local_bookHandle (w : World) (even : ProcEvent) :
    Local (pids even.data) (bookHandle w even) := by
  obtain ⟨ts, data⟩ := even
  cases data with
  | fork p c => exact local_bookFork (by simp [pids]) (by simp [pids]) ts
  | exit q code => exact Local.pure _
  | other n => exact Local.pure _
  | exec q | comm q | uid q | gid q =>
    dsimp only [pids, bookHandle]
    exact local_bookWrite (Set.mem_singleton q) _

end Local

/-! ### The handlers do what the book says -/

section Refine
variable {s t : State} {w : World} {q c : Pid} {x : ℤ}

theorem book_of_none (h : procLook s q = none) : book s q = [] := by
  rw [procLook_eq_head?, List.head?_eq_none_iff] at h
  rw [book, h]
  rfl

theorem book_of_some {r : Ref} (h : procLook s q = some r) :
    book s q = entry s r :: (book s q).tail := by
  rw [procLook_eq_head?] at h
  obtain ⟨l, hl⟩ := List.head?_eq_some_iff.mp h
  rw [book, hl]
  rfl

theorem procLoad_fields {f : Files} {calloc : Bool} {r : Ref}
    (h : procLoad q f calloc s = (some r, t)) : plain (t.heap r) = loadFields q f := by
  unfold procLoad at h
  dsimp only at h
  split_ifs at h <;> cases h
  change plain (Function.update s.heap s.next _ s.next) = _
  rw [Function.update_self]
  have hp := prfsLook_plain (f := f) (p := { Proc.zero with pid := q })
    (q := { Proc.zero with pid := q }) rfl s.strs ⟨0, [], []⟩
  have hb := congrArg (fun y : Proc => { y with birthPpid := -1 }) hp
  exact hb

theorem procInse_heap (r : Ref) (calloc : Bool) : (procInse r calloc s).2.heap = s.heap := by
  unfold procInse
  split_ifs <;> rfl

theorem findPare_fields {r : Ref} (hn : procLook s q = none)
    (hf : findPare q w s = (some r, t)) : plain (t.heap r) = loadFields q (w.files q) := by
  unfold findPare at hf
  rw [hn] at hf
  rcases hp : procLoad q (w.files q) w.procCalloc s with ⟨_ | r', s₁⟩ <;> rw [hp] at hf <;>
    dsimp only at hf
  · cases hf
  · split_ifs at hf
    · cases hf
    · cases hf
      rw [procInse_heap]
      exact procLoad_fields hp

theorem findPare_book (h : Sound s) {o : Option Ref} (hf : findPare q w s = (o, t)) :
    (findEntry w q).run (book s) = (o.map (entry t), book t) := by
  rw [findEntry, run_then, run_fetch]
  rcases findPare_cases hf with ⟨hn, hc, rfl, hq⟩ | ⟨p, rfl, hfd⟩
  · rw [book_quiet h hq, book_of_none hn]
    simp only [hc]
    rfl
  cases hfd with
  | old hl =>
    rw [book_of_some hl]
    rfl
  | @new y _ hn hc hx ha =>
    have hfields := findPare_fields hn hf
    have hnew : t.heap s.next = y := by rw [ha.heap, Function.update_self]
    rw [hnew] at hfields
    have hentry : entry t s.next = ⟨loadFields q (w.files q), none, none, none⟩ := by
      simp [entry, hnew, hx.pare, hx.firsChil, hx.nextSibl, hfields]
    have hb := book_adds h ha hx.pare hx.firsChil hx.nextSibl
    rw [hx.pid, book_of_none hn, hfields] at hb
    rw [book_of_none hn, hb, Option.map_some, hentry]
    simp only [hc, if_true]
    rfl

theorem forkChil_fields {r : Ref} {ts : ℕ} (hf : forkChil r c ts w s = .ret (0, t)) :
    plain (t.heap s.next) = { loadFields c (w.files c) with birthTime := splitNs ts } := by
  unfold forkChil at hf
  rcases hp : procLoad c (w.files c) w.procCalloc s with ⟨_ | r', s₁⟩ <;> rw [hp] at hf <;>
    dsimp only at hf
  · cases hf
  have hr : r' = s.next := by
    rcases procLoad_cases hp with ⟨-, hno, -⟩ | ⟨x, -, he, -⟩
    · cases hno
    · exact Option.some.inj he
  split_ifs at hf
  · cases hf
  · rename_i h₁ h₂
    rcases hd : detaChil (some r) (some r') _ with z | _ | _ <;> rw [hd] at hf <;> cases hf
  · cases hf
    rw [procInse_heap, ← hr, plain_of_bare ((attaChil_relinked _ _).bare r'), upd_heap,
      Function.update_self]
    have hl := congrArg (fun y : Proc => { y with birthTime := splitNs ts }) (procLoad_fields hp)
    exact hl

/-- **`even_fork` does what the book says.** -/
theorem evenFork_book (h : Sound s) {p : Pid} {ts : ℕ}
    (he : evenFork p c ts (fun _ => w) s = .ret (x, t)) :
    (bookFork w p c ts).run (book s) = (x, book t) := by
  unfold evenFork at he
  rcases hfp : findPare p w s with ⟨o, s₁⟩
  rw [hfp] at he
  rw [bookFork, run_then, findPare_book h hfp]
  rcases findPare_cases hfp with ⟨-, -, rfl, -⟩ | ⟨r, rfl, hfd⟩
  · cases he
    rfl
  have h₁ : Sound s₁ := (h.found hfd).1
  have hl : procLook s₁ p = some r := hfd.procLook h.lt_next
  dsimp only at he
  rcases forkChil_cases (q := c) (h₁.lt_next r (h.found hfd).2.1) ts w with
    ⟨hc, u, hu, hq⟩ | ⟨hc, y, s₂, hy, ha, hu⟩
  · rw [hu] at he
    cases he
    rw [book_quiet h₁ hq]
    simp only [Option.map_some, hc]
    rfl
  · rw [hu] at he
    cases he
    have hnew : s₂.heap s₁.next = { y with birthTime := splitNs ts } := by
      rw [ha.heap, Function.update_self]
    have hfields := forkChil_fields hu
    rw [plain_of_bare ((attaChil_relinked _ _).bare _), hnew] at hfields
    have hb := book_attach h₁ hl ha hy.firsChil rfl
    dsimp only at hb
    rw [hfields, hy.pid] at hb
    rw [hb]
    simp only [Option.map_some, hc, if_true]
    rfl

theorem bookWrite_run (h : Sound s) {r : Ref} (g : Proc → Proc) (hl : procLook s q = some r)
    (hb : t.buckets = s.buckets) (hp : ∀ y, (t.heap y).pid = (s.heap y).pid)
    (hlinks : t.links = s.links) (hother : ∀ y, y ≠ r → t.heap y = s.heap y)
    (hg : plain (t.heap r) = g (plain (s.heap r))) :
    (bookWrite q g).run (book s) = (0, book t) := by
  rw [book_write h hl hb hp hlinks hother, hg, bookWrite, run_then, run_fetch, book_of_some hl]
  rfl

theorem evenWrite_book (h : Sound s) {g : Proc → Proc} (he : evenWrite q g s = (x, t))
    (hb : ∀ y, unnamed (g y) = unnamed y) (hg : ∀ y, plain (g y) = g (plain y)) :
    (bookWrite q g).run (book s) = (x, book t) := by
  have hr : Renamed s t := by
    have := evenWrite_renamed (s := s) (q := q) hb
    rwa [he] at this
  unfold evenWrite at he
  rcases hl : procLook s q with _ | r <;> rw [hl] at he <;> cases he
  · rw [bookWrite, run_then, run_fetch, book_of_none hl]
    rfl
  · refine bookWrite_run h g hl rfl hr.pid hr.links (fun y hy => ?_) ?_
    · rw [upd_heap, Function.update_of_ne hy]
    · rw [upd_heap, Function.update_self, hg]

theorem evenExec_book (h : Sound s) (he : evenExec q (fun _ => w) s = (x, t)) :
    (bookWrite q fun y => plain (prfsLook y ⟨0, [], []⟩ (w.files q)).2.1).run (book s) =
      (x, book t) := by
  unfold evenExec at he
  rcases hl : procLook s q with _ | r <;> rw [hl] at he <;> cases he
  · rw [bookWrite, run_then, run_fetch, book_of_none hl]
    rfl
  · rw [(procLook_some hl).2]
    refine bookWrite_run h _ hl rfl (fun y => lookRec_pid y) lookRec_links
      (fun y hy => lookRec_of_ne hy) ?_
    rw [lookRec_self]
    exact prfsLook_plain (plain_plain _).symm _ _

/-- **The handlers do what the book says.** -/
theorem handle_book (h : Sound s) {fuel : ℕ} {even : ProcEvent}
    (hx : ∀ q code, even.data ≠ .exit q code)
    (he : handle fuel even (fun _ => w) s = .ret (x, t)) :
    (bookHandle w even).run (book s) = (x, book t) := by
  obtain ⟨ts, data⟩ := even
  cases data with
  | fork p c => exact evenFork_book h he
  | exec q g => exact evenExec_book h (Outcome.ret.inj he)
  | exit q code => exact absurd rfl (hx q code)
  | comm q comm => exact evenWrite_book h (Outcome.ret.inj he) (fun _ => rfl) fun _ => rfl
  | uid q a b => exact evenWrite_book h (Outcome.ret.inj he) (fun _ => rfl) fun _ => rfl
  | gid q a b => exact evenWrite_book h (Outcome.ret.inj he) (fun _ => rfl) fun _ => rfl
  | other n => cases he; rfl

end Refine

/-! ### Either order -/

/-- **The states say the same**: for every pid the same is found, and record by record, from the
newest to the oldest, the entries are the same and the children have the same pids in the same
order. -/
structure Alike (s t : State) : Prop where
  found : ∀ q, (procLook s q).map (entry s) = (procLook t q).map (entry t)
  records : ∀ q, List.Forall₂ (fun r r' => entry s r = entry t r' ∧ ∀ l l', Kids s r l →
    Kids t r' l' → l.map (fun c => (s.heap c).pid) = l'.map (fun c => (t.heap c).pid))
    (chain s q) (chain t q)

theorem alike_of_book {s t : State} (hs : Sound s) (ht : Sound t) (hb : book s = book t) :
    Alike s t where
  found q := by
    have hq := congrArg List.head? (congrFun hb q)
    simpa only [book, List.head?_map, ← procLook_eq_head?] using hq
  records q := by
    have hall : List.Forall₂ (fun r r' => entry s r = entry t r') (chain s q) (chain t q) := by
      have hq : List.Forall₂ Eq ((chain s q).map (entry s)) ((chain t q).map (entry t)) := by
        rw [List.forall₂_eq_eq_eq]
        exact congrFun hb q
      rwa [List.forall₂_map_left_iff, List.forall₂_map_right_iff] at hq
    obtain ⟨hlen, hzip⟩ := List.forall₂_iff_zip.mp hall
    refine List.forall₂_iff_zip.mpr ⟨hlen, fun {r r'} hrr => ⟨hzip hrr, fun l l' hk hk' => ?_⟩⟩
    obtain ⟨hr, hr'⟩ := List.of_mem_zip hrr
    have hn := names_of_kids hs ht hb (mem_chain hr).1 (mem_chain hr').1 (hzip hrr) hk hk'
    have hpids := congrArg (List.map Prod.fst) hn
    simpa only [List.map_map, Function.comp_def, name] using hpids

theorem handle_returns {s : State} (h : Sound s) (fuel : ℕ) {even : ProcEvent} (w : ℕ → World)
    (hx : ∀ q code, even.data ≠ .exit q code) : ∃ x t, handle fuel even w s = .ret (x, t) := by
  obtain ⟨ts, data⟩ := even
  cases data with
  | fork p c =>
    obtain ⟨y, hy⟩ := h.evenFork_returns p c ts w
    exact ⟨y.1, y.2, hy⟩
  | exit q code => exact absurd rfl (hx q code)
  | exec | comm | uid | gid | other => exact ⟨_, _, rfl⟩

/-- **Events about different processes commute**: in every state that a run reaches and with answers
that stay the same, two events other than exits that name different pids are handled in either order
with the same results, and the states say the same. -/
theorem handle_comm {tr : List (Input × State)} (hr : Steps Step init tr) (fuel : ℕ) (w : World)
    {e₁ e₂ : ProcEvent} (hx₁ : ∀ q code, e₁.data ≠ .exit q code)
    (hx₂ : ∀ q code, e₂.data ≠ .exit q code) (hd : ∀ q ∈ pids e₁.data, q ∉ pids e₂.data) :
    ∃ x₁ x₂ s₁ s₂ t t', handle fuel e₁ (fun _ => w) (final init tr) = .ret (x₁, s₁) ∧
      handle fuel e₂ (fun _ => w) s₁ = .ret (x₂, t) ∧
      handle fuel e₂ (fun _ => w) (final init tr) = .ret (x₂, s₂) ∧
      handle fuel e₁ (fun _ => w) s₂ = .ret (x₁, t') ∧ Alike t t' := by
  have h := sound_final hr
  -- the four calls
  obtain ⟨x₁, s₁, he₁⟩ := handle_returns h fuel (fun _ => w) hx₁
  obtain ⟨x₂, s₂, he₂⟩ := handle_returns h fuel (fun _ => w) hx₂
  have hs₁ : Sound s₁ := h.step (step_of_handle he₁)
  have hs₂ : Sound s₂ := h.step (step_of_handle he₂)
  obtain ⟨y₂, t, he₁₂⟩ := handle_returns hs₁ fuel (fun _ => w) hx₂
  obtain ⟨y₁, t', he₂₁⟩ := handle_returns hs₂ fuel (fun _ => w) hx₁
  -- on the book they are programs with disjoint footprints
  have hb₁ := handle_book h hx₁ he₁
  have hb₂ := handle_book h hx₂ he₂
  have hb₁₂ := handle_book hs₁ hx₂ he₁₂
  have hb₂₁ := handle_book hs₂ hx₁ he₂₁
  obtain ⟨hr₁, hr₂, hb⟩ := (local_bookHandle w e₁).comm (local_bookHandle w e₂) hd
    (book (final init tr))
  simp only [hb₁, hb₂, hb₁₂, hb₂₁] at hr₁ hr₂ hb
  refine ⟨x₁, x₂, s₁, s₂, t, t', he₁, hr₂ ▸ he₁₂, he₂, hr₁ ▸ he₂₁, ?_⟩
  exact alike_of_book (hs₁.step (step_of_handle he₁₂)) (hs₂.step (step_of_handle he₂₁)) hb

/-- An exec of process `3` and a fork of process `1`. -/
theorem handle_comm_adopted :
    let s := final init ((trace 2 init adopted).take 2)
    let w := answers [(3, ['1']), (4, ['1'])] 0
    (∀ q ∈ pids (.exec 3 3), q ∉ pids (.fork 1 4)) ∧
      ∃ x₁ x₂ s₁ s₂ t t', handle 0 ⟨3, .exec 3 3⟩ (fun _ => w) s = .ret (x₁, s₁) ∧
        handle 0 ⟨4, .fork 1 4⟩ (fun _ => w) s₁ = .ret (x₂, t) ∧
        handle 0 ⟨4, .fork 1 4⟩ (fun _ => w) s = .ret (x₂, s₂) ∧
        handle 0 ⟨3, .exec 3 3⟩ (fun _ => w) s₂ = .ret (x₁, t') ∧ Alike t t' := by
  have hr : Steps Step init ((trace 2 init adopted).take 2) := adopted_steps.take 2
  have hd : ∀ q ∈ pids (.exec 3 3), q ∉ pids (.fork 1 4) := by
    simp [pids]
  exact ⟨hd, handle_comm hr 0 _ (by simp) (by simp) hd⟩

end Serie.Table.Commute
