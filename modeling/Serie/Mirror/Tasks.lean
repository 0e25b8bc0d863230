import Serie.Model.Runs
import Serie.Records.StatText
import Serie.Records.StatusText

/-! # The kernel with the data of its processes

For every pid the kernel knows the processes that had it (`Task`), the newest first: their names and
ids, when they were forked and how they ended. `Action` is what the kernel does to them. In a joint
step (`Sync`) the kernel acts and the program handles the event; `/proc` holds the texts that the
kernel renders (`Renders`).

A name has no newline: the stat line of a process with such a name cannot be read. -/

namespace Serie.Mirror.Tasks

open Serie.Lib.CText Serie.Lib.Decimal Serie.Lib.Lines Serie.Lib.Trace Serie.Model.Record
open Serie.Model.Prfs Serie.Model.Refresh Serie.Model.Table Serie.Model.Conn Serie.Model.Runs
open Serie.Records.StatText Serie.Records.StatusText

/-! ### Processes -/

/-- A name without a newline. -/
structure Name extends Comm where
  no_newline : ch '\n' ∉ bytes

/-- Four ids of 32 bits. -/
abbrev FitIds := {i : Ids // i.Fit}

/-- A process: `born` is the time of its fork, unless it ran before the program, and `ended` the
code and the time of its exit. -/
structure Task where
  parent : Pid
  name : Name
  uids : FitIds
  gids : FitIds
  born : Option ℕ
  ended : Option (ℕ × ℕ)

/-- The processes that had each pid, newest first. -/
abbrev Kernel := Pid → List Task

/-- The process `t` runs with the pid `q`. -/
def Kernel.Now (k : Kernel) (q : Pid) (t : Task) : Prop := ∃ l, k q = t :: l ∧ t.ended = none

/-- What the kernel does with single-threaded processes. An exit hands every child `c` of the
process to `adopter c`. -/
inductive Action where
  | fork (p c : Pid)
  | exec (p : Pid) (name : Name) (uids gids : FitIds)
  | exit (p : Pid) (exitCode : ℕ) (adopter : Pid → Pid)
  | comm (p : Pid) (name : Name)
  | uid (p : Pid) (uids : FitIds)
  | gid (p : Pid) (gids : FitIds)

/-- The process that acts. -/
def Action.pid : Action → Pid
  | .fork p _ | .exec p _ _ _ | .exit p _ _ | .comm p _ | .uid p _ | .gid p _ => p

/-- The action is possible. -/
def Kernel.Enabled (k : Kernel) (a : Action) : Prop :=
  (∃ t, k.Now a.pid t) ∧
    match a with
    | .fork _ c => ∀ t, ¬ k.Now c t
    | .exit p _ adopter => ∀ c t, k.Now c t → t.parent = p →
        adopter c ≠ p ∧ ∃ u, k.Now (adopter c) u
    | _ => True

/-- A write to the newest process with the pid `p`. -/
def Kernel.write (k : Kernel) (p : Pid) (f : Task → Task) : Kernel :=
  Function.update k p ((k p).modifyHead f)

/-- The child of a fork: a copy of its parent. -/
def Task.child (t : Task) (p : Pid) (ts : ℕ) : Task :=
  { t with parent := p, born := some ts, ended := none }

/-- The child `q` of `p` is handed over. -/
def Task.handOver (p : Pid) (adopter : Pid → Pid) (q : Pid) (t : Task) : Task :=
  if t.parent = p then { t with parent := adopter q } else t

/-- The processes after the action, which happens at the time `ts`. -/
def Kernel.act (k : Kernel) (ts : ℕ) : Action → Kernel
  | .fork p c => Function.update k c (((k p).take 1).map (·.child p ts) ++ k c)
  | .exec p name uids gids =>
    k.write p fun t => { t with name := name, uids := uids, gids := gids }
  | .exit p exitCode adopter => fun q =>
    if q = p then (k q).modifyHead fun t => { t with ended := some (exitCode, ts) }
    else (k q).modifyHead (Task.handOver p adopter q)
  | .comm p name => k.write p fun t => { t with name := name }
  | .uid p uids => k.write p fun t => { t with uids := uids }
  | .gid p gids => k.write p fun t => { t with gids := gids }

/-- Only processes that ran before the program. -/
def Begins (k : Kernel) : Prop :=
  ∀ q, k q = [] ∨ ∃ t, k q = [t] ∧ t.born = none ∧ t.ended = none

/-! ### The texts of `/proc` -/

/-- What `/proc` holds for the process `t` with the pid `q`; everything can be read. -/
structure Renders (q : Pid) (t : Task) (f : Files) : Prop where
  readable : readable f = true
  stat : ∃ state ppid fields eol, isLetter state = true ∧ ppid < 2 ^ 31 ∧ t.parent = (ppid : ℕ) ∧
    Ends eol ∧ f.stat = some (statText q t.name.bytes state ppid fields eol)
  status : ∃ tgid fdSize lines rest, q = (tgid : ℕ) ∧ tgid < 2 ^ 31 ∧ fdSize < 2 ^ 31 ∧
    Written tgid t.uids t.gids lines ∧ Ends rest ∧
    f.status = some (unlines (ch '\n') lines ++ (fdSizeLine fdSize ++ rest))

/-- No allocation fails, and `/proc` holds the texts of the processes that run. -/
def Reports (k : Kernel) (w : ℕ → World) : Prop :=
  ∀ n, (w n).procCalloc = true ∧ (w n).nodeCalloc = true ∧
    ∀ q t, k.Now q t → Renders q t ((w n).files q)

/-! ### Joint steps -/

/-- The event of an action. -/
def Action.data : Action → EventData
  | .fork p c => .fork p c
  | .exec p _ _ _ => .exec p p
  | .exit p exitCode _ => .exit p exitCode
  | .comm p name => .comm p name.toComm
  | .uid p uids => .uid p uids.1.real uids.1.effective
  | .gid p gids => .gid p gids.1.real gids.1.effective

/-- An action, the time of its event, and the answers while the event is handled. -/
structure Move where
  act : Action
  timestampNs : ℕ
  world : ℕ → World

/-- The event of a move. -/
def Move.input (m : Move) : Input := ⟨⟨m.timestampNs, m.act.data⟩, m.world⟩

/-- **A joint step**: the kernel acts, then the program handles the event. -/
def Sync (x : Kernel × State) (m : Move) (y : Kernel × State) : Prop :=
  x.1.Enabled m.act ∧ y.1 = x.1.act m.timestampNs m.act ∧ Reports y.1 m.world ∧
    Step x.2 m.input y.2

/-! ### Lives -/

/-- What a record shows of the life of a process. -/
structure Life where
  name : List Byte
  tgid : Pid
  ruid : ℕ
  euid : ℕ
  rgid : ℕ
  egid : ℕ
  birthTime : Timespec
  alive : Bool
  exitCode : ℤ
  deathTime : Timespec
deriving DecidableEq, Repr

/-- The life that a record shows. -/
def lifeOf (p : Proc) : Life :=
  ⟨p.name, p.tgid, p.ruid, p.euid, p.rgid, p.egid, p.birthTime, p.alive, p.exitCode, p.deathTime⟩

/-- The life of a process with the pid `q`, as far as the program can see it. -/
def Task.life (q : Pid) (t : Task) : Life where
  name := t.name.bytes
  tgid := q
  ruid := t.uids.1.real
  euid := t.uids.1.effective
  rgid := t.gids.1.real
  egid := t.gids.1.effective
  birthTime := t.born.elim ⟨0, 0⟩ splitNs
  alive := t.ended.isNone
  exitCode := t.ended.elim 0 fun e => toInt32 e.1
  deathTime := t.ended.elim ⟨0, 0⟩ fun e => splitNs e.2

/-! ### Lists of processes -/

/-- All but the oldest process were forked, and all but the newest have ended. -/
def Kernel.Ordered (k : Kernel) : Prop :=
  ∀ q, (k q).Pairwise fun t u => t.born.isSome = true ∧ u.ended.isSome = true

/-- The processes that were forked while the program ran, and perhaps the one before them. -/
def Kept (l m : List Task) : Prop := m = l ∨ m = l.filter (·.born.isSome)

section Lists
variable {k : Kernel} {l m : List Task} {t : Task} {f : Task → Task}

theorem pairwise_modifyHead (hf : ∀ t, (f t).born = t.born)
    (h : l.Pairwise fun t u => t.born.isSome = true ∧ u.ended.isSome = true) :
    (l.modifyHead f).Pairwise fun t u => t.born.isSome = true ∧ u.ended.isSome = true := by
  rcases l with _ | ⟨t, l⟩
  · exact h
  · rw [List.modifyHead_cons]
    rw [List.pairwise_cons] at h ⊢
    exact ⟨fun u hu => by rw [hf]; exact h.1 u hu, h.2⟩

theorem ordered_of_begins (h : Begins k) : k.Ordered := by
  intro q
  rcases h q with hq | ⟨t, hq, -, -⟩
  · rw [hq]
    exact List.Pairwise.nil
  · rw [hq]
    exact List.pairwise_singleton ..

theorem Kernel.Ordered.write (h : k.Ordered) {p : Pid} (hf : ∀ t, (f t).born = t.born) :
    (k.write p f).Ordered := by
  intro q
  unfold Kernel.write
  rw [Function.update_apply]
  split_ifs with hq
  · rw [hq] at *
    exact pairwise_modifyHead hf (h p)
  · exact h q

theorem handOver_born {p : Pid} {adopter : Pid → Pid} {q : Pid} (t : Task) :
    (Task.handOver p adopter q t).born = t.born := by
  unfold Task.handOver
  split_ifs <;> rfl

theorem handOver_life {p : Pid} {adopter : Pid → Pid} {q : Pid} (b : Pid) (t : Task) :
    (Task.handOver p adopter q t).life b = t.life b := by
  unfold Task.handOver
  split_ifs <;> rfl

theorem handOver_ended {p : Pid} {adopter : Pid → Pid} {q : Pid} (t : Task) :
    (Task.handOver p adopter q t).ended = t.ended := by
  unfold Task.handOver
  split_ifs <;> rfl

theorem fork_self {p c : Pid} {ts : ℕ} (h : k.Now p t) :
    k.act ts (.fork p c) c = t.child p ts :: k c := by
  obtain ⟨l, hl, -⟩ := h
  simp [Kernel.act, hl]

theorem fork_of_ne {p c q : Pid} {ts : ℕ} (hq : q ≠ c) : k.act ts (.fork p c) q = k q :=
  Function.update_of_ne hq ..

theorem exit_self {p : Pid} {code ts : ℕ} {adopter : Pid → Pid} :
    k.act ts (.exit p code adopter) p =
      (k p).modifyHead fun t => { t with ended := some (code, ts) } :=
  if_pos rfl

theorem exit_of_ne {p q : Pid} {code ts : ℕ} {adopter : Pid → Pid} (hq : q ≠ p) :
    k.act ts (.exit p code adopter) q = (k q).modifyHead (Task.handOver p adopter q) :=
  if_neg hq

theorem Kernel.Ordered.ended (h : k.Ordered) {c : Pid} (hc : ∀ t, ¬ k.Now c t) {u : Task}
    (hu : u ∈ k c) : u.ended.isSome = true := by
  rcases hk : k c with _ | ⟨v, m⟩
  · rw [hk] at hu
    cases hu
  have hv : v.ended ≠ none := fun hv => hc v ⟨m, hk, hv⟩
  have hp := h c
  rw [hk, List.pairwise_cons] at hp
  rw [hk] at hu
  rcases List.mem_cons.mp hu with rfl | hu
  · exact Option.isSome_iff_ne_none.mpr hv
  · exact (hp.1 u hu).2

theorem Kernel.Ordered.act (h : k.Ordered) {a : Action} (hen : k.Enabled a) (ts : ℕ) :
    (k.act ts a).Ordered := by
  cases a with
  | fork p c =>
    intro q
    obtain ⟨⟨t, (ht : k.Now p t)⟩, (hc : ∀ t, ¬ k.Now c t)⟩ := hen
    by_cases hq : q = c
    · rw [hq, fork_self ht]
      exact List.pairwise_cons.mpr ⟨fun u hu => ⟨rfl, h.ended hc hu⟩, h c⟩
    · rw [fork_of_ne hq]
      exact h q
  | exit p code adopter =>
    intro q
    by_cases hq : q = p
    · rw [hq, exit_self]
      exact pairwise_modifyHead (fun _ => rfl) (h p)
    · rw [exit_of_ne hq]
      exact pairwise_modifyHead handOver_born (h q)
  | exec | comm | uid | gid => exact h.write fun _ => rfl

theorem Kept.cases (h : Kept (t :: l) m)
    (hp : (t :: l).Pairwise fun t u => t.born.isSome = true ∧ u.ended.isSome = true) :
    (m = [] ∧ l = [] ∧ t.born = none) ∨
      ∃ m', m = t :: m' ∧ m' ⊆ l ∧ ∀ u : Task, u.born = t.born → Kept (u :: l) (u :: m') := by
  rcases h with rfl | rfl
  · exact Or.inr ⟨l, rfl, fun _ hv => hv, fun u _ => Or.inl rfl⟩
  rcases hb : t.born with _ | b
  · -- only the oldest process may have run before the program
    rcases l with _ | ⟨u, l⟩
    · left
      simp [hb]
    · have := ((List.pairwise_cons.mp hp).1 u List.mem_cons_self).1
      rw [hb] at this
      cases this
  · right
    refine ⟨l.filter (·.born.isSome), by simp [hb], List.filter_subset_self _,
      fun u hu => Or.inr ?_⟩
    rw [List.filter_cons_of_pos (by rw [hu]; rfl)]

theorem Kept.subset (h : Kept l m) : m ⊆ l := by
  rcases h with rfl | rfl
  · exact fun _ hv => hv
  · exact List.filter_subset_self _

theorem Kernel.Ordered.tail_ended (h : k.Ordered) {q : Pid} (hq : k q = t :: l) {u : Task}
    (hu : u ∈ l) : u.ended.isSome = true := by
  have hp := h q
  rw [hq, List.pairwise_cons] at hp
  exact (hp.1 u hu).2

end Lists

end Serie.Mirror.Tasks
