import Serie.Model.Refresh
import Serie.Model.Runs

/-! # The kernel

The processes of the kernel and their parents (`Kernel`), what the kernel does (`Action`), and the
joint steps of the kernel and the program when every event is handled before the next action, no
read and no allocation fails, and `/proc` reports the state of the kernel (`Sync`). The program is
to mirror the kernel: `Mirrors`. -/

namespace Serie.Mirror.History

open Serie.Lib.Trace Serie.Model.Record Serie.Model.Prfs Serie.Model.Refresh Serie.Model.Table
open Serie.Model.Conn Serie.Model.Runs

/-! ### Processes -/

/-- The pid of the parent of every running process, and the running processes that were forked
during the history. -/
structure Kernel where
  parent : Pid → Option Pid
  forked : Set Pid

/-- The process `q` runs. -/
def Kernel.Runs (k : Kernel) (q : Pid) : Prop := ∃ a, k.parent q = some a

/-- What the kernel does with single-threaded processes. An exit hands every child `c` of the
process to `adopter c`. -/
inductive Action where
  | fork (p c : Pid)
  | exec (p : Pid)
  | exit (p : Pid) (exitCode : ℕ) (adopter : Pid → Pid)

/-- The action is possible. -/
def Kernel.Enabled (k : Kernel) : Action → Prop
  | .fork p c => k.Runs p ∧ ¬ k.Runs c
  | .exec p => k.Runs p
  | .exit p _ adopter => k.Runs p ∧
      ∀ c, k.parent c = some p → k.Runs (adopter c) ∧ adopter c ≠ p ∧ adopter c ≠ c

/-- The processes after the action. -/
def Kernel.act (k : Kernel) : Action → Kernel
  | .fork p c => ⟨Function.update k.parent c (some p), insert c k.forked⟩
  | .exec _ => k
  | .exit p _ adopter => {
      parent := fun q =>
        if q = p then none
        else if k.parent q = some p then some (adopter q)
        else k.parent q
      forked := k.forked \ {p} }

section Act
variable {k : Kernel} {p c q : Pid} {code : ℕ} {adopter : Pid → Pid}

theorem parent_fork :
    (k.act (.fork p c)).parent q = if q = c then some p else k.parent q :=
  Function.update_apply ..

theorem parent_fork_of_ne (h : q ≠ c) : (k.act (.fork p c)).parent q = k.parent q :=
  Function.update_of_ne h ..

theorem runs_fork : (k.act (.fork p c)).Runs q ↔ q = c ∨ k.Runs q := by
  unfold Kernel.Runs
  rw [parent_fork]
  split_ifs with h <;> simp [h]

theorem parent_exit (h : q ≠ p) : (k.act (.exit p code adopter)).parent q =
    if k.parent q = some p then some (adopter q) else k.parent q :=
  if_neg h

theorem runs_exit : (k.act (.exit p code adopter)).Runs q ↔ q ≠ p ∧ k.Runs q := by
  unfold Kernel.Runs
  by_cases h : q = p
  · simp [Kernel.act, h]
  · rw [parent_exit h]
    split_ifs with hq <;> simp [h, hq]

end Act

/-! ### Joint steps -/

/-- The event of an action. -/
def Action.data : Action → EventData
  | .fork p c => .fork p c
  | .exec p => .exec p p
  | .exit p exitCode _ => .exit p exitCode

/-- An action, the time of its event, and the answers while the event is handled. -/
structure Move where
  act : Action
  timestampNs : ℕ
  world : ℕ → World

/-- The event of a move. -/
def Move.input (m : Move) : Input := ⟨⟨m.timestampNs, m.act.data⟩, m.world⟩

/-- No allocation fails, and every process that runs can be read and reports its parent. -/
def Reports (k : Kernel) (w : ℕ → World) : Prop :=
  ∀ n, (w n).procCalloc = true ∧ (w n).nodeCalloc = true ∧
    ∀ q a, k.parent q = some a → readable ((w n).files q) = true ∧
      ∀ g, statRead ((w n).files q) = some g → g.ppid = a

/-- **A joint step**: the kernel acts, then the program handles the event. -/
def Sync (x : Kernel × State) (m : Move) (y : Kernel × State) : Prop :=
  x.1.Enabled m.act ∧ y.1 = x.1.act m.act ∧ Reports y.1 m.world ∧ Step x.2 m.input y.2

/-- **The program mirrors the kernel**: every process that was forked during the history and still
runs is found, alive, below a living record with the pid of its parent. -/
def Mirrors (x : Kernel × State) : Prop :=
  ∀ q ∈ x.1.forked, ∃ r p, procLook x.2 q = some r ∧ (x.2.heap r).alive = true ∧
    (x.2.heap r).pare = some p ∧ (x.2.heap p).alive = true ∧ x.1.parent q = some (x.2.heap p).pid

/-! ### Runs that can be computed -/

/-- The joint run of the moves `ms`. -/
def syncTrace (fuel : ℕ) : Kernel × State → List Move → List (Move × Kernel × State)
  | _, [] => []
  | x, m :: ms =>
    let y := (x.1.act m.act, after fuel x.2 m.input)
    (m, y) :: syncTrace fuel y ms

/-- The kernel can make the moves, and `/proc` reports it. -/
def Allowed : Kernel → List Move → Prop
  | _, [] => True
  | k, m :: ms => k.Enabled m.act ∧ Reports (k.act m.act) m.world ∧ Allowed (k.act m.act) ms

theorem steps_syncTrace {fuel : ℕ} : ∀ {ms : List Move} {k : Kernel} {s : State}, Allowed k ms →
    returns fuel s (ms.map Move.input) = true → Steps Sync (k, s) (syncTrace fuel (k, s) ms)
  | [], _, _, _, _ => trivial
  | m :: ms, k, s, ⟨h1, h2, h3⟩, hr => by
    rw [List.map_cons, returns] at hr
    rcases hx : readEven fuel m.input.even m.input.world s with t | _ | _ <;> rw [hx] at hr
    · have ha : after fuel s m.input = t := by rw [after, hx]
      refine ⟨⟨h1, rfl, h2, fuel, by rw [ha]; exact hx⟩, steps_syncTrace h3 ?_⟩
      rw [ha]; exact hr
    · cases hr
    · cases hr

/-- The processes that run, with their parents, are among those of the list. -/
def Known (known : List (Pid × Pid)) (k : Kernel) : Prop :=
  ∀ q a, k.parent q = some a → (q, a) ∈ known

section Known
variable {known : List (Pid × Pid)} {k : Kernel} {p : Pid}

theorem Known.fork (h : Known known k) {c : Pid} : Known ((c, p) :: known) (k.act (.fork p c)) := by
  intro q a hq
  rw [parent_fork] at hq
  split_ifs at hq with hc
  · cases hq; rw [hc]; exact List.mem_cons_self
  · exact List.mem_cons_of_mem _ (h q a hq)

theorem Known.exit (h : Known known k) {code : ℕ} {adopter : Pid → Pid} :
    Known ((known.filter (·.1 ≠ p)).map fun y => if y.2 = p then (y.1, adopter y.1) else y)
      (k.act (.exit p code adopter)) := by
  intro q a hq
  have hqp : q ≠ p := (runs_exit.mp ⟨a, hq⟩).1
  rw [parent_exit hqp] at hq
  refine List.mem_map.mpr ?_
  split_ifs at hq with hp
  · cases hq
    exact ⟨(q, p), List.mem_filter.mpr ⟨h q p hp, by simpa using hqp⟩, if_pos rfl⟩
  · refine ⟨(q, a), List.mem_filter.mpr ⟨h q a hq, by simpa using hqp⟩, if_neg fun hap => hp ?_⟩
    rw [hq]; exact congrArg some hap

/-- The process `y.1` reports the parent `y.2`, if the answers are those of the list `l`. -/
def told (l : List (Pid × List Char)) (y : Pid × Pid) : Bool :=
  readable ((answers l 0).files y.1) &&
    (statRead ((answers l 0).files y.1)).map StatFields.ppid = some y.2

theorem Known.reports (hk : Known known k) {l : List (Pid × List Char)}
    (h : known.all (told l) = true) : Reports k (answers l) := by
  refine fun n => ⟨rfl, rfl, fun q a hq => ?_⟩
  have ht := List.all_eq_true.mp h _ (hk q a hq)
  simp only [told, Bool.and_eq_true, decide_eq_true_eq] at ht
  refine ⟨ht.1, fun g hg => ?_⟩
  have hs := ht.2
  rw [show statRead ((answers l 0).files q) = some g from hg] at hs
  exact Option.some.inj hs

end Known

end Serie.Mirror.History
