import Serie.Lib.Trace
import Serie.Model.Conn

/-! # Runs that can be computed

`trace` handles a list of events one after the other; if their handlers return, it is a run
(`steps_trace`). For such runs `answers` describes `/proc` by the parent that every process reports.
-/

namespace Serie.Model.Runs

open Serie.Lib.CText Serie.Lib.Trace Serie.Model.Record Serie.Model.Table Serie.Model.Conn

/-- The state after one event; the old one if its handler makes more than `fuel` turns. -/
def after (fuel : ℕ) (s : State) (i : Input) : State :=
  match readEven fuel i.even i.world s with
  | .ret t => t
  | _ => s

/-- The handlers of the events `is` return. -/
def returns (fuel : ℕ) : State → List Input → Bool
  | _, [] => true
  | s, i :: is =>
    match readEven fuel i.even i.world s with
    | .ret t => returns fuel t is
    | _ => false

/-- The run of the events `is` from `s`. -/
def trace (fuel : ℕ) : State → List Input → List (Input × State)
  | _, [] => []
  | s, i :: is => (i, after fuel s i) :: trace fuel (after fuel s i) is

theorem steps_trace {fuel : ℕ} : ∀ {is : List Input} {s : State}, returns fuel s is = true →
    Steps Step s (trace fuel s is)
  | [], _, _ => trivial
  | i :: is, s, h => by
    unfold returns at h
    rcases hr : readEven fuel i.even i.world s with t | _ | _ <;> rw [hr] at h
    · have ha : after fuel s i = t := by rw [after, hr]
      refine ⟨⟨fuel, by rw [ha]; exact hr⟩, ?_⟩
      rw [ha]; exact steps_trace h
    · cases h
    · cases h

/-! ### Answers of `/proc` -/

/-- The files of a sleeping process with the parent `ppid`, a decimal number, and the descriptor
data `fdSize` and `fd`. -/
def procFiles (ppid fdSize : List Char) (fd : Option (List DirEntry)) : Files where
  stat := some (ascii (['7', ' ', '(', 'a', ')', ' ', 'S', ' '] ++ ppid))
  stale := []
  status := some (ascii (['T', 'g', 'i', 'd', ':', '7', '\n', 'F', 'D', 'S', 'i', 'z', 'e', ':'] ++
    fdSize))
  fd := fd
  arrAlloc := true

/-- The files of a process that does not exist. -/
def noFiles : Files := ⟨none, [], none, none, true⟩

/-- The processes of `l` report the parents it gives and no descriptors, other processes do not
exist, and no allocation fails. -/
def answers (l : List (Pid × List Char)) (_ : ℕ) : World where
  files q := (l.lookup q).elim noFiles fun ppid => procFiles ppid ['0'] none
  procCalloc := true
  nodeCalloc := true

/-- An event at a time in seconds. -/
def input (sec : ℕ) (data : EventData) (l : List (Pid × List Char)) : Input :=
  ⟨⟨sec * 1000000000, data⟩, answers l⟩

/-- A fork, a fork by the child, and the exit of the child, whose own child is taken over. -/
def adopted : List Input := [
  input 1 (.fork 1 2) [(1, ['0']), (2, ['1'])],
  input 2 (.fork 2 3) [(3, ['2'])],
  input 3 (.exit 2 0) [(3, ['1'])]]

theorem adopted_steps : Steps Step init (trace 2 init adopted) := steps_trace (by decide)

end Serie.Model.Runs
