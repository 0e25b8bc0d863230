import Serie.Model.Proto

/-! # The tree that the prototype prints

`tre_sho` keeps no set of visited pids and the recorded parents may be stale, so the child lists of
`tre_buil` may contain cycles. No cycle is met on the way down from pid 1: every pid is on the list
of one parent only, so a pid of a cycle that is reached from 1 would have 1 itself on its cycle. The
traversal is the walk down from 1 of the recorded parents (`treSho_eq_walk`). -/

namespace Serie.Proto.Tree

open Serie.Lib.Preorder Serie.Lib.CText Serie.Model.Record Serie.Model.Proto

variable {procs : Processes} {childr : Childr} {pid q : Pid} {n : ℕ}

/-- The recorded parent of a tracked pid. -/
def recorded (procs : Processes) (pid : Pid) : Option Pid := (procs.lookup pid).bind recordedPpid

/-- Every entry is a name, a state and a number. -/
def WellFormed (procs : Processes) : Prop := ∀ item ∈ procs.entries, (recordedPpid item.2).isSome

instance : Decidable (WellFormed procs) :=
  inferInstanceAs (Decidable (∀ item ∈ procs.entries, (recordedPpid item.2).isSome))

/-- The chain of recorded parents leads from a pid to pid 1 through tracked pids, in so many
steps. -/
inductive LeadsTo (procs : Processes) : Pid → ℕ → Prop where
  | root (h : 1 ∈ procs) : LeadsTo procs 1 0
  | step {pid q : Pid} {n : ℕ} (hp : recorded procs pid = some q) (hq : LeadsTo procs q n) :
    LeadsTo procs pid (n + 1)

theorem leadsTo_iff : LeadsTo procs pid n ↔ 1 ∈ procs ∧ climb (recorded procs) n pid = some 1 := by
  constructor
  · intro h
    induction h with
    | root h => exact ⟨h, rfl⟩
    | step hp _ ih => exact ⟨ih.1, by rw [climb_succ, hp]; exact ih.2⟩
  · rintro ⟨h1, h⟩
    induction n generalizing pid with
    | zero =>
      cases h
      exact .root h1
    | succ n ih =>
      rw [climb_succ] at h
      obtain ⟨q, hq, hn⟩ := Option.bind_eq_some_iff.mp h
      exact .step hq (ih hn)

theorem mem_of_recorded (h : recorded procs pid = some q) : pid ∈ procs := by
  obtain ⟨info, hi, -⟩ := Option.bind_eq_some_iff.mp h
  rw [← AList.lookup_isSome, hi]
  rfl

theorem leadsTo_mem (h : LeadsTo procs pid n) : pid ∈ procs := by
  cases h with
  | root h => exact h
  | step hp _ => exact mem_of_recorded hp

/-! ### The child lists -/

theorem treBuilLoop_eq : ∀ {items : List (Σ _ : Pid, List (List Byte))} (childr : Childr),
    (∀ item ∈ items, (recordedPpid item.2).isSome) → ∃ childr', treBuilLoop childr items =
      some childr' ∧ ∀ q, childr'.of q =
        childr.of q ++ (items.filter fun item => recordedPpid item.2 = some q).map Sigma.fst
  | [], childr, _ => ⟨childr, rfl, fun q => (List.append_nil _).symm⟩
  | ⟨pid, info⟩ :: items, childr, hw => by
    obtain ⟨parent, hp⟩ := Option.isSome_iff_exists.mp (hw ⟨pid, info⟩ List.mem_cons_self)
    replace hp : recordedPpid info = some parent := hp
    obtain ⟨childr', hc, hl⟩ := treBuilLoop_eq (childr.insert parent (childr.of parent ++ [pid]))
      fun i hi => hw i (List.mem_cons_of_mem _ hi)
    refine ⟨childr', by rw [treBuilLoop, hp]; exact hc, fun q => ?_⟩
    rw [hl]
    by_cases hq : q = parent
    · subst hq
      simp [Childr.of, hp]
    · simp [Childr.of, hp, AList.lookup_insert_ne hq, Ne.symm hq]

/-- **The child lists**: every pid once, on the list of its recorded parent. -/
theorem treBuil_eq (hw : WellFormed procs) : ∃ childr, treBuil procs = some childr ∧
    (∀ q c, c ∈ childr.of q ↔ recorded procs c = some q) ∧ ∀ q, (childr.of q).Nodup := by
  obtain ⟨childr, hc, hl⟩ := treBuilLoop_eq ∅ hw
  have hof : ∀ q, childr.of q =
      (procs.entries.filter fun item => recordedPpid item.2 = some q).map Sigma.fst := by
    intro q
    rw [hl]
    rfl
  refine ⟨childr, hc, fun q c => ?_, fun q => ?_⟩
  · rw [hof, recorded, Option.bind_eq_some_iff]
    simp only [List.mem_map, List.mem_filter, decide_eq_true_eq]
    constructor
    · rintro ⟨⟨_, info⟩, ⟨hm, hi⟩, rfl⟩
      exact ⟨info, AList.mem_lookup_iff.mpr hm, hi⟩
    · rintro ⟨info, hm, hi⟩
      exact ⟨⟨c, info⟩, ⟨AList.mem_lookup_iff.mp hm, hi⟩, rfl⟩
  · rw [hof]
    exact (procs.keys_nodup).sublist (List.filter_sublist.map _)

/-! ### The traversal -/

/-- The line of a pid at a depth. -/
def lineOf (procs : Processes) (x : Pid × ℕ) : Line :=
  ⟨4 * x.2, x.1, ((procs.lookup x.1).bind List.head?).getD []⟩

theorem exists_cons (hw : WellFormed procs) (hp : pid ∈ procs) :
    ∃ name rest, procs.lookup pid = some (name :: rest) := by
  obtain ⟨info, hi⟩ := Option.isSome_iff_exists.mp (AList.lookup_isSome.mpr hp)
  have hs := hw ⟨pid, info⟩ (AList.mem_lookup_iff.mp hi)
  rcases info with _ | ⟨name, rest⟩
  · cases hs
  · exact ⟨name, rest, hi⟩

/-- **The traversal is the walk down the recorded parents.** -/
theorem treSho_eq_walk (hw : WellFormed procs)
    (hk : ∀ q c, c ∈ childr.of q ↔ recorded procs c = some q) (d : ℕ) (hp : pid ∈ procs) :
    treSho procs childr n pid (4 * d) =
      (walk childr.of n d pid).map (List.map (lineOf procs)) := by
  induction n generalizing pid d with
  | zero => rfl
  | succ n ih =>
    obtain ⟨name, rest, hl⟩ := exists_cons hw hp
    have hout : outputs (fun child => treSho procs childr n child (4 * d + 4)) (childr.of pid) =
        (outputs (walk childr.of n (d + 1)) (childr.of pid)).map (List.map (lineOf procs)) := by
      rw [← outputs_map]
      exact outputs_congr fun c hc => ih (d + 1) (mem_of_recorded ((hk pid c).mp hc))
    have hline : lineOf procs (pid, d) = ⟨4 * d, pid, name⟩ := by
      simp [lineOf, hl]
    rw [treSho, hl, walk]
    dsimp only
    rw [hout, Option.map_map, Option.map_map, ← hline]
    rfl

/-- **Pid 1 is not its own ancestor** if its recorded parent is not tracked. -/
theorem climb_one_ne (h1 : ∀ q, recorded procs 1 = some q → q ∉ procs) (m : ℕ) :
    climb (recorded procs) (m + 1) 1 ≠ some 1 := by
  intro h
  rw [climb_succ] at h
  obtain ⟨q, hq, hm⟩ := Option.bind_eq_some_iff.mp h
  rcases m with _ | m
  · cases hm
    exact h1 1 hq (mem_of_recorded hq)
  · rw [climb_succ] at hm
    obtain ⟨r, hr, -⟩ := Option.bind_eq_some_iff.mp hm
    exact h1 q hq (mem_of_recorded hr)

/-- **The walk from pid 1 returns**: the depth below it is at most the number of the entries. -/
theorem exists_walk (hk : ∀ q c, c ∈ childr.of q ↔ recorded procs c = some q)
    (h1 : ∀ q, recorded procs 1 = some q → q ∉ procs) :
    ∃ out, walk childr.of (procs.entries.length + 1) 0 1 = some out := by
  refine (walk_isSome_iff hk).mpr fun m x hm => ?_
  have hle := climb_le_length (L := procs.keys)
    (fun x q hx => AList.mem_keys.mp (mem_of_recorded hx)) (climb_one_ne h1) hm
  rw [AList.keys, List.keys, List.length_map] at hle
  exact Nat.lt_succ_of_le hle

/-- **The tree below pid 1.** The display returns, prints no pid twice, and prints the pids from
which the recorded parents lead to 1, four blanks deeper with each step. -/
theorem treSho_one (hw : WellFormed procs) (h1 : ∀ q, recorded procs 1 = some q → q ∉ procs) :
    ∃ childr lines, treBuil procs = some childr ∧
      (∀ n, procs.entries.length < n → treSho procs childr n 1 0 = some lines) ∧
      (lines.map Line.pid).Nodup ∧
      (∀ pid, pid ∈ lines.map Line.pid ↔ pid ∈ procs ∧ ∃ n, LeadsTo procs pid n) ∧
      ∀ line ∈ lines, (∃ n, LeadsTo procs line.pid n ∧ line.lev = 4 * n) ∧
        ∃ info, procs.lookup line.pid = some info ∧ info.head? = some line.name := by
  obtain ⟨childr, hc, hk, hn⟩ := treBuil_eq hw
  rcases Classical.em (1 ∈ procs) with hp | hp
  · obtain ⟨out, hout⟩ := exists_walk hk h1
    have hlev : ∀ y ∈ out, LeadsTo procs y.1 y.2 := by
      intro y hy
      obtain ⟨m, hm, he⟩ := (mem_walk hk hout).mp hy
      rw [Nat.zero_add] at he
      exact leadsTo_iff.mpr ⟨hp, by rw [he]; exact hm⟩
    have hpids : (out.map (lineOf procs)).map Line.pid = out.map Prod.fst := by
      rw [List.map_map]
      rfl
    refine ⟨childr, out.map (lineOf procs), hc, fun n hlt => ?_, ?_, fun pid => ?_, ?_⟩
    · rw [show 0 = 4 * 0 from rfl, treSho_eq_walk hw hk 0 hp, walk_mono hout hlt]
      rfl
    · rw [hpids]
      exact nodup_walk hk hn hout
    · rw [hpids, List.mem_map]
      constructor
      · rintro ⟨y, hy, rfl⟩
        exact ⟨leadsTo_mem (hlev y hy), y.2, hlev y hy⟩
      · rintro ⟨-, n, hl⟩
        exact ⟨(pid, n), (mem_walk hk hout).mpr ⟨n, (leadsTo_iff.mp hl).2, (Nat.zero_add n).symm⟩,
          rfl⟩
    · intro line hline
      obtain ⟨y, hy, rfl⟩ := List.mem_map.mp hline
      obtain ⟨name, rest, hl⟩ := exists_cons hw (leadsTo_mem (hlev y hy))
      refine ⟨⟨y.2, hlev y hy, rfl⟩, name :: rest, hl, ?_⟩
      simp [lineOf, hl]
  · refine ⟨childr, [], hc, fun n hlt => ?_, List.nodup_nil, fun pid => ?_, by simp⟩
    · obtain ⟨k, rfl⟩ := Nat.exists_eq_add_of_le' (Nat.lt_of_le_of_lt (Nat.zero_le _) hlt)
      rw [treSho, AList.lookup_eq_none.mpr hp]
    · simp [leadsTo_iff, hp]

/-- Pid 1 with a child and a grandchild, and two pids that record each other as the parent. -/
def cyclic : Processes := List.toAList
  [⟨5, [ascii ['c'], ascii ['S'], ascii ['2']]⟩, ⟨1, [ascii ['a'], ascii ['S'], ascii ['0']]⟩,
    ⟨2, [ascii ['b'], ascii ['S'], ascii ['1']]⟩, ⟨7, [ascii ['d'], ascii ['S'], ascii ['8']]⟩,
    ⟨8, [ascii ['e'], ascii ['S'], ascii ['7']]⟩]

/-- The two pids of the cycle are not printed. -/
theorem treSho_one_cyclic : ∃ childr lines, treBuil cyclic = some childr ∧
    (∀ n, 5 < n → treSho cyclic childr n 1 0 = some lines) ∧ (lines.map Line.pid).Nodup ∧
    (∀ pid, pid ∈ lines.map Line.pid ↔ pid ∈ cyclic ∧ ∃ n, LeadsTo cyclic pid n) ∧
    ∀ line ∈ lines, (∃ n, LeadsTo cyclic line.pid n ∧ line.lev = 4 * n) ∧
      ∃ info, cyclic.lookup line.pid = some info ∧ info.head? = some line.name :=
  treSho_one (by decide) fun q hq => by
    have h0 : recorded cyclic 1 = some 0 := by decide
    obtain rfl := Option.some.inj (h0.symm.trans hq)
    decide

example :
    (treBuil cyclic).bind (fun childr => (treSho cyclic childr 6 1 0).map (List.map Line.text)) =
      some [ascii ['1', ' ', 'a'], ascii [' ', ' ', ' ', ' ', '2', ' ', 'b'],
        ascii [' ', ' ', ' ', ' ', ' ', ' ', ' ', ' ', '5', ' ', 'c']] := by
  decide

end Serie.Proto.Tree
