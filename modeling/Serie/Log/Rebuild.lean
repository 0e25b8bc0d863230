import Serie.Log.Line
import Serie.Log.Framing
import Serie.Table.Incarnation
import Serie.Tree.Cycle

/-! # The tree, read from the log

A line names its first child and its next sibling by their pids only, and several lines may have
one pid. A reader looks for the line of the pid that says alive (`lineOf`) and goes on from there
(`linePrin`). Of a flush without failures it prints what `proc_tree_prin` prints of the table, if
the table has at most one live record of a pid (`linePrin_eq`): a child is alive, and its line is
the one that is found. -/

namespace Serie.Log.Rebuild

open Serie.Lib.CText Serie.Lib.Trace Serie.Lib.Intrusive Serie.Model.Record Serie.Model.Table
open Serie.Model.CJson Serie.Model.JsonParse Serie.Model.Logg Serie.Model.Conn Serie.Model.Steps
open Serie.Model.Runs Serie.Json.Item Serie.Log.Framing Serie.Log.Line Serie.Table.Incarnation
open Serie.Tree.Invariant Serie.Tree.Cycle

/-! ### The reader -/

section Reader
variable {ν : Type}

/-- The number of a line under a name. -/
def numberOf (x : Item ν) (name : String) : Option ν :=
  match getObjectItem x (nameBytes name) true with
  | some (.number n) => some n
  | _ => none

/-- The line says alive. -/
def aliveOf (x : Item ν) : Bool :=
  match getObjectItem x (nameBytes "alive") true with
  | some (.bool b) => b
  | _ => false

variable [DecidableEq ν]

/-- The line of the pid that says alive. -/
def lineOf (file : List (Item ν)) (q : ν) : Option (Item ν) :=
  file.find? fun x => aliveOf x && (numberOf x "pid" == some q)

/-- The line that a line points to. -/
def follow (file : List (Item ν)) (x : Item ν) (name : String) : Option (Item ν) :=
  (numberOf x name).bind (lineOf file)

mutual

/-- The print of a line and what is below it. -/
def linePrin (file : List (Item ν)) (fuel : ℕ) (root : Option (Item ν)) (depth : ℕ) :
    Option (List (ℕ × Option ν)) :=
  match root, fuel with
  | none, _ => some []
  | some _, 0 => none
  | some x, fuel + 1 =>
    (lineChil file fuel (follow file x "first-child-pid") (depth + 1)).map fun l =>
      (depth, numberOf x "pid") :: l

/-- The loop over the children. -/
def lineChil (file : List (Item ν)) (fuel : ℕ) (child : Option (Item ν)) (depth : ℕ) :
    Option (List (ℕ × Option ν)) :=
  match child, fuel with
  | none, _ => some []
  | some _, 0 => none
  | some x, fuel + 1 =>
    (linePrin file fuel (some x) depth).bind fun l =>
      (lineChil file fuel (follow file x "next-sibling-pid") depth).map fun l' => l ++ l'

end

end Reader

/-! ### The members of a line -/

section Members
variable {ν : Type} {s : State} {v : Visit} {p : Proc} {j : Object} {f : ℤ → ν}

theorem numberOf_of_mem (h : Made keys j) {name : String} {n : ℤ} (hm : (name, .number n) ∈ j) :
    numberOf (mapNumbers f (ofObject j)) name = some (f n) := by
  rw [numberOf, getObjectItem_of_mem h f hm true]
  rfl

theorem aliveOf_of_mem (h : Made keys j) {b : Bool} (hm : ("alive", .bool b) ∈ j) :
    aliveOf (mapNumbers f (ofObject j)) = b := by
  rw [aliveOf, getObjectItem_of_mem h f hm true]
  rfl

theorem numberOf_of_notMem (h : Made keys j) {name : String} (hk : name ∈ keys)
    (hn : name ∉ j.map Prod.fst) : numberOf (mapNumbers f (ofObject j)) name = none := by
  have hnone : getObjectItem (mapNumbers f (ofObject j)) (nameBytes name) true = none := by
    rw [ofObject, mapNumbers, mapMembers_eq, List.map_map, getObjectItem, List.find?_map,
      Option.map_map, Option.map_eq_none_iff, List.find?_eq_none]
    intro m hm hc
    have hname : nameBytes name = nameBytes m.1 := of_decide_eq_true hc
    refine hn (List.mem_map.mpr ⟨m, hm, (keys_apart.2 _ hk _ ?_ ?_).symm⟩)
    · exact h.sublist.subset (List.mem_map_of_mem hm)
    · rw [← hname]
      exact caseInsensitiveEq_refl _
  rw [numberOf, hnone]

theorem mem_addNumber_of_mem {a : Bool} {name : String} {n : ℤ} {m : String × Value}
    (h : m ∈ j) : m ∈ addNumberToObject a j name n := by
  unfold addNumberToObject
  split_ifs
  · exact List.mem_append_left _ h
  · exact h

theorem mem_addString_of_mem {a : Bool} {name : String} {t : Option (List Byte)}
    {m : String × Value} (h : m ∈ j) : m ∈ addStringToObject a j name t := by
  unfold addStringToObject
  rcases t with _ | t
  · exact h
  dsimp only
  split_ifs
  · exact List.mem_append_left _ h
  · exact h

theorem mem_addNumber_self {name : String} {n : ℤ} :
    (name, Value.number n) ∈ addNumberToObject true j name n := by
  simp [addNumberToObject]

theorem pid_mem_loggHead (h : v.item "pid" = true) :
    ("pid", Value.number p.pid) ∈ loggHead v p := by
  have hpid : ("pid", Value.number p.pid) ∈ addNumberToObject (v.item "pid") [] "pid" p.pid := by
    rw [h]
    exact mem_addNumber_self
  unfold loggHead
  dsimp only
  split_ifs <;>
    exact mem_addString_of_mem (mem_addString_of_mem (mem_addNumber_of_mem (mem_addNumber_of_mem
      (mem_addString_of_mem (mem_addNumber_of_mem (mem_addNumber_of_mem (mem_addString_of_mem
      (mem_addNumber_of_mem (mem_addNumber_of_mem (mem_addNumber_of_mem
      (mem_addNumber_of_mem hpid)))))))))))

/-- What a line says of the tree. -/
structure Tells (s : State) (f : ℤ → ν) (x : Item ν) (p : Proc) : Prop where
  pid : numberOf x "pid" = some (f p.pid)
  alive : aliveOf x = p.alive
  firsChil : numberOf x "first-child-pid" = p.firsChil.map fun c => f (s.heap c).pid
  nextSibl : numberOf x "next-sibling-pid" = p.nextSibl.map fun c => f (s.heap c).pid

/-- The names of what a line says of the tree. -/
def treeKeys : List String := ["pid", "alive", "first-child-pid", "next-sibling-pid"]

/-- The member of a link. -/
def addLink (s : State) (item : Bool) (o : Option Ref) (name : String) (j : Object) : Object :=
  match o with
  | none => j
  | some c => addNumberToObject item j name (s.heap c).pid

theorem made_addLink {names : List String} (h : Made names j) (item : Bool) (o : Option Ref)
    (name : String) : Made (names ++ [name]) (addLink s item o name j) := by
  rcases o with _ | c
  · exact h.skip name
  · exact h.addNumber name item _

theorem mem_addLink {item : Bool} {o : Option Ref} {name : String} {m : String × Value}
    (h : m ∈ j) : m ∈ addLink s item o name j := by
  rcases o with _ | c
  · exact h
  · exact mem_addNumber_of_mem h

theorem tells_loggTail (h : Made (keys.take 14) j) (hpid : ("pid", .number p.pid) ∈ j)
    (ha : v.item "alive" = true) (hf : v.item "first-child-pid" = true)
    (hn : v.item "next-sibling-pid" = true) (hmade : Made keys (loggTail s v p j)) (f : ℤ → ν) :
    Tells s f (mapNumbers f (ofObject (loggTail s v p j))) p := by
  obtain ⟨j₂, hj₂⟩ : ∃ j₂, j₂ = addNumberToObject (v.item "exit-code")
    (addBoolToObject (v.item "alive") j "alive" p.alive) "exit-code" p.exitCode := ⟨_, rfl⟩
  have h₂ : Made (keys.take 16) j₂ := hj₂ ▸ (h.addBool "alive" _ _).addNumber "exit-code" _ _
  have hpid₂ : ("pid", Value.number p.pid) ∈ j₂ := by
    rw [hj₂, ha]
    exact mem_addNumber_of_mem (List.mem_append_left _ hpid)
  have halive₂ : ("alive", Value.bool p.alive) ∈ j₂ := by
    rw [hj₂, ha]
    exact mem_addNumber_of_mem (List.mem_append_right _ (List.mem_singleton.mpr rfl))
  have habsent : ∀ {names : List String} {j' : Object} {name : String}, Made names j' →
      name ∉ names → name ∉ j'.map Prod.fst := fun hm hk hmem => hk (hm.sublist.subset hmem)
  have htail : loggTail s v p j = addLink s true p.nextSibl "next-sibling-pid"
      (addLink s true p.firsChil "first-child-pid" j₂) := by
    rw [hj₂]
    rcases hc : p.firsChil with _ | c <;> rcases hd : p.nextSibl with _ | d <;>
      simp only [loggTail, addLink, hc, hd, hf, hn]
  rw [htail] at hmade ⊢
  refine ⟨numberOf_of_mem hmade (mem_addLink (mem_addLink hpid₂)),
    aliveOf_of_mem hmade (mem_addLink (mem_addLink halive₂)), ?_, ?_⟩
  · rcases hc : p.firsChil with _ | c <;> rw [hc] at hmade
    · exact numberOf_of_notMem hmade (by decide) (habsent (made_addLink h₂ _ _ _) (by decide))
    · exact numberOf_of_mem hmade (mem_addLink mem_addNumber_self)
  · rcases hd : p.nextSibl with _ | d <;> rw [hd] at hmade
    · exact numberOf_of_notMem hmade (by decide) (habsent (made_addLink h₂ _ _ _) (by decide))
    · exact numberOf_of_mem hmade mem_addNumber_self

/-- **The line of a record says where it is in the tree**, if these members could be added. -/
theorem tells_of_loggProc2Json (h : loggProc2Json s v p = .ok j)
    (hv : ∀ name ∈ treeKeys, v.item name = true) (f : ℤ → ν) :
    Tells s f (mapNumbers f (ofObject j)) p := by
  have hmade := made_loggProc2Json h
  have hpid := hv "pid" (by decide)
  have halive := hv "alive" (by decide)
  have hfirst := hv "first-child-pid" (by decide)
  have hnext := hv "next-sibling-pid" (by decide)
  unfold loggProc2Json loggFdPaths2Json at h
  rcases hc : createStringArray v.array v.entry p.fdPaths p.fdCoun with e | arr <;> rw [hc] at h <;>
    cases h
  generalize hj₁ : addStringToObject (v.item "fd_paths") (loggHead v p) "fd_paths" _ = j₁ at hmade ⊢
  have hmade₁ : Made (keys.take 14) j₁ := hj₁ ▸ (made_loggHead v p).addString "fd_paths" _ _
  have hpid₁ : ("pid", Value.number p.pid) ∈ j₁ :=
    hj₁ ▸ mem_addString_of_mem (pid_mem_loggHead hpid)
  exact tells_loggTail hmade₁ hpid₁ halive hfirst hnext hmade f

end Members

/-! ### The lines of a flush -/

/-- Every record is logged, and nothing fails of what a line says of the tree. -/
structure Complete (s : State) (v : Ref → Visit) : Prop where
  object : ∀ r ∈ s.tracked, (v r).object = true
  item : ∀ r ∈ s.tracked, ∀ name ∈ treeKeys, (v r).item name = true
  reads : ∀ r ∈ s.tracked, ReadsWritten (v r) (s.heap r)
  text : ∀ r ∈ s.tracked, (v r).text = true
  realloc : ∀ r ∈ s.tracked, (v r).realloc = true

section Lines
variable {ν : Type} {s : State} {v : Ref → Visit} {f : ℤ → ν} {r : Ref}

/-- What the parser makes of the line of a record. -/
def lineAt (s : State) (v : Ref → Visit) (f : ℤ → ν) (r : Ref) : Item ν :=
  mapNumbers f (ofObject ((logged s v r).getD []))

theorem Complete.logged (h : Complete s v) (hr : r ∈ s.tracked) :
    ∃ j, loggProc2Json s (v r) (s.heap r) = .ok j ∧ logged s v r = some j := by
  obtain ⟨j, hj⟩ := loggProc2Json_ok_iff.mpr (h.reads r hr)
  refine ⟨j, hj, ?_⟩
  rw [Framing.logged, h.object r hr, h.text r hr, h.realloc r hr, hj]
  rfl

theorem Complete.tells (h : Complete s v) (hr : r ∈ s.tracked) :
    Tells s f (lineAt s v f r) (s.heap r) := by
  obtain ⟨j, hj, hl⟩ := h.logged hr
  rw [lineAt, hl]
  exact tells_of_loggProc2Json hj (h.item r hr) f

theorem Complete.lines (hs : Sound s) (h : Complete s v) (round : ℚ → ν) :
    (lines s v (records s)).map (parse (fun _ => true) round) =
      ((records s).map (lineAt s v fun n => round n)).map fun x => .ok (some x) := by
  have hrec : ∀ r ∈ records s, r ∈ s.tracked := fun r => (hs.mem_buckets rfl).mp
  generalize records s = l at hrec
  induction l with
  | nil => rfl
  | cons r l ih =>
    obtain ⟨j, hj, hl⟩ := h.logged (hrec r List.mem_cons_self)
    have ih := ih fun r hr => hrec r (List.mem_cons_of_mem _ hr)
    rw [lines_cons, List.map_append, ih, List.map_cons, List.map_cons]
    have hline : Framing.lines s v [r] = [printObject j] := by simp [Framing.lines, hl]
    rw [hline, List.map_singleton, parse_printObject round (made_loggProc2Json hj), lineAt, hl]
    rfl

variable [DecidableEq ν]

/-- Pids of the table are told apart. -/
def Apart (s : State) (f : ℤ → ν) : Prop :=
  ∀ r ∈ s.tracked, ∀ r' ∈ s.tracked, f (s.heap r).pid = f (s.heap r').pid →
    (s.heap r).pid = (s.heap r').pid

theorem lineOf_eq (hs : Sound s) (h : Complete s v) (hone : OneLive s) (hf : Apart s f)
    (hr : r ∈ s.tracked) (ha : (s.heap r).alive = true) :
    lineOf ((records s).map (lineAt s v f)) (f (s.heap r).pid) = some (lineAt s v f r) := by
  have htells := h.tells (f := f) hr
  refine find?_of_unique (List.mem_map_of_mem ((hs.mem_buckets rfl).mpr hr)) ?_ ?_
  · rw [htells.alive, htells.pid, ha]
    simp
  · intro x hx hP
    obtain ⟨r', hr', rfl⟩ := List.mem_map.mp hx
    have hr' : r' ∈ s.tracked := (hs.mem_buckets rfl).mp hr'
    have htells' := h.tells (f := f) hr'
    rw [htells'.alive, htells'.pid, Bool.and_eq_true, beq_iff_eq] at hP
    rw [hone r' hr' r hr hP.1 ha (hf r' hr' r hr (Option.some.inj hP.2))]

theorem follow_firsChil (hs : Sound s) (h : Complete s v) (hone : OneLive s) (hf : Apart s f)
    (hr : r ∈ s.tracked) :
    follow ((records s).map (lineAt s v f)) (lineAt s v f r) "first-child-pid" =
      (s.heap r).firsChil.map (lineAt s v f) := by
  rw [follow, (h.tells hr).firsChil]
  rcases hc : (s.heap r).firsChil with _ | c
  · rfl
  obtain ⟨hct, -, hca⟩ := hs.firsChil hr hc
  rw [Option.map_some, Option.bind_some, Option.map_some]
  exact lineOf_eq hs h hone hf hct hca

theorem nextSibl_spec (hs : Sound s) (hr : r ∈ s.tracked) {d : Ref}
    (hd : (s.heap r).nextSibl = some d) : d ∈ s.tracked ∧ (s.heap d).alive = true := by
  obtain ⟨kids, hk⟩ := hs.forest
  obtain ⟨p, hp, hdp, -⟩ := hk.up_next hr hd
  have hdt := hk.kids_mem p hp d hdp
  exact ⟨hdt, hs.alive_of_pare hdt (hk.up_of_mem hp hdp)⟩

theorem follow_nextSibl (hs : Sound s) (h : Complete s v) (hone : OneLive s) (hf : Apart s f)
    (hr : r ∈ s.tracked) :
    follow ((records s).map (lineAt s v f)) (lineAt s v f r) "next-sibling-pid" =
      (s.heap r).nextSibl.map (lineAt s v f) := by
  rw [follow, (h.tells hr).nextSibl]
  rcases hd : (s.heap r).nextSibl with _ | d
  · rfl
  obtain ⟨hdt, hda⟩ := nextSibl_spec hs hr hd
  rw [Option.map_some, Option.bind_some, Option.map_some]
  exact lineOf_eq hs h hone hf hdt hda

/-- What is read of a print: the depths, and the pids as the parser rounds them. -/
def rounded (f : ℤ → ν) (l : Option (List (ℕ × Pid))) : Option (List (ℕ × Option ν)) :=
  l.map (List.map fun y => (y.1, some (f y.2)))

/-- **The two prints go together**, call by call; both need the same fuel. -/
theorem linePrin_eq (hs : Sound s) (h : Complete s v) (hone : OneLive s) (hf : Apart s f) :
    ∀ (fuel : ℕ) (o : Option Ref) (depth : ℕ), (∀ r, o = some r → r ∈ s.tracked) →
      linePrin ((records s).map (lineAt s v f)) fuel (o.map (lineAt s v f)) depth =
        rounded f (procTreePrin s fuel o depth) ∧
      lineChil ((records s).map (lineAt s v f)) fuel (o.map (lineAt s v f)) depth =
        rounded f (procTreeChil s fuel o depth)
  | fuel, none, depth, _ => by
    rw [Option.map_none, linePrin, lineChil, procTreePrin, procTreeChil]
    exact ⟨rfl, rfl⟩
  | 0, some r, depth, _ => by
    rw [Option.map_some, linePrin, lineChil, procTreePrin, procTreeChil]
    exact ⟨rfl, rfl⟩
  | fuel + 1, some r, depth, hr => by
    have hr := hr r rfl
    have hchil := (linePrin_eq hs h hone hf fuel (s.heap r).firsChil (depth + 1)
      fun c hc => (hs.firsChil hr hc).1).2
    have hprin := (linePrin_eq hs h hone hf fuel (some r) depth
      fun c hc => Option.some.inj hc ▸ hr).1
    have hnext := (linePrin_eq hs h hone hf fuel (s.heap r).nextSibl depth
      fun d hd => (nextSibl_spec hs hr hd).1).2
    rw [← follow_firsChil hs h hone hf hr] at hchil
    rw [← follow_nextSibl hs h hone hf hr] at hnext
    rw [Option.map_some] at hprin ⊢
    constructor
    · rw [linePrin, procTreePrin, hchil, (h.tells hr).pid, rounded, rounded, Option.map_map,
        Option.map_map]
      rfl
    · rw [lineChil, procTreeChil, hprin, hnext]
      rcases procTreePrin s fuel (some r) depth with _ | l
      · rfl
      rcases procTreeChil s fuel (s.heap r).nextSibl depth with _ | l'
      · rfl
      exact congrArg some List.map_append.symm

/-- **The tree is read back from the log.** The text of a flush splits into one line for each
record; the print from the line of a record is that of `proc_tree_prin` from the record, and the
line of a live record is found by its pid. -/
theorem tree_of_log {tr : List (Input × State)} (hr : Steps Step init tr)
    (hone : OneLive (final init tr)) (hv : Complete (final init tr) v) (round : ℚ → ν)
    (hround : Apart (final init tr) fun n => round n) :
    ∃ text file, loggProcParse (final init tr) v true = .ok (some text) ∧
      (text.splitOn (ch '\n')).dropLast.map (parse (fun _ => true) round) =
        file.map (fun x => .ok (some x)) ∧
      List.Forall₂ (fun r x => ∀ fuel depth, linePrin file fuel (some x) depth =
          rounded (fun n => round n) (procTreePrin (final init tr) fuel (some r) depth))
        (records (final init tr)) file ∧
      ∀ r ∈ (final init tr).tracked, ((final init tr).heap r).alive = true → ∀ fuel depth,
        linePrin file fuel (lineOf file (round ((final init tr).heap r).pid)) depth =
          rounded (fun n => round n) (procTreePrin (final init tr) fuel (some r) depth) := by
  have hs : Sound (final init tr) := sound_final hr
  generalize final init tr = s at hone hv hround hs ⊢
  have hprin : ∀ r ∈ s.tracked, ∀ fuel depth,
      linePrin ((records s).map (lineAt s v fun n => round n)) fuel
        (some (lineAt s v (fun n => round n) r)) depth =
          rounded (fun n => round n) (procTreePrin s fuel (some r) depth) :=
    fun r hr fuel depth => (linePrin_eq hs hv hone hround fuel (some r) depth
      fun c hc => Option.some.inj hc ▸ hr).1
  have hframed : Framed s v := framed_of_readable fun r hr _ =>
    hv.reads r ((hs.mem_buckets rfl).mp hr)
  refine ⟨snapshot s v, (records s).map (lineAt s v fun n => round n), hframed.1, ?_, ?_, ?_⟩
  · rw [hframed.2, List.dropLast_concat]
    exact hv.lines hs round
  · rw [List.forall₂_map_right_iff, List.forall₂_same]
    exact fun r hr => hprin r ((hs.mem_buckets rfl).mp hr)
  · intro r hr ha fuel depth
    rw [lineOf_eq hs hv hone hround hr ha]
    exact hprin r hr fuel depth

end Lines

/-- The exit hands the child over, and no clock can be read. -/
theorem tree_of_log_adopted : ∃ text file,
    loggProcParse (final init (trace 2 init adopted)) (fun _ => timeless) true = .ok (some text) ∧
      (text.splitOn (ch '\n')).dropLast.map (parse (fun _ => true) id) =
        file.map (fun x => .ok (some x)) ∧
      linePrin file 5 (lineOf file 1) 0 = some [(0, some (1 : ℚ)), (1, some 3)] := by
  have hs : Sound (final init (trace 2 init adopted)) := sound_final adopted_steps
  have hlt : ∀ r ∈ (final init (trace 2 init adopted)).tracked, r < 3 := fun r hr =>
    (hs.lt_next r hr).trans_le (by decide)
  have hone : ∀ r < 3, ∀ r' < 3, ((final init (trace 2 init adopted)).heap r).alive = true →
      ((final init (trace 2 init adopted)).heap r').alive = true →
        ((final init (trace 2 init adopted)).heap r).pid =
          ((final init (trace 2 init adopted)).heap r').pid → r = r' := by decide
  have hnone : ∀ r < 3, ((final init (trace 2 init adopted)).heap r).fdPaths = none := by decide
  have hpid : ((final init (trace 2 init adopted)).heap 0).pid = 1 := by decide
  have hprin : procTreePrin (final init (trace 2 init adopted)) 5 (some 0) 0 =
      some [(0, 1), (1, 3)] := by decide
  obtain ⟨text, file, htext, hfile, -, hlive⟩ := tree_of_log (v := fun _ => timeless)
    adopted_steps (fun r hr r' hr' => hone r (hlt r hr) r' (hlt r' hr'))
    ⟨fun _ _ => rfl, fun _ _ _ _ => rfl, fun r hr hne => absurd (hnone r (hlt r hr)) hne,
      fun _ _ => rfl, fun _ _ => rfl⟩ id fun r _ r' _ he => Rat.intCast_inj.mp he
  have h := hlive 0 ⟨1, by decide⟩ (by decide) 5 0
  rw [hpid, hprin] at h
  exact ⟨text, file, htext, hfile, h⟩

end Serie.Log.Rebuild
