import Serie.Model.Record

/-! # Reading `/proc`

`ser_prfs.c`: `prfs_look` fills a record from `/proc/<pid>/stat`, then `/proc/<pid>/status`, then
`/proc/<pid>/fd/`, and stops at the first of the three that fails. Every function returns its result
code and the record as it leaves it; what it wrote before it failed stays written. -/

namespace Serie.Model.Prfs

open Serie.Lib.CText Serie.Model.Record

/-! ### `prfs_stat` -/

/-- What `prfs_stat` takes from a line. -/
structure StatFields where
  name : List Byte
  state : Byte
  ppid : Pid
deriving DecidableEq, Repr

/-- `skip_spac`. -/
def skipSpac (curs : List Byte) : List Byte := curs.dropWhile (· = ch ' ')

/-- The parse of the array `buff`: the name between the first `(` and the last `)`, at most 15 bytes
of it, then the state letter and the number of the parent. -/
def statParse (buff : List Byte) : Option StatFields :=
  match strchr buff (ch '('), strrchr buff (ch ')') with
  | some startBrac, some endBrac =>
    if endBrac ≤ startBrac then none
    else
      let nameSize := min 15 (endBrac - (startBrac + 1))
      let curs := skipSpac (buff.drop (endBrac + 1))
      some {
        name := (buff.drop (startBrac + 1)).take nameSize
        state := deref curs
        ppid := toInt32 (strtol (skipSpac (curs.drop 1))).1 }
  | _, _ => none

/-- What `/proc/<pid>/stat` says: nothing if it cannot be opened, is empty or has no name in
parentheses. The array holds the line that `fgets` read, its null byte and what was there before. -/
def statRead (f : Files) : Option StatFields :=
  match f.stat with
  | none => none
  | some text =>
    match fgets 1024 text with
    | none => none
    | some (line, _) => statParse (line ++ 0 :: f.stale)

/-- `prfs_stat`. -/
def prfsStat (p : Proc) (f : Files) : ℤ × Proc :=
  match statRead f with
  | none => (-1, p)
  | some g =>
    (0, { p with
      name := g.name
      state := g.state
      ppid := g.ppid
      birthPpid := if p.birthPpid = -1 then g.ppid else p.birthPpid
      alive := true })

/-! ### `prfs_status` -/

/-- One turn of the loop over the lines; the flag says that the loop goes on. -/
def statusLine (p : Proc) (line : List Byte) : Proc × Bool :=
  if startsWith line (ascii ['T', 'g', 'i', 'd', ':']) then
    ({ p with tgid := toInt32 (strtol ((cstr line).drop 5)).1 }, true)
  else if startsWith line (ascii ['U', 'i', 'd', ':']) then
    let r := strtol ((cstr line).drop 4)
    ({ p with ruid := toUInt32 r.1, euid := toUInt32 (strtol r.2).1 }, true)
  else if startsWith line (ascii ['G', 'i', 'd', ':']) then
    let r := strtol ((cstr line).drop 4)
    ({ p with rgid := toUInt32 r.1, egid := toUInt32 (strtol r.2).1 }, true)
  else if startsWith line (ascii ['F', 'D', 'S', 'i', 'z', 'e', ':']) then
    ({ p with fdCoun := toInt32 (strtol ((cstr line).drop 7)).1 }, false)
  else (p, true)

/-- The loop over the lines. -/
def statusLines (p : Proc) : List (List Byte) → Proc
  | [] => p
  | line :: lines =>
    let x := statusLine p line
    if x.2 then statusLines x.1 lines else x.1

/-- `prfs_status`. -/
def prfsStatus (p : Proc) (f : Files) : ℤ × Proc :=
  match f.status with
  | none => (-1, p)
  | some text =>
    let q := statusLines { p with tgid := -1, fdCoun := -1 } (fgetsLines 256 text)
    if q.tgid = -1 ∨ q.fdCoun = -1 then (-1, q) else (0, q)

/-! ### `prfs_fd` -/

/-- `prfs_clean_fd`: frees the slots below `i`, then the array. -/
def prfsCleanFd (p : Proc) (i : ℤ) (m : Strs) : Proc × Strs :=
  ({ p with fdPaths := none }, (List.range i.toNat).foldl (fun m j => m.freeSlot p.fdPaths j) m)

/-- A write to slot `i`. -/
def setSlot (p : Proc) (i : ℕ) (v : Slot) : Proc := { p with fdPaths := p.fdPaths.map (·.set i v) }

/-- The loop over the directory; `i` is the number of paths stored so far. -/
def fdLoop : List DirEntry → ℕ → Proc → Strs → ℤ × Proc × Strs
  | [], i, p, m => (0, { p with fdCoun := i }, m)
  | e :: es, i, p, m =>
    if (i : ℤ) ≥ p.fdCoun then (0, { p with fdCoun := i }, m)
    else if deref e.dName = ch '.' then fdLoop es i p m
    else if e.alloc = false then (-1, prfsCleanFd (setSlot p i .null) i m)
    else
      match e.link with
      | some target => fdLoop es (i + 1) (setSlot p i (.str m.fresh target))
          { m with fresh := m.fresh + 1 }
      -- the string is freed at once and the next entry uses the slot again
      | none => fdLoop es i (setSlot p i .null)
          { m with fresh := m.fresh + 1, freed := m.fresh :: m.freed }

/-- `prfs_fd`. `malloc` never grants the size a negative count stands for. -/
def prfsFd (p : Proc) (m : Strs) (f : Files) : ℤ × Proc × Strs :=
  if p.fdCoun = 0 then (0, { p with fdPaths := none }, m)
  else
    match f.fd with
    | none => (-1, p, m)
    | some dirs =>
      let c := if p.fdPaths ≠ none then prfsCleanFd p p.fdCoun m else (p, m)
      if f.arrAlloc = false ∨ p.fdCoun < 0 then (-1, { c.1 with fdPaths := none }, c.2)
      else fdLoop dirs 0 { c.1 with fdPaths := some (List.replicate p.fdCoun.toNat .unset) } c.2

/-- `prfs_look`. -/
def prfsLook (p : Proc) (m : Strs) (f : Files) : ℤ × Proc × Strs :=
  let a := prfsStat p f
  if a.1 = -1 then (-1, a.2, m)
  else
    let b := prfsStatus a.2 f
    if b.1 = -1 then (-1, b.2, m)
    else
      let c := prfsFd b.2 m f
      if c.1 = -1 then (-1, c.2) else (0, c.2)

end Serie.Model.Prfs
