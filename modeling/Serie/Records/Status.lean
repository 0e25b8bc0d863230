import Serie.Model.Refresh

/-! # What `prfs_status` takes from the lines

The loop of `prfs_status` goes over the lines before the first one that starts with `FDSize:`. It
leaves, for each of the other three keys, the numbers of the last line with that key (`filled`), and
takes the descriptor count from the line it stops at (`prfsStatus_eq`). -/

namespace Serie.Records.Status

open Serie.Lib.CText Serie.Model.Record Serie.Model.Prfs

/-- The keys of the lines. -/
def tgidKey : List Byte := ascii ['T', 'g', 'i', 'd', ':']
def uidKey : List Byte := ascii ['U', 'i', 'd', ':']
def gidKey : List Byte := ascii ['G', 'i', 'd', ':']
def fdSizeKey : List Byte := ascii ['F', 'D', 'S', 'i', 'z', 'e', ':']

/-- The last line with a key. -/
def lastOf (key : List Byte) (lines : List (List Byte)) : Option (List Byte) :=
  lines.reverse.find? (startsWith · key)

/-- The number after `Tgid:`. -/
def tgidOf (line : List Byte) : Pid := toInt32 (strtol ((cstr line).drop 5)).1

/-- The first number after `Uid:` or `Gid:`. -/
def realOf (line : List Byte) : ℕ := toUInt32 (strtol ((cstr line).drop 4)).1

/-- The second one. -/
def effectiveOf (line : List Byte) : ℕ := toUInt32 (strtol (strtol ((cstr line).drop 4)).2).1

/-- The number after `FDSize:`. -/
def fdSizeOf (line : List Byte) : ℤ := toInt32 (strtol ((cstr line).drop 7)).1

/-- The record with the credentials of the lines. -/
def filled (p : Proc) (lines : List (List Byte)) : Proc :=
  { p with
    tgid := ((lastOf tgidKey lines).map tgidOf).getD p.tgid
    ruid := ((lastOf uidKey lines).map realOf).getD p.ruid
    euid := ((lastOf uidKey lines).map effectiveOf).getD p.euid
    rgid := ((lastOf gidKey lines).map realOf).getD p.rgid
    egid := ((lastOf gidKey lines).map effectiveOf).getD p.egid }

/-- The lines before the descriptor count. -/
def credLines (lines : List (List Byte)) : List (List Byte) :=
  lines.takeWhile fun line => !startsWith line fdSizeKey

/-- The descriptor count of the lines. -/
def countOf (lines : List (List Byte)) : ℤ :=
  ((lines.find? (startsWith · fdSizeKey)).map fdSizeOf).getD (-1)

theorem startsWith_other {line k k' : List Byte} (h : startsWith line k = true)
    (hk : ¬ k <+: k') (hk' : ¬ k' <+: k) : startsWith line k' = false := by
  by_contra h'
  have h1 : k <+: cstr line := List.isPrefixOf_iff_prefix.mp h
  have h2 : k' <+: cstr line :=
    List.isPrefixOf_iff_prefix.mp ((Bool.not_eq_false _).mp h')
  rcases List.prefix_or_prefix_of_prefix h1 h2 with h | h
  · exact hk h
  · exact hk' h

theorem lastOf_eq (key : List Byte) (lines : List (List Byte)) :
    lastOf key lines = (lines.filter (startsWith · key)).getLast? := by
  rw [lastOf, ← List.head?_filter, List.filter_reverse, List.head?_reverse]

theorem lastOf_cons (key line : List Byte) (lines : List (List Byte)) :
    lastOf key (line :: lines) =
      (lastOf key lines).or (if startsWith line key then some line else none) := by
  unfold lastOf
  rw [List.reverse_cons, List.find?_append, List.find?_cons]
  rcases startsWith line key with _ | _ <;> rfl

/-- A line with the key counts if no later one has it. -/
theorem getD_lastOf_cons {α : Type} (f : List Byte → α) (key line : List Byte)
    (lines : List (List Byte)) (a : α) :
    ((lastOf key (line :: lines)).map f).getD a =
      ((lastOf key lines).map f).getD (if startsWith line key then f line else a) := by
  rw [lastOf_cons]
  rcases lastOf key lines with _ | l
  · rcases startsWith line key with _ | _ <;> rfl
  · rfl

theorem filled_cons (p : Proc) {line : List Byte} (lines : List (List Byte))
    (h : startsWith line fdSizeKey = false) :
    (statusLine p line).2 = true ∧
      filled (statusLine p line).1 lines = filled p (line :: lines) := by
  rcases ht : startsWith line tgidKey with _ | _
  · rcases hu : startsWith line uidKey with _ | _
    · rcases hg : startsWith line gidKey with _ | _
      · have hs : statusLine p line = (p, true) := by
          unfold tgidKey uidKey gidKey fdSizeKey at *
          simp only [statusLine, ht, hu, hg, h, Bool.false_eq_true, if_false]
        rw [hs]
        simp [filled, getD_lastOf_cons, ht, hu, hg]
      · have hs : statusLine p line =
            ({ p with rgid := realOf line, egid := effectiveOf line }, true) := by
          unfold tgidKey uidKey gidKey at *
          simp only [statusLine, ht, hu, hg, Bool.false_eq_true, if_false, if_true]
          rfl
        rw [hs]
        simp [filled, getD_lastOf_cons, ht, hu, hg]
    · have hg : startsWith line gidKey = false := startsWith_other hu (by decide) (by decide)
      have hs : statusLine p line =
          ({ p with ruid := realOf line, euid := effectiveOf line }, true) := by
        unfold tgidKey uidKey at *
        simp only [statusLine, ht, hu, Bool.false_eq_true, if_false, if_true]
        rfl
      rw [hs]
      simp [filled, getD_lastOf_cons, ht, hu, hg]
  · have hu : startsWith line uidKey = false := startsWith_other ht (by decide) (by decide)
    have hg : startsWith line gidKey = false := startsWith_other ht (by decide) (by decide)
    have hs : statusLine p line = ({ p with tgid := tgidOf line }, true) := if_pos ht
    rw [hs]
    simp [filled, getD_lastOf_cons, ht, hu, hg]

theorem statusLine_fdSize (p : Proc) {line : List Byte} (h : startsWith line fdSizeKey = true) :
    statusLine p line = ({ p with fdCoun := fdSizeOf line }, false) := by
  have ht : startsWith line tgidKey = false := startsWith_other h (by decide) (by decide)
  have hu : startsWith line uidKey = false := startsWith_other h (by decide) (by decide)
  have hg : startsWith line gidKey = false := startsWith_other h (by decide) (by decide)
  unfold tgidKey uidKey gidKey fdSizeKey at *
  simp only [statusLine, ht, hu, hg, h, Bool.false_eq_true, if_false, if_true]
  rfl

theorem statusLines_eq : ∀ (lines : List (List Byte)) (p : Proc),
    statusLines p lines = { filled p (credLines lines) with
      fdCoun := ((lines.find? (startsWith · fdSizeKey)).map fdSizeOf).getD p.fdCoun }
  | [], _ => rfl
  | line :: lines, p => by
    rcases h : startsWith line fdSizeKey with _ | _
    · obtain ⟨hgo, hf⟩ := filled_cons p (credLines lines) h
      have ih := statusLines_eq lines (statusLine p line).1
      have hc : (statusLine p line).1.fdCoun = p.fdCoun := by
        have hfield := congrArg Proc.fdCoun hf
        exact hfield
      have hcred : credLines (line :: lines) = line :: credLines lines :=
        List.takeWhile_cons_of_pos (by simp [h])
      rw [statusLines, if_pos hgo, ih, hf, hc, hcred, List.find?_cons_of_neg (by simp [h])]
    · have hcred : credLines (line :: lines) = [] := List.takeWhile_cons_of_neg (by simp [h])
      have hfind : (line :: lines).find? (startsWith · fdSizeKey) = some line :=
        List.find?_cons_of_pos h
      rw [statusLines, statusLine_fdSize p h, hcred, hfind]
      rfl

/-- The lines lack the thread group or the descriptor count. -/
def Incomplete (lines : List (List Byte)) : Prop :=
  ((lastOf tgidKey (credLines lines)).map tgidOf).getD (-1) = -1 ∨ countOf lines = -1

instance (lines : List (List Byte)) : Decidable (Incomplete lines) :=
  inferInstanceAs (Decidable (_ ∨ _))

/-- **`prfs_status`**, when the file can be opened. -/
theorem prfsStatus_eq (p : Proc) {f : Files} {text : List Byte} (h : f.status = some text) :
    prfsStatus p f = (if Incomplete (fgetsLines 256 text) then -1 else 0,
      { filled { p with tgid := -1 } (credLines (fgetsLines 256 text)) with
        fdCoun := countOf (fgetsLines 256 text) }) := by
  simp only [prfsStatus, h, statusLines_eq]
  by_cases hi : Incomplete (fgetsLines 256 text)
  · rw [if_pos hi]
    exact if_pos hi
  · rw [if_neg hi]
    exact if_neg hi

end Serie.Records.Status
