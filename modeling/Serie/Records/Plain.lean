import Serie.Model.Steps

/-! # Records up to pointers

`plain` is the record without its links, and with the texts of its slots but not the strings that
hold them. `prfs_look` sees and leaves the same plain record whatever strings were allocated before
(`prfsLook_plain`). -/

namespace Serie.Records.Plain

open Serie.Lib.CText Serie.Model.Record Serie.Model.Prfs Serie.Model.Refresh Serie.Model.Steps

/-- The slot without the number of its string. -/
def text : Slot → Slot
  | .str _ target => .str 0 target
  | v => v

/-- The record without its links and without the numbers of its strings. -/
def plain (p : Proc) : Proc := { bare p with fdPaths := p.fdPaths.map (·.map text) }

@[simp] theorem text_text (v : Slot) : text (text v) = text v := by
  cases v <;> rfl

@[simp] theorem plain_plain (p : Proc) : plain (plain p) = plain p := by
  have h : (p.fdPaths.map (·.map text)).map (·.map text) = p.fdPaths.map (·.map text) := by
    rcases p.fdPaths with _ | a
    · rfl
    · simp [Function.comp_def]
  simp only [plain, bare, h]

theorem plain_of_bare {p q : Proc} (h : bare p = bare q) : plain p = plain q := by
  have hf := congrArg Proc.fdPaths h
  simp only [plain, h, show p.fdPaths = q.fdPaths from hf]

/-! ### Reading -/

section Reading
variable (p q : Proc) (f : Files)

theorem prfsStat_plain : prfsStat (plain p) f = ((prfsStat p f).1, plain (prfsStat p f).2) := by
  unfold prfsStat
  rcases statRead f with _ | g <;> rfl

theorem statusLine_plain (line : List Byte) :
    statusLine (plain p) line = (plain (statusLine p line).1, (statusLine p line).2) := by
  unfold statusLine
  -- which number is read does not matter
  generalize strtol = f
  split_ifs <;> rfl

theorem statusLines_plain : ∀ (lines : List (List Byte)) (p : Proc),
    statusLines (plain p) lines = plain (statusLines p lines)
  | [], _ => rfl
  | line :: lines, p => by
    simp only [statusLines, statusLine_plain]
    split_ifs
    · exact statusLines_plain lines _
    · rfl

theorem prfsStatus_plain :
    prfsStatus (plain p) f = ((prfsStatus p f).1, plain (prfsStatus p f).2) := by
  unfold prfsStatus
  rcases f.status with _ | lines
  · rfl
  · have h := statusLines_plain (fgetsLines 256 lines) { p with tgid := -1, fdCoun := -1 }
    have h' : statusLines { plain p with tgid := -1, fdCoun := -1 } (fgetsLines 256 lines) =
        plain (statusLines { p with tgid := -1, fdCoun := -1 } (fgetsLines 256 lines)) := h
    simp only [h']
    generalize statusLines { p with tgid := -1, fdCoun := -1 } (fgetsLines 256 lines) = y
    by_cases hy : y.tgid = -1 ∨ y.fdCoun = -1
    · rw [if_pos hy, if_pos (show (plain y).tgid = -1 ∨ (plain y).fdCoun = -1 from hy)]
    · rw [if_neg hy, if_neg (show ¬ ((plain y).tgid = -1 ∨ (plain y).fdCoun = -1) from hy)]

variable {p q f}

theorem fdCoun_of_plain (h : plain p = plain q) : p.fdCoun = q.fdCoun := by
  have hc := congrArg Proc.fdCoun h
  exact hc

theorem plain_fdCoun (h : plain p = plain q) (i : ℤ) :
    plain { p with fdCoun := i } = plain { q with fdCoun := i } := by
  have hc := congrArg (fun x : Proc => { x with fdCoun := i }) h
  exact hc

theorem plain_fdPaths (h : plain p = plain q) (o : Option (List Slot)) :
    plain { p with fdPaths := o } = plain { q with fdPaths := o } := by
  have hc := congrArg (fun x : Proc => { x with fdPaths := Option.map (List.map text) o }) h
  exact hc

theorem setSlot_plain (h : plain p = plain q) (i : ℕ) {v v' : Slot} (hv : text v = text v') :
    plain (setSlot p i v) = plain (setSlot q i v') := by
  have hset : ∀ (x : Proc) (v : Slot), plain (setSlot x i v) =
      { plain x with fdPaths := (plain x).fdPaths.map (·.set i (text v)) } := by
    intro x v
    rcases hx : x.fdPaths with _ | a <;> simp [plain, setSlot, hx, bare, List.map_set]
  rw [hset, hset, h, hv]

theorem fdLoop_plain : ∀ (es : List DirEntry) (i : ℕ) {p q : Proc} (m n : Strs),
    plain p = plain q → plain (fdLoop es i p m).2.1 = plain (fdLoop es i q n).2.1
  | [], i, _, _, _, _, h => plain_fdCoun h i
  | e :: es, i, p, q, m, n, h => by
    have hc : p.fdCoun = q.fdCoun := fdCoun_of_plain h
    unfold fdLoop
    simp only [hc]
    split_ifs
    · exact plain_fdCoun h i
    · exact fdLoop_plain es i m n h
    · exact plain_fdPaths (setSlot_plain h i rfl) none
    · rcases e.link with _ | target
      · exact fdLoop_plain es i _ _ (setSlot_plain h i rfl)
      · exact fdLoop_plain es (i + 1) _ _ (setSlot_plain h i rfl)

theorem prfsFd_plain (h : plain p = plain q) (m n : Strs) :
    plain (prfsFd p m f).2.1 = plain (prfsFd q n f).2.1 := by
  have hc : p.fdCoun = q.fdCoun := fdCoun_of_plain h
  -- whether there was an array does not show: it is given up before the new one is made
  have hclean : ∀ (x : Proc) (m : Strs) (o : Option (List Slot)),
      plain { (if x.fdPaths ≠ none then prfsCleanFd x x.fdCoun m else (x, m)).1 with
          fdPaths := o } = plain { x with fdPaths := o } := by
    intro x m o
    split_ifs <;> rfl
  have hnew : ∀ o, plain { (if p.fdPaths ≠ none then prfsCleanFd p p.fdCoun m else (p, m)).1 with
        fdPaths := o } =
      plain { (if q.fdPaths ≠ none then prfsCleanFd q q.fdCoun n else (q, n)).1 with
        fdPaths := o } := by
    intro o
    rw [hclean, hclean]
    exact plain_fdPaths h o
  unfold prfsFd
  by_cases h0 : q.fdCoun = 0
  · rw [if_pos h0, if_pos (hc.trans h0)]
    exact plain_fdPaths h none
  rw [if_neg h0, if_neg fun e => h0 (hc.symm.trans e)]
  rcases f.fd with _ | dirs
  · exact h
  dsimp only
  by_cases ha : f.arrAlloc = false ∨ q.fdCoun < 0
  · rw [if_pos ha, if_pos (hc ▸ ha)]
    exact hnew none
  · have hsize : List.replicate p.fdCoun.toNat Slot.unset =
        List.replicate q.fdCoun.toNat Slot.unset := by rw [hc]
    rw [if_neg ha, if_neg (hc ▸ ha), hsize]
    exact fdLoop_plain dirs 0 _ _ (hnew _)

theorem prfsLook_plain (h : plain p = plain q) (m n : Strs) :
    plain (prfsLook p m f).2.1 = plain (prfsLook q n f).2.1 := by
  have hstat := congrArg (fun x => prfsStat x f) h
  simp only [prfsStat_plain, Prod.mk.injEq] at hstat
  obtain ⟨ha, hstat⟩ := hstat
  have hstatus := congrArg (fun x => prfsStatus x f) hstat
  simp only [prfsStatus_plain, Prod.mk.injEq] at hstatus
  obtain ⟨hb, hstatus⟩ := hstatus
  have hc := prfsFd_code (fdCoun_of_plain hstatus) m n f
  have hfd : plain (prfsFd (prfsStatus (prfsStat p f).2 f).2 m f).2.1 =
      plain (prfsFd (prfsStatus (prfsStat q f).2 f).2 n f).2.1 := prfsFd_plain hstatus m n
  simp only [prfsLook, ha, hb, hc]
  split_ifs
  · exact hstat
  · exact hstatus
  · exact hfd
  · exact hfd

end Reading

end Serie.Records.Plain
