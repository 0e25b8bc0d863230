import Serie.Lib.Decimal
import Serie.Lib.Lines
import Serie.Records.Status

/-! # The status file

Of a status file, `prfs_status` gets back the numbers that were written into it, wherever the lines
with the credentials stand before the one with the descriptor count, and whatever comes after that
one; without the thread group or the count it fails (`recovers`). The lines are read one by one,
since each of them fits the buffer (`fgetsLines_unlines`). -/

namespace Serie.Records.StatusText

open Serie.Lib.CText Serie.Lib.Decimal Serie.Lib.Lines Serie.Model.Record Serie.Model.Prfs
open Serie.Records.Status

/-! ### The text -/

/-- A list of ids: real, effective, saved and of the file system. -/
structure Ids where
  real : ℕ
  effective : ℕ
  saved : ℕ
  fileSystem : ℕ

/-- Every id is an unsigned 32-bit number. -/
def Ids.Fit (i : Ids) : Prop :=
  i.real < 2 ^ 32 ∧ i.effective < 2 ^ 32 ∧ i.saved < 2 ^ 32 ∧ i.fileSystem < 2 ^ 32

/-- `Tgid:` and the number. -/
def tgidLine (tgid : ℕ) : List Byte := tgidKey ++ ch '\t' :: decimal tgid

/-- `Uid:` or `Gid:` and the four numbers. -/
def idsLine (key : List Byte) (i : Ids) : List Byte :=
  key ++ ch '\t' :: (decimal i.real ++ ch '\t' :: (decimal i.effective ++
    ch '\t' :: (decimal i.saved ++ ch '\t' :: decimal i.fileSystem)))

/-- `FDSize:` and the number. -/
def fdSizeLine (fdSize : ℕ) : List Byte := fdSizeKey ++ ch '\t' :: decimal fdSize

/-- A line that has none of the four keys. -/
def isOther (line : List Byte) : Bool :=
  !tgidKey.isPrefixOf line && !uidKey.isPrefixOf line && !gidKey.isPrefixOf line &&
    !fdSizeKey.isPrefixOf line

/-- A line that fits the buffer with its newline. -/
def Short (line : List Byte) : Prop := line.length < 255 ∧ ch '\n' ∉ line

/-- The lines before the descriptor count: the credentials, once each, among other lines. -/
structure Written (tgid : ℕ) (uids gids : Ids) (lines : List (List Byte)) : Prop where
  tgid : lines.filter (tgidKey.isPrefixOf ·) = [tgidLine tgid]
  uids : lines.filter (uidKey.isPrefixOf ·) = [idsLine uidKey uids]
  gids : lines.filter (gidKey.isPrefixOf ·) = [idsLine gidKey gids]
  fdSize : ∀ line ∈ lines, fdSizeKey.isPrefixOf line = false
  other : ∀ line ∈ lines, isOther line = true → Short line

/-! ### Reading the lines -/

/-- The end of a line, as it is read: the number before it ends there. -/
def LineEnd (e : List Byte) : Prop := 0 ∉ e ∧ isDigit (deref e) = false

theorem lineEnd_nil : LineEnd [] := ⟨List.not_mem_nil, rfl⟩

theorem lineEnd_newline : LineEnd [ch '\n'] := ⟨by decide, rfl⟩

theorem fgetsLines_unlines (t : List Byte) : ∀ {lines : List (List Byte)},
    (∀ line ∈ lines, Short line) →
      fgetsLines 256 (unlines (ch '\n') lines ++ t) =
        lines.map (· ++ [ch '\n']) ++ fgetsLines 256 t
  | [], _ => rfl
  | line :: lines, h => by
    obtain ⟨hlen, hnl⟩ := h line List.mem_cons_self
    have ih := fgetsLines_unlines t fun l hl => h l (List.mem_cons_of_mem line hl)
    rw [unlines_cons, List.append_assoc, List.cons_append, fgetsLines_newline hnl (by omega), ih]
    rfl

theorem mem_fgetsLines_short {last line : List Byte} (h : Short last)
    (hm : line ∈ fgetsLines 256 last) : line = last := by
  have htake : takeLine 255 last = (last, []) := by
    have ht := takeLine_append (n := 255) (t := []) h.2 h.1.le
    obtain ⟨k, hk⟩ := Nat.exists_eq_add_of_lt h.1
    rw [List.append_nil, show 255 - last.length = k + 1 by omega] at ht
    simpa [takeLine] using ht
  by_cases hl : last = []
  · rw [hl] at hm
    cases hm
  · rw [fgetsLines_of_ne_nil (by decide) hl, htake] at hm
    exact List.mem_singleton.mp hm

/-- The last line read begins with the count. -/
theorem fgetsLines_fdSize {fdSize : ℕ} (h : fdSize < 2 ^ 31) {rest : List Byte} (he : Ends rest) :
    ∃ e more, fgetsLines 256 (fdSizeLine fdSize ++ rest) = (fdSizeLine fdSize ++ e) :: more ∧
      LineEnd e := by
  have hlen : (fdSizeLine fdSize).length ≤ 18 := by
    have hd := length_decimal_le (n := fdSize) (k := 10) (by decide) (by omega)
    have hk : fdSizeKey.length = 7 := by decide
    rw [fdSizeLine, List.length_append, List.length_cons]
    omega
  have hnl : ch '\n' ∉ fdSizeLine fdSize := by
    rw [fdSizeLine, List.mem_append, List.mem_cons, not_or, not_or]
    exact ⟨by decide, by decide, notMem_decimal (by decide)⟩
  have hne : fdSizeLine fdSize ++ rest ≠ [] := by simp [fdSizeLine]
  rw [fgetsLines_of_ne_nil (by decide) hne, takeLine_append hnl (by omega)]
  refine ⟨_, _, rfl, ?_⟩
  obtain ⟨k, hk⟩ := Nat.exists_eq_add_of_lt (show (fdSizeLine fdSize).length < 256 - 1 by omega)
  rw [hk, show (fdSizeLine fdSize).length + k + 1 - (fdSizeLine fdSize).length = k + 1 by omega]
  rcases he with rfl | ⟨t, rfl⟩
  · exact lineEnd_nil
  · rw [takeLine, if_pos rfl]
    exact lineEnd_newline

/-! ### Lines with a key -/

section Key
variable {key line : List Byte}

theorem startsWith_newline (h0 : 0 ∉ key) (hn : ch '\n' ∉ key) :
    startsWith (line ++ [ch '\n']) key = key.isPrefixOf line := by
  rw [startsWith_eq h0, Bool.eq_iff_iff, List.isPrefixOf_iff_prefix, List.isPrefixOf_iff_prefix,
    List.prefix_concat_iff]
  constructor
  · rintro (h | h)
    · exact absurd (by rw [h]; simp) hn
    · exact h
  · exact Or.inr

theorem lastOf_newlines (h0 : 0 ∉ key) (hn : ch '\n' ∉ key) (lines : List (List Byte)) :
    lastOf key (lines.map (· ++ [ch '\n'])) =
      ((lines.filter (key.isPrefixOf ·)).getLast?).map (· ++ [ch '\n']) := by
  have hkey : (fun line => startsWith line key) ∘ (· ++ [ch '\n']) = (key.isPrefixOf ·) :=
    funext fun line => startsWith_newline h0 hn
  rw [lastOf_eq, List.filter_map, hkey, List.getLast?_map]

theorem drop_cstr {t e : List Byte} {n : ℕ} (hk : key.length = n) (h0 : 0 ∉ key) (ht : 0 ∉ t)
    (he : 0 ∉ e) : (cstr (key ++ t ++ e)).drop n = t ++ e := by
  have hz : 0 ∉ key ++ t ++ e := by
    simp only [List.mem_append, not_or]
    exact ⟨⟨h0, ht⟩, he⟩
  rw [cstr_of_notMem hz, List.append_assoc, ← hk, List.drop_left]

end Key

/-! ### The numbers -/

section Numbers
variable {e : List Byte}

theorem isSpace_tab : ∀ b ∈ [ch '\t'], isSpace b = true := by
  intro b hb
  rw [List.mem_singleton.mp hb]
  rfl

theorem toInt32_key {key : List Byte} {n k : ℕ} (hk : key.length = k) (h0 : 0 ∉ key)
    (hn : n < 2 ^ 31) (he : LineEnd e) :
    toInt32 (strtol ((cstr (key ++ ch '\t' :: decimal n ++ e)).drop k)).1 = n := by
  have hz : 0 ∉ ch '\t' :: decimal n := by
    rw [List.mem_cons, not_or]
    exact ⟨by decide, notMem_decimal (by decide)⟩
  have hr : strtol ([ch '\t'] ++ (decimal n ++ e)) = ((n : ℤ), e) :=
    strtol_decimal isSpace_tab (by omega) he.2
  rw [List.singleton_append] at hr
  rw [drop_cstr hk h0 hz he.1, List.cons_append, hr, toInt32_of_lt hn]

theorem tgidOf_tgidLine {n : ℕ} (h : n < 2 ^ 31) (he : LineEnd e) : tgidOf (tgidLine n ++ e) = n :=
  toInt32_key (by decide) (by decide) h he

theorem fdSizeOf_fdSizeLine {n : ℕ} (h : n < 2 ^ 31) (he : LineEnd e) :
    fdSizeOf (fdSizeLine n ++ e) = n :=
  toInt32_key (by decide) (by decide) h he

/-- **The chained `strtol` calls** on a line of ids. -/
theorem idsOf_idsLine (key : List Byte) {i : Ids} (hk : key.length = 4) (h0 : 0 ∉ key) (hi : i.Fit)
    (he : LineEnd e) :
    realOf (idsLine key i ++ e) = i.real ∧ effectiveOf (idsLine key i ++ e) = i.effective := by
  obtain ⟨hreal, heff, -, -⟩ := hi
  set u := ch '\t' :: (decimal i.saved ++ ch '\t' :: decimal i.fileSystem) with hu
  set t := ch '\t' :: (decimal i.effective ++ u) with ht
  have hdec : ∀ n, 0 ∉ decimal n := fun n => notMem_decimal (by decide)
  have hz : 0 ∉ ch '\t' :: (decimal i.real ++ t) := by
    simp only [ht, hu, List.mem_append, List.mem_cons, not_or]
    exact ⟨by decide, hdec _, by decide, hdec _, by decide, hdec _, by decide, hdec _⟩
  have hline : idsLine key i = key ++ ch '\t' :: (decimal i.real ++ t) := rfl
  have hdrop := drop_cstr hk h0 hz he.1
  have h1 : strtol ([ch '\t'] ++ (decimal i.real ++ (t ++ e))) = ((i.real : ℤ), t ++ e) :=
    strtol_decimal isSpace_tab (by omega) rfl
  have h2 : strtol ([ch '\t'] ++ (decimal i.effective ++ (u ++ e))) = ((i.effective : ℤ), u ++ e) :=
    strtol_decimal isSpace_tab (by omega) rfl
  rw [List.singleton_append] at h1 h2
  have h1' : strtol (ch '\t' :: (decimal i.real ++ t) ++ e) = ((i.real : ℤ), t ++ e) := by
    rw [List.cons_append, List.append_assoc, h1]
  have h2' : strtol (t ++ e) = ((i.effective : ℤ), u ++ e) := by
    rw [ht, List.cons_append, List.append_assoc, h2]
  rw [realOf, effectiveOf, hline, hdrop, h1', h2']
  exact ⟨toUInt32_of_lt hreal, toUInt32_of_lt heff⟩

end Numbers

/-! ### The file -/

section File
variable {tgid fdSize : ℕ} {uids gids : Ids} {lines : List (List Byte)} {rest : List Byte}

theorem short_tgidLine (h : tgid < 2 ^ 31) : Short (tgidLine tgid) := by
  have hd := length_decimal_le (n := tgid) (k := 10) (by decide) (by omega)
  have hk : tgidKey.length = 5 := by decide
  refine ⟨?_, ?_⟩
  · rw [tgidLine, List.length_append, List.length_cons]
    omega
  · rw [tgidLine, List.mem_append, List.mem_cons, not_or, not_or]
    exact ⟨by decide, by decide, notMem_decimal (by decide)⟩

theorem short_idsLine {key : List Byte} {i : Ids} (hk : key.length = 4) (hn : ch '\n' ∉ key)
    (hi : i.Fit) : Short (idsLine key i) := by
  obtain ⟨h1, h2, h3, h4⟩ := hi
  have hlen : ∀ n : ℕ, n < 2 ^ 32 → (decimal n).length ≤ 10 := fun n h =>
    length_decimal_le (by decide) (by omega)
  have hd : ∀ n, ch '\n' ∉ decimal n := fun n => notMem_decimal (by decide)
  have l1 := hlen _ h1
  have l2 := hlen _ h2
  have l3 := hlen _ h3
  have l4 := hlen _ h4
  refine ⟨?_, ?_⟩
  · simp only [idsLine, List.length_append, List.length_cons]
    omega
  · simp only [idsLine, List.mem_append, List.mem_cons, not_or]
    exact ⟨hn, by decide, hd _, by decide, hd _, by decide, hd _, by decide, hd _⟩

theorem Written.short (h : Written tgid uids gids lines) (ht : tgid < 2 ^ 31) (hu : uids.Fit)
    (hg : gids.Fit) : ∀ line ∈ lines, Short line := by
  intro line hl
  have hone : ∀ {key x : List Byte}, lines.filter (key.isPrefixOf ·) = [x] →
      key.isPrefixOf line = true → line = x := fun hf hk => by
    have hm : line ∈ lines.filter (_ : List Byte → Bool) := List.mem_filter.mpr ⟨hl, hk⟩
    rw [hf] at hm
    exact List.mem_singleton.mp hm
  by_cases h1 : tgidKey.isPrefixOf line = true
  · rw [hone h.tgid h1]
    exact short_tgidLine ht
  by_cases h2 : uidKey.isPrefixOf line = true
  · rw [hone h.uids h2]
    exact short_idsLine (by decide) (by decide) hu
  by_cases h3 : gidKey.isPrefixOf line = true
  · rw [hone h.gids h3]
    exact short_idsLine (by decide) (by decide) hg
  refine h.other line hl ?_
  simp [isOther, h1, h2, h3, h.fdSize line hl]

/-- A line as it is read does not have the key of the count, if the line does not. -/
theorem startsWith_fdSizeKey (h : ∀ line ∈ lines, fdSizeKey.isPrefixOf line = false) :
    ∀ line ∈ lines.map (· ++ [ch '\n']), startsWith line fdSizeKey = false := by
  intro line hl
  obtain ⟨l, hm, rfl⟩ := List.mem_map.mp hl
  rw [startsWith_newline (by decide) (by decide)]
  exact h l hm

theorem credLines_countOf (hs : ∀ line ∈ lines, Short line)
    (hk : ∀ line ∈ lines, fdSizeKey.isPrefixOf line = false) (hf : fdSize < 2 ^ 31)
    (he : Ends rest) :
    credLines (fgetsLines 256 (unlines (ch '\n') lines ++ (fdSizeLine fdSize ++ rest))) =
        lines.map (· ++ [ch '\n']) ∧
      countOf (fgetsLines 256 (unlines (ch '\n') lines ++ (fdSizeLine fdSize ++ rest))) =
        fdSize := by
  obtain ⟨e, more, hr, hee⟩ := fgetsLines_fdSize hf he
  have hno := startsWith_fdSizeKey hk
  have hyes : startsWith (fdSizeLine fdSize ++ e) fdSizeKey = true := by
    rw [startsWith_eq (by decide), List.isPrefixOf_iff_prefix, fdSizeLine, List.append_assoc]
    exact List.prefix_append _ _
  rw [fgetsLines_unlines _ hs, hr]
  constructor
  · rw [credLines, List.takeWhile_append_of_pos fun line hl => by simp [hno line hl],
      List.takeWhile_cons_of_neg (by simp [hyes]), List.append_nil]
  · have hnone : (lines.map (· ++ [ch '\n'])).find? (startsWith · fdSizeKey) = none :=
      List.find?_eq_none.mpr fun line hl => by simp [hno line hl]
    have hsome : ((fdSizeLine fdSize ++ e) :: more).find? (startsWith · fdSizeKey) =
        some (fdSizeLine fdSize ++ e) := List.find?_cons_of_pos hyes
    rw [countOf, List.find?_append, hnone, Option.none_or, hsome, Option.map_some, Option.getD_some,
      fdSizeOf_fdSizeLine hf hee]

theorem lastOf_written {key line : List Byte} (h0 : 0 ∉ key) (hn : ch '\n' ∉ key)
    (hf : lines.filter (key.isPrefixOf ·) = [line]) :
    lastOf key (lines.map (· ++ [ch '\n'])) = some (line ++ [ch '\n']) := by
  rw [lastOf_newlines h0 hn, hf]
  rfl

theorem lastOf_absent {key : List Byte} (h0 : 0 ∉ key) (hn : ch '\n' ∉ key)
    (hk : ∀ line ∈ lines, key.isPrefixOf line = false) :
    lastOf key (lines.map (· ++ [ch '\n'])) = none := by
  have hf : lines.filter (key.isPrefixOf ·) = [] :=
    List.filter_eq_nil_iff.mpr fun line hl => by simp [hk line hl]
  rw [lastOf_newlines h0 hn, hf]
  rfl

end File

/-- `prfs_status` returns `0` and sets the numbers. -/
def Recovered (p : Proc) (f : Files) (tgid : ℕ) (uids gids : Ids) (fdSize : ℕ) : Prop :=
  (prfsStatus p f).1 = 0 ∧ (prfsStatus p f).2.tgid = tgid ∧
    (prfsStatus p f).2.ruid = uids.real ∧ (prfsStatus p f).2.euid = uids.effective ∧
    (prfsStatus p f).2.rgid = gids.real ∧ (prfsStatus p f).2.egid = gids.effective ∧
    (prfsStatus p f).2.fdCoun = fdSize

section Calls
variable {p : Proc} {f : Files} {tgid fdSize : ℕ} {uids gids : Ids} {lines : List (List Byte)}
  {last rest : List Byte}

theorem recovered_of_written (ht : tgid < 2 ^ 31) (hu : uids.Fit) (hg : gids.Fit)
    (hfd : fdSize < 2 ^ 31) (hw : Written tgid uids gids lines) (he : Ends rest)
    (hf : f.status = some (unlines (ch '\n') lines ++ (fdSizeLine fdSize ++ rest))) :
    Recovered p f tgid uids gids fdSize := by
  obtain ⟨hcred, hcount⟩ := credLines_countOf (hw.short ht hu hg) hw.fdSize hfd he
  have hlt := lastOf_written (by decide) (by decide) hw.tgid
  have hlu := lastOf_written (by decide) (by decide) hw.uids
  have hlg := lastOf_written (by decide) (by decide) hw.gids
  have htgid := tgidOf_tgidLine ht lineEnd_newline
  have huid := idsOf_idsLine uidKey (by decide) (by decide) hu lineEnd_newline
  have hgid := idsOf_idsLine gidKey (by decide) (by decide) hg lineEnd_newline
  have hnot : ¬ Incomplete (fgetsLines 256
      (unlines (ch '\n') lines ++ (fdSizeLine fdSize ++ rest))) := by
    rw [Incomplete, hcred, hcount, hlt, Option.map_some, Option.getD_some, htgid]
    rintro (h | h)
    · have hz : (tgid : ℤ) = -1 := h
      omega
    · omega
  have heq := prfsStatus_eq p hf
  rw [if_neg hnot, hcred, hcount] at heq
  unfold Recovered
  rw [heq]
  simp only [filled, hlt, hlu, hlg, Option.map_some, Option.getD_some, htgid, huid, hgid]
  exact ⟨trivial, trivial, trivial, trivial, trivial, trivial, trivial⟩

theorem failed_of_noTgid (hs : ∀ line ∈ lines, Short line)
    (hk : ∀ line ∈ lines, fdSizeKey.isPrefixOf line = false)
    (ht : ∀ line ∈ lines, tgidKey.isPrefixOf line = false) (hfd : fdSize < 2 ^ 31)
    (he : Ends rest)
    (hf : f.status = some (unlines (ch '\n') lines ++ (fdSizeLine fdSize ++ rest))) :
    (prfsStatus p f).1 = -1 := by
  obtain ⟨hcred, -⟩ := credLines_countOf hs hk hfd he
  have hno : Incomplete (fgetsLines 256
      (unlines (ch '\n') lines ++ (fdSizeLine fdSize ++ rest))) := by
    rw [Incomplete, hcred, lastOf_absent (by decide) (by decide) ht]
    exact Or.inl rfl
  rw [prfsStatus_eq p hf, if_pos hno]

theorem failed_of_noFdSize (hs : ∀ line ∈ lines, Short line)
    (hk : ∀ line ∈ lines, fdSizeKey.isPrefixOf line = false) (hl : Short last)
    (hlk : fdSizeKey.isPrefixOf last = false)
    (hf : f.status = some (unlines (ch '\n') lines ++ last)) : (prfsStatus p f).1 = -1 := by
  have hno : Incomplete (fgetsLines 256 (unlines (ch '\n') lines ++ last)) := by
    have hnone : ∀ line ∈ lines.map (· ++ [ch '\n']) ++ fgetsLines 256 last,
        startsWith line fdSizeKey = false := by
      intro line hm
      rcases List.mem_append.mp hm with hm | hm
      · exact startsWith_fdSizeKey hk line hm
      · rw [mem_fgetsLines_short hl hm, startsWith_eq (by decide)]
        exact hlk
    have hfind : (lines.map (· ++ [ch '\n']) ++ fgetsLines 256 last).find?
        (startsWith · fdSizeKey) = none :=
      List.find?_eq_none.mpr fun line hm => by simp [hnone line hm]
    rw [Incomplete, fgetsLines_unlines _ hs, countOf, hfind]
    exact Or.inr rfl
  rw [prfsStatus_eq p hf, if_pos hno]

end Calls

/-- **The numbers of a status file are recovered**, and a file without a thread group or without a
count is refused. -/
theorem recovers (p : Proc) (f : Files) :
    (∀ (tgid fdSize : ℕ) (uids gids : Ids) (lines : List (List Byte)) (rest : List Byte),
      tgid < 2 ^ 31 → fdSize < 2 ^ 31 → uids.Fit → gids.Fit → Written tgid uids gids lines →
      Ends rest → f.status = some (unlines (ch '\n') lines ++ (fdSizeLine fdSize ++ rest)) →
      Recovered p f tgid uids gids fdSize) ∧
    (∀ (fdSize : ℕ) (lines : List (List Byte)) (rest : List Byte), fdSize < 2 ^ 31 →
      (∀ line ∈ lines, Short line) → (∀ line ∈ lines, fdSizeKey.isPrefixOf line = false) →
      (∀ line ∈ lines, tgidKey.isPrefixOf line = false) → Ends rest →
      f.status = some (unlines (ch '\n') lines ++ (fdSizeLine fdSize ++ rest)) →
      (prfsStatus p f).1 = -1) ∧
    (∀ (lines : List (List Byte)) (last : List Byte), (∀ line ∈ lines, Short line) → Short last →
      (∀ line ∈ lines, fdSizeKey.isPrefixOf line = false) → fdSizeKey.isPrefixOf last = false →
      f.status = some (unlines (ch '\n') lines ++ last) → (prfsStatus p f).1 = -1) :=
  ⟨fun _ _ _ _ _ _ ht hfd hu hg hw he hf => recovered_of_written ht hu hg hfd hw he hf,
    fun _ _ _ hfd hs hk ht he hf => failed_of_noTgid hs hk ht hfd he hf,
    fun _ _ hs hl hk hlk hf => failed_of_noFdSize hs hk hl hlk hf⟩

/-- The ids of a process of the user 1000 with the rights of root. -/
def setuid : Ids := ⟨1000, 0, 0, 0⟩

/-- The lines of a process 7, with a key that ends like another one. -/
def someLines : List (List Byte) :=
  [ascii ['N', 'a', 'm', 'e', ':', '\t', 'a'], tgidLine 7,
    ascii ['N', 'g', 'i', 'd', ':', '\t', '0'], idsLine uidKey setuid, idsLine gidKey setuid]

/-- The file with the answer `status`. -/
def statusFile (status : List Byte) : Files := ⟨none, [], some status, none, true⟩

theorem written_someLines : Written 7 setuid setuid someLines := by
  refine ⟨by decide, by decide, by decide, by decide, ?_⟩
  intro line hl _
  have hall : ∀ line ∈ someLines, line.length < 255 ∧ ch '\n' ∉ line := by decide
  exact hall line hl

theorem recovers_someLines :
    Recovered Proc.zero
      (statusFile (unlines (ch '\n') someLines ++ (fdSizeLine 64 ++ [ch '\n']))) 7 setuid setuid
      64 ∧
    (prfsStatus Proc.zero (statusFile (unlines (ch '\n') [] ++ (fdSizeLine 64 ++ [])))).1 = -1 ∧
    (prfsStatus Proc.zero (statusFile (unlines (ch '\n') [tgidLine 7] ++ []))).1 = -1 := by
  have hfit : setuid.Fit := by
    unfold Ids.Fit
    decide
  exact ⟨(recovers _ _).1 7 64 setuid setuid someLines [ch '\n'] (by decide) (by decide) hfit hfit
      written_someLines (Or.inr ⟨[], rfl⟩) rfl,
    (recovers _ _).2.1 64 [] [] (by decide) (by simp) (by simp) (by simp) (Or.inl rfl) rfl,
    (recovers _ _).2.2 [tgidLine 7] [] (by simpa using short_tgidLine (by decide))
      ⟨by decide, by decide⟩ (by decide) (by decide) rfl⟩

end Serie.Records.StatusText
