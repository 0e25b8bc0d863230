import Serie.Lib.Decimal
import Serie.Model.Prfs

/-! # The stat line

`prfs_stat` takes the name between the first `(` and the last `)` of the first line
(`statParse_eq`). A name of parentheses, blanks and digits comes back as it was written, since
nothing behind it has a parenthesis. A name with a newline does not: the line ends inside of it
(`undoes_iff`). -/

namespace Serie.Records.StatText

open Serie.Lib.CText Serie.Lib.Decimal Serie.Model.Record Serie.Model.Prfs

/-! ### The parse of a line -/

section Parse
variable {a name b stale : List Byte}

/-- **`statParse`** on a line with an opening and a closing parenthesis. -/
theorem statParse_eq (ha : 0 ∉ a ∧ ch '(' ∉ a) (hn : 0 ∉ name) (hb : 0 ∉ b ∧ ch ')' ∉ b) :
    statParse (a ++ ch '(' :: (name ++ ch ')' :: (b ++ 0 :: stale))) =
      some ⟨name.take 15, deref (skipSpac (b ++ 0 :: stale)),
        toInt32 (strtol (skipSpac ((skipSpac (b ++ 0 :: stale)).drop 1))).1⟩ := by
  set buff := a ++ ch '(' :: (name ++ ch ')' :: (b ++ 0 :: stale)) with hbuff
  have hassoc : buff = (a ++ ch '(' :: (name ++ ch ')' :: b)) ++ 0 :: stale := by
    simp [hbuff]
  have hline : cstr buff = a ++ ch '(' :: (name ++ ch ')' :: b) := by
    rw [hassoc]
    refine cstr_append_zero ?_
    simp only [List.mem_append, List.mem_cons, not_or]
    exact ⟨ha.1, by decide, hn, by decide, hb.1⟩
  have hstart : strchr buff (ch '(') = some a.length := strchr_append ha.1 ha.2 (by decide)
  have hend : strrchr buff (ch ')') = some (a.length + 1 + name.length) := by
    have hlen : (a ++ ch '(' :: name).length = a.length + 1 + name.length := by
      rw [List.length_append, List.length_cons]
      omega
    rw [← hlen]
    refine strrchr_append ?_ hb.2
    rw [hline]
    simp
  have hname : buff.drop (a.length + 1) = name ++ ch ')' :: (b ++ 0 :: stale) := by
    rw [hbuff, ← List.drop_drop, List.drop_left]
    rfl
  have hrest : buff.drop (a.length + 1 + name.length + 1) = b ++ 0 :: stale := by
    rw [← List.drop_drop, ← List.drop_drop, hname, List.drop_left]
    rfl
  have hsize : a.length + 1 + name.length - (a.length + 1) = name.length := by omega
  have htake : (name ++ ch ')' :: (b ++ 0 :: stale)).take (min 15 name.length) = name.take 15 := by
    rw [List.take_append_of_le_length (Nat.min_le_right _ _), ← List.take_take, List.take_length]
  simp only [statParse, hstart, hend, hsize, hname, hrest, htake]
  rw [if_neg (by omega)]

theorem statParse_none {line : List Byte} (h0 : 0 ∉ line) (hc : ch ')' ∉ line) :
    statParse (line ++ 0 :: stale) = none := by
  have hnone : strrchr (line ++ 0 :: stale) (ch ')') = none :=
    strrchr_of_notMem (by rw [cstr_append_zero h0]; exact hc)
  unfold statParse
  rw [hnone]
  rcases strchr (line ++ 0 :: stale) (ch '(') with _ | i <;> rfl

end Parse

/-! ### The text of the kernel -/

/-- A letter. -/
def isLetter (b : Byte) : Bool := (65 ≤ b ∧ b ≤ 90) ∨ (97 ≤ b ∧ b ≤ 122)

/-- The fields behind the parent. -/
def fieldsText (fields : List ℤ) : List Byte := fields.flatMap fun z => ch ' ' :: signed z

/-- `/proc/<pid>/stat`, with the name written as it is. -/
def statText (pid : Pid) (comm : List Byte) (state : Byte) (ppid : ℕ) (fields : List ℤ)
    (eol : List Byte) : List Byte :=
  (signed pid ++ [ch ' ']) ++ ch '(' :: (comm ++ ch ')' ::
    (ch ' ' :: state :: ch ' ' :: (decimal ppid ++ (fieldsText fields ++ eol))))

/-- `prfs_stat` returns `0` and sets the name, the state and the parent. -/
def Undoes (p : Proc) (f : Files) (comm : List Byte) (state : Byte) (ppid : ℕ) : Prop :=
  (prfsStat p f).1 = 0 ∧ (prfsStat p f).2.name = comm ∧ (prfsStat p f).2.state = state ∧
    (prfsStat p f).2.ppid = ppid

theorem undoes_iff_statRead {p : Proc} {f : Files} {comm : List Byte} {state : Byte} {ppid : ℕ} :
    Undoes p f comm state ppid ↔ statRead f = some ⟨comm, state, ppid⟩ := by
  unfold Undoes prfsStat
  rcases statRead f with _ | ⟨n, s, q⟩
  · simp
  · simp

/-! ### Reading it -/

section Text
variable {p : Proc} {f : Files} {pid : Pid} {comm : List Byte} {state : Byte} {ppid : ℕ}
  {fields : List ℤ} {eol : List Byte}

theorem notMem_fieldsText {b : Byte} (h : isDigit b = false) (hm : b ≠ ch '-') (hs : b ≠ ch ' ') :
    b ∉ fieldsText fields := by
  intro hb
  obtain ⟨z, -, hz⟩ := List.mem_flatMap.mp hb
  rcases List.mem_cons.mp hz with hz | hz
  · exact hs hz
  · exact notMem_signed h hm hz

theorem notMem_front {b : Byte} (h : isDigit b = false) (hm : b ≠ ch '-') (hs : b ≠ ch ' ') :
    b ∉ signed pid ++ [ch ' '] := by
  rw [List.mem_append, List.mem_singleton, not_or]
  exact ⟨notMem_signed h hm, hs⟩

theorem isLetter_ne (h : isLetter state = true) :
    state ≠ ch ' ' ∧ state ≠ ch ')' ∧ state ≠ ch '\n' ∧ state ≠ 0 := by
  refine ⟨?_, ?_, ?_, ?_⟩ <;> rintro rfl <;> exact absurd h (by decide)

/-- The part of the fields and the end that `fgets` reads: fields and at most a newline. -/
structure FieldsRead (fields : List ℤ) (eol m : List Byte) : Prop where
  mem : ∀ b ∈ m, b ∈ fieldsText fields ∨ b = ch '\n'
  pre : ∃ r, m ++ r = fieldsText fields ++ eol

theorem FieldsRead.notMem {m : List Byte} (hm : FieldsRead fields eol m) {b : Byte}
    (h : isDigit b = false) (h1 : b ≠ ch '-') (h2 : b ≠ ch ' ') (h3 : b ≠ ch '\n') : b ∉ m :=
  fun hb => (hm.mem b hb).elim (notMem_fieldsText h h1 h2) h3

/-- The parent ends where the fields begin, however much of them is read. -/
theorem FieldsRead.isDigit_deref {m stale : List Byte} (hm : FieldsRead fields eol m)
    (he : Ends eol) : isDigit (deref (m ++ 0 :: stale)) = false := by
  obtain ⟨r, hr⟩ := hm.pre
  rcases m with _ | ⟨b, m⟩
  · rfl
  have hhead := congrArg List.head? hr
  rcases fields with _ | ⟨z, fields⟩
  · rcases he with rfl | ⟨t, rfl⟩
    · cases hhead
    · cases hhead
      rfl
  · cases hhead
    rfl

/-- The line that is read begins with whatever is written before the fields. -/
theorem exists_fieldsRead {text head : List Byte} (hf : f.stat = some text) (hne : head ≠ [])
    (htext : text = head ++ (fieldsText fields ++ eol)) (hl : head.length ≤ 1023)
    (hnl : ch '\n' ∉ head) (he : Ends eol) :
    ∃ m, FieldsRead fields eol m ∧ statRead f = statParse (head ++ (m ++ 0 :: f.stale)) := by
  refine ⟨(takeLine (1023 - head.length) (fieldsText fields ++ eol)).1,
    ⟨fun b hb => ?_, _, takeLine_append_rest _ _⟩, ?_⟩
  · exact mem_takeLine (notMem_fieldsText (by decide) (by decide) (by decide)) he hb
  · have htn : text ≠ [] := by
      rw [htext]
      exact List.append_ne_nil_of_left_ne_nil hne _
    simp only [statRead, hf, fgets, if_neg htn]
    rw [htext, takeLine_append hnl hl, List.append_assoc]

theorem skipSpac_decimal (n : ℕ) (t : List Byte) : skipSpac (decimal n ++ t) = decimal n ++ t := by
  obtain ⟨b, ds, hds⟩ := List.exists_cons_of_ne_nil (decimal_ne_nil n)
  have hb : b ≠ ch ' ' := by
    rintro rfl
    have hmem : ch ' ' ∈ decimal n := by
      rw [hds]
      exact List.mem_cons_self
    exact notMem_decimal (by decide) hmem
  rw [hds, List.cons_append, skipSpac, List.dropWhile_cons_of_neg (by simpa using hb)]

/-- **The parse of the line**, behind the name. -/
theorem statParse_text {m stale : List Byte} (hm : FieldsRead fields eol m) (he : Ends eol)
    (hlen : comm.length ≤ 15) (h0 : 0 ∉ comm) (hst : isLetter state = true) (hpp : ppid < 2 ^ 31) :
    statParse ((signed pid ++ [ch ' ']) ++ ch '(' :: (comm ++ ch ')' ::
      (ch ' ' :: state :: ch ' ' :: (decimal ppid ++ m) ++ 0 :: stale))) =
        some ⟨comm, state, ppid⟩ := by
  obtain ⟨hblank, hparen, -, hnull⟩ := isLetter_ne hst
  have hskip : skipSpac (ch ' ' :: state :: ch ' ' :: (decimal ppid ++ m) ++ 0 :: stale) =
      state :: ch ' ' :: (decimal ppid ++ (m ++ 0 :: stale)) := by
    rw [skipSpac, List.cons_append, List.dropWhile_cons_of_pos (by decide), List.cons_append,
      List.dropWhile_cons_of_neg (by simpa using hblank), List.cons_append, List.append_assoc]
  have hskip' : skipSpac (ch ' ' :: (decimal ppid ++ (m ++ 0 :: stale))) =
      decimal ppid ++ (m ++ 0 :: stale) :=
    (List.dropWhile_cons_of_pos (by decide)).trans (skipSpac_decimal _ _)
  have hnum : (strtol (decimal ppid ++ (m ++ 0 :: stale))).1 = ppid := by
    have hr : strtol ([] ++ (decimal ppid ++ (m ++ 0 :: stale))) = ((ppid : ℤ), m ++ 0 :: stale) :=
      strtol_decimal (by simp) (by omega) (hm.isDigit_deref he)
    rw [List.nil_append] at hr
    exact congrArg Prod.fst hr
  have hfront : 0 ∉ signed pid ++ [ch ' '] ∧ ch '(' ∉ signed pid ++ [ch ' '] :=
    ⟨notMem_front (by decide) (by decide) (by decide),
      notMem_front (by decide) (by decide) (by decide)⟩
  have hback : 0 ∉ ch ' ' :: state :: ch ' ' :: (decimal ppid ++ m) ∧
      ch ')' ∉ ch ' ' :: state :: ch ' ' :: (decimal ppid ++ m) := by
    simp only [List.mem_append, List.mem_cons, not_or]
    exact ⟨⟨by decide, hnull.symm, by decide, notMem_decimal (by decide),
      hm.notMem (by decide) (by decide) (by decide) (by decide)⟩, by decide, hparen.symm,
      by decide, notMem_decimal (by decide),
      hm.notMem (by decide) (by decide) (by decide) (by decide)⟩
  rw [statParse_eq hfront h0 hback, hskip, List.drop_one, List.tail_cons, hskip', hnum,
    toInt32_of_lt hpp, List.take_of_length_le hlen]
  rfl

/-- **A name without a newline** is read back, with the state and the parent. -/
theorem statRead_of_notMem (hf : f.stat = some (statText pid comm state ppid fields eol))
    (hpid : pid.natAbs ≤ 2 ^ 31) (hlen : comm.length ≤ 15) (h0 : 0 ∉ comm)
    (hst : isLetter state = true) (hpp : ppid < 2 ^ 31) (he : Ends eol) (hnl : ch '\n' ∉ comm) :
    statRead f = some ⟨comm, state, ppid⟩ := by
  set head := (signed pid ++ [ch ' ']) ++ ch '(' :: (comm ++ ch ')' ::
    (ch ' ' :: state :: ch ' ' :: decimal ppid)) with hhead
  have htext : statText pid comm state ppid fields eol = head ++ (fieldsText fields ++ eol) := by
    simp [statText, hhead]
  have hshort : head.length ≤ 1023 := by
    have h1 := length_signed_le (z := pid) (k := 10) (by decide) (by omega)
    have h2 := length_decimal_le (n := ppid) (k := 10) (by decide) (by omega)
    simp only [hhead, List.length_append, List.length_cons, List.length_nil]
    omega
  have hno : ch '\n' ∉ head := by
    rw [hhead, List.mem_append, not_or]
    refine ⟨notMem_front (by decide) (by decide) (by decide), ?_⟩
    simp only [List.mem_append, List.mem_cons, not_or]
    exact ⟨by decide, hnl, by decide, by decide, (isLetter_ne hst).2.2.1.symm, by decide,
      notMem_decimal (by decide)⟩
  obtain ⟨m, hm, hr⟩ := exists_fieldsRead hf (by simp [hhead]) htext hshort hno he
  have hline : head ++ (m ++ 0 :: f.stale) = (signed pid ++ [ch ' ']) ++ ch '(' ::
      (comm ++ ch ')' :: (ch ' ' :: state :: ch ' ' :: (decimal ppid ++ m) ++ 0 :: f.stale)) := by
    simp [hhead]
  rw [hr, hline, statParse_text hm he hlen h0 hst hpp]

/-- A line that ends in the name: what is taken for the name is a part of what was read of it. -/
theorem mem_of_statParse {c stale : List Byte} {g : StatFields} (h0 : 0 ∉ c)
    (hg : statParse ((signed pid ++ [ch ' ']) ++ ch '(' :: (c ++ [ch '\n']) ++ 0 :: stale) =
      some g) : ∀ b ∈ g.name, b ∈ c := by
  have hfront : ∀ b : Byte, isDigit b = false → b ≠ ch '-' → b ≠ ch ' ' →
      b ∉ signed pid ++ [ch ' '] := fun b => notMem_front
  have hcn : 0 ∉ c ++ [ch '\n'] := by
    rw [List.mem_append, List.mem_singleton, not_or]
    exact ⟨h0, by decide⟩
  rcases Classical.em (ch ')' ∈ c) with hp | hp
  · obtain ⟨a, b, rfl, hb⟩ := exists_last hp
    rw [List.mem_append, List.mem_cons, not_or, not_or] at h0
    have hline : (signed pid ++ [ch ' ']) ++ ch '(' :: (a ++ ch ')' :: b ++ [ch '\n']) ++
        0 :: stale = (signed pid ++ [ch ' ']) ++ ch '(' ::
          (a ++ ch ')' :: (b ++ [ch '\n'] ++ 0 :: stale)) := by
      simp
    have hback : 0 ∉ b ++ [ch '\n'] ∧ ch ')' ∉ b ++ [ch '\n'] := by
      simp only [List.mem_append, List.mem_singleton, not_or]
      exact ⟨⟨h0.2.2, by decide⟩, hb, by decide⟩
    rw [hline, statParse_eq ⟨hfront 0 (by decide) (by decide) (by decide),
      hfront _ (by decide) (by decide) (by decide)⟩ h0.1 hback] at hg
    cases hg
    exact fun x hx => List.mem_append_left _ (List.mem_of_mem_take hx)
  · -- without a closing parenthesis there is no name
    have hline : 0 ∉ (signed pid ++ [ch ' ']) ++ ch '(' :: (c ++ [ch '\n']) ∧
        ch ')' ∉ (signed pid ++ [ch ' ']) ++ ch '(' :: (c ++ [ch '\n']) := by
      refine ⟨fun h => ?_, fun h => ?_⟩ <;>
        rcases List.mem_append.mp h with h | h
      · exact hfront 0 (by decide) (by decide) (by decide) h
      · exact (List.mem_cons.mp h).elim (by decide) hcn
      · exact hfront _ (by decide) (by decide) (by decide) h
      · rcases List.mem_cons.mp h with h | h
        · exact absurd h (by decide)
        · exact (List.mem_append.mp h).elim hp (by decide)
    rw [statParse_none hline.1 hline.2] at hg
    cases hg

/-- **A name with a newline** is not read back: the line that is read ends in it. -/
theorem statRead_ne_of_mem (hf : f.stat = some (statText pid comm state ppid fields eol))
    (hpid : pid.natAbs ≤ 2 ^ 31) (hlen : comm.length ≤ 15) (h0 : 0 ∉ comm)
    (hnl : ch '\n' ∈ comm) : statRead f ≠ some ⟨comm, state, ppid⟩ := by
  obtain ⟨c, c', hc, hcn⟩ := List.eq_append_cons_of_mem hnl
  set front := (signed pid ++ [ch ' ']) ++ ch '(' :: c with hfront
  have htext : statText pid comm state ppid fields eol = front ++ ch '\n' :: (c' ++ ch ')' ::
      (ch ' ' :: state :: ch ' ' :: (decimal ppid ++ (fieldsText fields ++ eol)))) := by
    rw [statText, hc, hfront]
    simp
  have hclen : c.length < comm.length := by
    rw [hc, List.length_append, List.length_cons]
    omega
  have hshort : front.length < 1023 := by
    have h1 := length_signed_le (z := pid) (k := 10) (by decide) (by omega)
    simp only [hfront, List.length_append, List.length_cons, List.length_nil]
    omega
  have hno : ch '\n' ∉ front := by
    rw [hfront, List.mem_append, List.mem_cons, not_or, not_or]
    exact ⟨notMem_front (by decide) (by decide) (by decide), by decide, hcn⟩
  have hc0 : 0 ∉ c := fun h => h0 (by rw [hc]; exact List.mem_append_left _ h)
  have hread : statRead f =
      statParse ((signed pid ++ [ch ' ']) ++ ch '(' :: (c ++ [ch '\n']) ++ 0 :: f.stale) := by
    have hne : statText pid comm state ppid fields eol ≠ [] := by
      rw [htext]
      simp
    simp only [statRead, hf, fgets, if_neg hne]
    rw [htext, takeLine_newline hno hshort, hfront]
    simp
  intro hs
  rw [hread] at hs
  exact hcn (mem_of_statParse hc0 hs _ hnl)

end Text

/-- **The stat line is undone exactly for the names without a newline.** -/
theorem undoes_iff {p : Proc} {f : Files} {pid : Pid} {comm : List Byte} {state : Byte} {ppid : ℕ}
    {fields : List ℤ} {eol : List Byte}
    (hf : f.stat = some (statText pid comm state ppid fields eol)) (hpid : pid.natAbs ≤ 2 ^ 31)
    (hlen : comm.length ≤ 15) (h0 : 0 ∉ comm) (hst : isLetter state = true)
    (hpp : ppid < 2 ^ 31) (he : Ends eol) :
    Undoes p f comm state ppid ↔ ch '\n' ∉ comm := by
  rw [undoes_iff_statRead]
  constructor
  · exact fun hs hnl => statRead_ne_of_mem hf hpid hlen h0 hnl hs
  · exact fun hnl => statRead_of_notMem hf hpid hlen h0 hst hpp he hnl

/-- The files of process 7, a sleeping child of 1 with the name `comm`. -/
def named (comm : List Byte) : Files :=
  ⟨some (statText 7 comm (ch 'S') 1 [7, -1] (ascii ['\n'])), [], none, none, true⟩

/-- A name that looks like the fields behind it. -/
theorem undoes_iff_forged :
    Undoes Proc.zero (named (ascii [')', ' ', 'R', ' ', '0', ' ', '(']))
      (ascii [')', ' ', 'R', ' ', '0', ' ', '(']) (ch 'S') 1 :=
  (undoes_iff rfl (by decide) (by decide) (by decide) (by decide) (by decide)
    (Or.inr ⟨[], rfl⟩)).mpr (by decide)

/-- A name with a newline cannot be read at all, one with a parenthesis before it is cut there and
brings its own state and parent. -/
theorem not_undoes_newline :
    prfsStat Proc.zero (named (ascii ['a', '\n', 'b'])) = (-1, Proc.zero) ∧
    ¬ Undoes Proc.zero (named (ascii ['a', '\n', 'b'])) (ascii ['a', '\n', 'b']) (ch 'S') 1 ∧
    statRead (named (ascii ['a', ')', ' ', 'Z', ' ', '9', '\n'])) =
      some ⟨ascii ['a'], ch 'Z', 9⟩ := by
  have hread : statRead (named (ascii ['a', '\n', 'b'])) = none := by decide
  refine ⟨by rw [prfsStat, hread], fun h => ?_, by decide⟩
  rw [undoes_iff_statRead, hread] at h
  cases h

end Serie.Records.StatText
