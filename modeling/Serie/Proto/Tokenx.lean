import Serie.Model.Proto
import Serie.Records.StatText

/-! # The parser of the prototype

`tokenx` takes the last `)` of a stat line like `prfs_stat` does, but also the last `(`: its start
index moves on with every `(`. So its name is what follows the last `(` of the name (`tokenx_text`),
and the two parsers agree on a line exactly when the name has no `(` and the parent fits an `int`
(`agrees_iff`). -/

namespace Serie.Proto.Tokenx

open Serie.Lib.CText Serie.Lib.Decimal Serie.Model.Record Serie.Model.Prfs Serie.Model.Proto
open Serie.Records.StatText

/-! ### The loop -/

section Loop
variable {i a : ℕ} {b : Option ℕ} {x y v w rest : List Byte}

theorem tokenxLoop_append : tokenxLoop i a b (x ++ y) =
    tokenxLoop (i + x.length) (tokenxLoop i a b x).1 (tokenxLoop i a b x).2 y := by
  induction x generalizing i a b with
  | nil => rfl
  | cons c x ih =>
    rw [List.cons_append, tokenxLoop, ih, List.length_cons, Nat.add_assoc, Nat.add_comm 1]
    rfl

theorem tokenxLoop_fst (h : ch '(' ∉ x) : (tokenxLoop i a b x).1 = a := by
  induction x generalizing i b with
  | nil => rfl
  | cons c x ih =>
    rw [List.mem_cons, not_or] at h
    rw [tokenxLoop, if_neg (Ne.symm h.1), ih h.2]

theorem tokenxLoop_snd (h : ch ')' ∉ x) : (tokenxLoop i a b x).2 = b := by
  induction x generalizing i a with
  | nil => rfl
  | cons c x ih =>
    rw [List.mem_cons, not_or] at h
    rw [tokenxLoop, if_neg (Ne.symm h.1), ih h.2]

theorem tokenxLoop_open (h : ch '(' ∉ y) :
    (tokenxLoop i a b (x ++ ch '(' :: y)).1 = i + x.length + 1 := by
  rw [tokenxLoop_append, tokenxLoop, if_pos rfl, tokenxLoop_fst h]

theorem tokenxLoop_close (h : ch ')' ∉ y) :
    (tokenxLoop i a b (x ++ ch ')' :: y)).2 = some (i + x.length) := by
  rw [tokenxLoop_append, tokenxLoop, if_pos rfl, tokenxLoop_snd h]

/-- **The name lies between the last `(` and the last `)`.** -/
theorem tokenx_eq (hv : ch '(' ∉ v) (ho : ch '(' ∉ rest) (hc : ch ')' ∉ rest) :
    tokenx (w ++ ch '(' :: (v ++ ch ')' :: rest)) =
      some (v :: (pySplit (rest.drop 1)).take 2) := by
  set x := w ++ ch '(' :: (v ++ ch ')' :: rest) with hx
  have hopen : (tokenxLoop 0 0 none x).1 = w.length + 1 := by
    rw [hx, tokenxLoop_open, Nat.zero_add]
    rw [List.mem_append, List.mem_cons, not_or, not_or]
    exact ⟨hv, by decide, ho⟩
  have hx' : x = (w ++ ch '(' :: v) ++ ch ')' :: rest := by
    rw [hx]
    simp
  have hclose : (tokenxLoop 0 0 none x).2 = some (w ++ ch '(' :: v).length := by
    rw [hx', tokenxLoop_close hc, Nat.zero_add]
  have hloop : tokenxLoop 0 0 none x = (w.length + 1, some (w ++ ch '(' :: v).length) :=
    Prod.ext hopen hclose
  have hname : pySlice x (w.length + 1) (w ++ ch '(' :: v).length = v := by
    rw [pySlice, hx', List.take_left, ← List.drop_drop, List.drop_left]
    rfl
  have hrest : x.drop ((w ++ ch '(' :: v).length + 2) = rest.drop 1 := by
    rw [hx', ← List.drop_drop, List.drop_left]
    rfl
  rw [tokenx, hloop]
  dsimp only
  rw [hname, hrest]

end Loop

/-! ### Tokens and numbers -/

section Token
variable {w rest : List Byte} {n : ℕ}

/-- The text ends here, or a blank follows. -/
def AtBlank (rest : List Byte) : Prop := rest = [] ∨ ∃ s t, rest = s :: t ∧ isBlank s = true

theorem pySplit_append (hw : w ≠ []) (hb : ∀ b ∈ w, isBlank b = false) (hr : AtBlank rest) :
    pySplit (w ++ rest) = w :: pySplit (rest.drop 1) := by
  rcases hr with rfl | ⟨s, t, rfl, hs⟩
  · rw [List.append_nil, pySplit, List.splitOnP_eq_singleton hb]
    simp [pySplit, hw]
  · rw [pySplit, List.splitOnP_append_cons_of_forall_mem hb s hs,
      List.filter_cons_of_pos (by simpa using hw)]
    rfl

theorem isBlank_of_isDigit {b : Byte} (h : isDigit b = true) : isBlank b = false := by
  have := isDigit_iff.mp h
  simp only [isBlank, UInt8.le_iff_toNat_le, ← UInt8.toNat_inj]
  simp
  omega

theorem intDigits_eq {ds : List Byte} (h : ∀ b ∈ ds, isDigit b = true) (v : ℕ) :
    intDigits v ds = some (ds.foldl (fun v b => 10 * v + (b.toNat - 48)) v) := by
  induction ds generalizing v with
  | nil => rfl
  | cons b ds ih =>
    rw [intDigits, if_pos (h b List.mem_cons_self), ih fun c hc => h c (List.mem_cons_of_mem b hc)]
    rfl

theorem pyInt_decimal (n : ℕ) : pyInt (decimal n) = some (n : ℤ) := by
  have hdigit : ∀ b ∈ decimal n, isDigit b = true := fun b hb => isDigit_of_mem hb
  obtain ⟨b, ds, hds⟩ := List.exists_cons_of_ne_nil (decimal_ne_nil n)
  have hb : isDigit b = true := hdigit b (by rw [hds]; exact List.mem_cons_self)
  have hstrip : ((decimal n).dropWhile isSpace).rdropWhile isSpace = decimal n := by
    have hdrop : (decimal n).dropWhile isSpace = decimal n := by
      rw [hds, List.dropWhile_cons_of_neg (by simp [isSpace_of_isDigit hb])]
    rw [hdrop, List.rdropWhile_eq_self_iff]
    intro hl
    simp [isSpace_of_isDigit (hdigit _ (List.getLast_mem hl))]
  have hhead : deref (decimal n) = b := by
    rw [hds]
    rfl
  have hm : b ≠ ch '-' := by
    rintro rfl
    exact absurd hb (by decide)
  have hp : b ≠ ch '+' := by
    rintro rfl
    exact absurd hb (by decide)
  have habs : intAbs (decimal n) = some n := by
    rw [intAbs, hhead, if_pos hb, intDigits_eq hdigit, ← digitsVal, digitsVal_decimal]
  simp only [pyInt, hstrip, hhead, if_neg hm, if_neg hp, habs]
  rfl

end Token

/-! ### The two parsers -/

section Text
variable {p : Proc} {f : Files} {pid : Pid} {comm : List Byte} {state : Byte} {ppid : ℕ}
  {fields : List ℤ} {eol : List Byte}

/-- `tokenx` returns the name, the state and the parent that `prfs_stat` stores in the record. -/
def Agrees (p : Proc) (f : Files) (text : List Byte) : Prop :=
  ∃ name state ppid, tokenx text = some [name, state, ppid] ∧ (prfsStat p f).1 = 0 ∧
    name = (prfsStat p f).2.name ∧ state = [(prfsStat p f).2.state] ∧
    pyInt ppid = some (prfsStat p f).2.ppid

/-- The printable ASCII characters. -/
def Printable (comm : List Byte) : Prop := ∀ b ∈ comm, 32 ≤ b ∧ b ≤ 126

instance (comm : List Byte) : Decidable (Printable comm) :=
  decidable_of_iff (comm.all fun b => 32 ≤ b ∧ b ≤ 126) (by simp [Printable])

theorem Printable.notMem (h : Printable comm) {b : Byte} (hb : b < 32) : b ∉ comm := fun hm =>
  absurd (h b hm).1 (UInt8.not_le.mpr hb)

theorem isBlank_of_isLetter (h : isLetter state = true) : isBlank state = false := by
  simp only [isLetter, isBlank, UInt8.le_iff_toNat_le, ← UInt8.toNat_inj] at h ⊢
  simp at h ⊢
  omega

theorem atBlank_fields (he : eol = [] ∨ eol = [ch '\n']) : AtBlank (fieldsText fields ++ eol) := by
  rcases fields with _ | ⟨z, fields⟩
  · rcases he with rfl | rfl
    · exact Or.inl rfl
    · exact Or.inr ⟨ch '\n', [], rfl, by decide⟩
  · exact Or.inr ⟨ch ' ', _, rfl, by decide⟩

/-- The part of the line behind the name. -/
def behind (state : Byte) (ppid : ℕ) (fields : List ℤ) (eol : List Byte) : List Byte :=
  ch ' ' :: state :: ch ' ' :: (decimal ppid ++ (fieldsText fields ++ eol))

theorem notMem_behind (hst : isLetter state = true) (he : eol = [] ∨ eol = [ch '\n']) {b : Byte}
    (hb : b = ch '(' ∨ b = ch ')') : b ∉ behind state ppid fields eol := by
  have hne : isDigit b = false ∧ b ≠ ch '-' ∧ b ≠ ch ' ' ∧ isLetter b = false ∧ b ≠ ch '\n' := by
    rcases hb with rfl | rfl <;> decide
  obtain ⟨hdigit, hminus, hblank, hletter, hnl⟩ := hne
  have hstate : b ≠ state := by
    rintro rfl
    rw [hst] at hletter
    cases hletter
  have heol : b ∉ eol := by
    rcases he with rfl | rfl
    · exact List.not_mem_nil
    · simpa using hnl
  simp only [behind, List.mem_cons, List.mem_append, not_or]
  exact ⟨hblank, hstate, hblank, notMem_decimal hdigit, notMem_fieldsText hdigit hminus hblank,
    heol⟩

theorem pySplit_behind (hst : isLetter state = true) (he : eol = [] ∨ eol = [ch '\n']) :
    (pySplit ((behind state ppid fields eol).drop 1)).take 2 = [[state], decimal ppid] := by
  have hstate : pySplit ([state] ++ ch ' ' :: (decimal ppid ++ (fieldsText fields ++ eol))) =
      [state] :: pySplit (decimal ppid ++ (fieldsText fields ++ eol)) :=
    pySplit_append (by simp) (by simpa using isBlank_of_isLetter hst)
      (Or.inr ⟨ch ' ', _, rfl, by decide⟩)
  have hppid : pySplit (decimal ppid ++ (fieldsText fields ++ eol)) =
      decimal ppid :: pySplit ((fieldsText fields ++ eol).drop 1) :=
    pySplit_append (decimal_ne_nil ppid) (fun b hb => isBlank_of_isDigit (isDigit_of_mem hb))
      (atBlank_fields he)
  rw [behind, List.drop_one, List.tail_cons]
  refine (congrArg (List.take 2) hstate).trans ?_
  rw [hppid]
  rfl

/-- **What `tokenx` returns**: the state and the parent are right, the name is if it has no `(`. -/
theorem tokenx_text (hst : isLetter state = true) (he : eol = [] ∨ eol = [ch '\n']) :
    ∃ v, tokenx (statText pid comm state ppid fields eol) = some [v, [state], decimal ppid] ∧
      (v = comm ↔ ch '(' ∉ comm) := by
  have htok : ∀ w v, ch '(' ∉ v → tokenx (w ++ ch '(' :: (v ++ ch ')' ::
      behind state ppid fields eol)) = some [v, [state], decimal ppid] := by
    intro w v hv
    rw [tokenx_eq hv (notMem_behind hst he (Or.inl rfl)) (notMem_behind hst he (Or.inr rfl)),
      pySplit_behind hst he]
  rcases Classical.em (ch '(' ∈ comm) with hp | hp
  · obtain ⟨u, v, rfl, hv⟩ := exists_last hp
    have htext : statText pid (u ++ ch '(' :: v) state ppid fields eol =
        ((signed pid ++ [ch ' ']) ++ ch '(' :: u) ++
          ch '(' :: (v ++ ch ')' :: behind state ppid fields eol) := by
      rw [statText, behind]
      simp
    refine ⟨v, by rw [htext, htok _ _ hv], iff_of_false (fun h => ?_) (not_not_intro hp)⟩
    have := congrArg List.length h
    rw [List.length_append, List.length_cons] at this
    omega
  · exact ⟨comm, htok _ _ hp, iff_of_true rfl hp⟩

theorem exists_toInt32 {g : StatFields} (h : statRead f = some g) : ∃ z, g.ppid = toInt32 z := by
  unfold statRead statParse at h
  split at h
  · cases h
  · split at h
    · cases h
    · dsimp only at h
      split at h
      · split_ifs at h
        cases h
        exact ⟨_, rfl⟩
      · cases h

theorem ppid_lt (h : (prfsStat p f).1 = 0) : (prfsStat p f).2.ppid < 2 ^ 31 := by
  unfold prfsStat at h ⊢
  rcases hs : statRead f with _ | g
  · rw [hs] at h
    cases h
  · obtain ⟨z, hz⟩ := exists_toInt32 hs
    show g.ppid < 2 ^ 31
    rw [hz]
    exact Int.bmod_lt (by decide)

/-- **The parsers agree** on a stat line exactly when the name has no opening parenthesis and the
parent is an `int`. -/
theorem agrees_iff (hf : f.stat = some (statText pid comm state ppid fields eol))
    (hpid : pid.natAbs ≤ 2 ^ 31) (hlen : comm.length ≤ 15) (hc : Printable comm)
    (hst : isLetter state = true) (he : eol = [] ∨ eol = [ch '\n']) :
    Agrees p f (statText pid comm state ppid fields eol) ↔ ch '(' ∉ comm ∧ ppid < 2 ^ 31 := by
  have hends : Ends eol := he.imp id fun h => ⟨[], h⟩
  have hundo : ppid < 2 ^ 31 → Undoes p f comm state ppid := fun hpp =>
    (undoes_iff hf hpid hlen (hc.notMem (by decide)) hst hpp hends).mpr (hc.notMem (by decide))
  obtain ⟨v, htok, hv⟩ := @tokenx_text pid comm state ppid fields eol hst he
  constructor
  · rintro ⟨name, st, pp, ht, h0, hname, -, hpp⟩
    rw [htok] at ht
    cases ht
    rw [pyInt_decimal] at hpp
    have hlt : ppid < 2 ^ 31 := by
      have hz : (ppid : ℤ) < 2 ^ 31 := (Option.some.inj hpp).trans_lt (ppid_lt h0)
      omega
    exact ⟨hv.mp (hname.trans (hundo hlt).2.1), hlt⟩
  · rintro ⟨hp, hlt⟩
    obtain ⟨h0, hname, hstate, hppid⟩ := hundo hlt
    exact ⟨v, [state], decimal ppid, htok, h0, (hv.mpr hp).trans hname.symm, by rw [hstate],
      by rw [pyInt_decimal, hppid]⟩

end Text

/-- The stat line of process 7, a sleeping child of 1 with the name `comm`. -/
def line (comm : List Byte) : List Byte := statText 7 comm (ch 'S') 1 [7, -1] (ascii ['\n'])

/-- A name with blanks and closing parentheses. -/
theorem agrees_iff_closing :
    Agrees Proc.zero (named (ascii ['a', ' ', ')', ' ', 'b', ')']))
      (line (ascii ['a', ' ', ')', ' ', 'b', ')'])) ↔
    ch '(' ∉ ascii ['a', ' ', ')', ' ', 'b', ')'] ∧ 1 < 2 ^ 31 :=
  agrees_iff rfl (by decide) (by decide) (by decide) (by decide) (Or.inr rfl)

/-- A name with an opening parenthesis: `prfs_stat` stores it, `tokenx` cuts it there. -/
theorem not_agrees_opening :
    tokenx (line (ascii ['a', '(', 'b'])) = some [ascii ['b'], ascii ['S'], ascii ['1']] ∧
    (prfsStat Proc.zero (named (ascii ['a', '(', 'b']))).2.name = ascii ['a', '(', 'b'] ∧
    ¬ Agrees Proc.zero (named (ascii ['a', '(', 'b'])) (line (ascii ['a', '(', 'b'])) := by
  have htok : tokenx (line (ascii ['a', '(', 'b'])) =
      some [ascii ['b'], ascii ['S'], ascii ['1']] := by decide
  have hname : (prfsStat Proc.zero (named (ascii ['a', '(', 'b']))).2.name =
      ascii ['a', '(', 'b'] := by decide
  refine ⟨htok, hname, ?_⟩
  rintro ⟨name, st, pp, ht, -, hn, -⟩
  rw [htok] at ht
  cases ht
  rw [hname] at hn
  exact absurd hn (by decide)

end Serie.Proto.Tokenx
