import Serie.Fd.Ownership

/-! # The snapshot of a fresh record

One counter of `prfs_fd` is the next slot, the number of strings and, at the end, `fd_coun`: an
entry that is skipped or cannot be read leaves it and the slot as they are. So the slots are filled
with the targets of the entries that can be read (`stored`), in the order of the listing, until all
slots are used (`fdLoop_fills`). An allocation is attempted for the entries before that point only
(`AllocFails`). -/

namespace Serie.Fd.Snapshot

open Serie.Lib.CText Serie.Model.Record Serie.Model.Prfs Serie.Fd.Clean Serie.Fd.Ownership

/-- The entry is `.`, `..` or hidden. -/
abbrev IsDot (e : DirEntry) : Prop := deref e.dName = ch '.'

/-- The targets of the entries that can be read. -/
def stored (es : List DirEntry) : List (List Byte) :=
  es.filterMap fun e => if IsDot e then none else e.link

/-- With `n` slots left, the allocation for one of the entries that are handled fails. -/
def AllocFails (n : ℕ) (es : List DirEntry) : Prop :=
  ∃ pre e post, es = pre ++ e :: post ∧ (stored pre).length < n ∧ ¬ IsDot e ∧ e.alloc = false

/-- The first slots hold strings with these texts. -/
def Filled (a : List Slot) (ts : List (List Byte)) : Prop :=
  ∀ j (hj : j < ts.length), ∃ id, a[j]? = some (.str id ts[j])

section Entries
variable {n : ℕ} {e : DirEntry} {es : List DirEntry}

theorem stored_of_dot (h : IsDot e) : stored (e :: es) = stored es :=
  List.filterMap_cons_none (if_pos h)

theorem stored_of_link {t : List Byte} (h : ¬ IsDot e) (ht : e.link = some t) :
    stored (e :: es) = t :: stored es :=
  List.filterMap_cons_some ((if_neg h).trans ht)

theorem stored_of_unread (h : ¬ IsDot e) (ht : e.link = none) : stored (e :: es) = stored es :=
  List.filterMap_cons_none ((if_neg h).trans ht)

theorem not_allocFails_nil : ¬ AllocFails n [] := by
  rintro ⟨pre, e, post, h, -⟩
  simp at h

theorem not_allocFails_zero : ¬ AllocFails 0 es := fun ⟨_, _, _, _, h, _⟩ => Nat.not_lt_zero _ h

theorem allocFails_cons : AllocFails n (e :: es) ↔
    (0 < n ∧ ¬ IsDot e ∧ e.alloc = false) ∨ AllocFails (n - (stored [e]).length) es := by
  have hlen : ∀ pre, (stored (e :: pre)).length = (stored pre).length + (stored [e]).length := by
    intro pre
    rw [← List.singleton_append, stored, List.filterMap_append, List.length_append, Nat.add_comm]
    rfl
  constructor
  · rintro ⟨_ | ⟨d, pre⟩, e', post, h, hn, hd, ha⟩
    · cases h
      exact Or.inl ⟨hn, hd, ha⟩
    · cases h
      rw [hlen] at hn
      exact Or.inr ⟨pre, e', post, rfl, Nat.lt_sub_of_add_lt hn, hd, ha⟩
  · rintro (⟨hn, hd, ha⟩ | ⟨pre, e', post, rfl, hn, hd, ha⟩)
    · exact ⟨[], e, es, rfl, hn, hd, ha⟩
    · exact ⟨e :: pre, e', post, rfl, by rw [hlen]; exact Nat.add_lt_of_lt_sub hn, hd, ha⟩

theorem allocFails_skip (hs : stored [e] = []) (h : ¬ IsDot e → e.alloc = true) :
    AllocFails n (e :: es) ↔ AllocFails n es := by
  rw [allocFails_cons, hs]
  refine or_iff_right ?_
  rintro ⟨-, hd, ha⟩
  rw [h hd] at ha
  cases ha

end Entries

section Slots
variable {a : List Slot} {ts : List (List Byte)} {v : Slot}

theorem Filled.set (h : Filled a ts) : Filled (a.set ts.length v) ts := fun j hj => by
  rw [List.getElem?_set_ne (Nat.ne_of_gt hj)]
  exact h j hj

theorem Filled.str (h : Filled a ts) (hlt : ts.length < a.length) (id : ℕ) (t : List Byte) :
    Filled (a.set ts.length (.str id t)) (ts ++ [t]) := by
  intro j hj
  rw [List.length_append, List.length_singleton] at hj
  rcases Nat.lt_or_ge j ts.length with hl | hl
  · rw [List.getElem_append_left hl]
    exact h.set j hl
  · obtain rfl : j = ts.length := by omega
    exact ⟨id, by simp [hlt]⟩

end Slots

/-! ### The loop -/

/-- What the loop does with `n` slots left, when the array holds the strings `ts`. -/
structure Fills (es : List DirEntry) (n : ℕ) (ts : List (List Byte)) (r : ℤ × Proc × Strs) :
    Prop where
  fails : AllocFails n es → r.1 = -1
  code : ¬ AllocFails n es → r.1 = 0
  coun : ¬ AllocFails n es → r.2.1.fdCoun = ts.length + min n (stored es).length
  paths : ¬ AllocFails n es → ∃ a, r.2.1.fdPaths = some a ∧ a.length = ts.length + n ∧
    Filled a (ts ++ (stored es).take n)

section Loop
variable {n : ℕ} {e : DirEntry} {es : List DirEntry} {ts : List (List Byte)} {r : ℤ × Proc × Strs}

theorem Fills.skip (h : Fills es n ts r) (hs : stored (e :: es) = stored es)
    (hs1 : stored [e] = []) (ha : ¬ IsDot e → e.alloc = true) : Fills (e :: es) n ts r where
  fails hf := h.fails ((allocFails_skip hs1 ha).mp hf)
  code hf := h.code (mt (allocFails_skip hs1 ha).mpr hf)
  coun hf := by
    rw [hs]
    exact h.coun (mt (allocFails_skip hs1 ha).mpr hf)
  paths hf := by
    rw [hs]
    exact h.paths (mt (allocFails_skip hs1 ha).mpr hf)

theorem Fills.store {t : List Byte} (h : Fills es n (ts ++ [t]) r) (hd : ¬ IsDot e)
    (ha : e.alloc = true) (ht : e.link = some t) : Fills (e :: es) (n + 1) ts r := by
  have hfail : AllocFails (n + 1) (e :: es) ↔ AllocFails n es := by
    have hone : stored [e] = [t] := stored_of_link hd ht
    rw [allocFails_cons, hone, List.length_singleton, Nat.add_sub_cancel]
    refine or_iff_right ?_
    rintro ⟨-, -, ha'⟩
    rw [ha] at ha'
    cases ha'
  have hstored : stored (e :: es) = t :: stored es := stored_of_link hd ht
  constructor
  · exact fun hf => h.fails (hfail.mp hf)
  · exact fun hf => h.code (mt hfail.mpr hf)
  · intro hf
    rw [h.coun (mt hfail.mpr hf), hstored, List.length_append, List.length_singleton,
      List.length_cons, Nat.add_min_add_right]
    push_cast
    omega
  · intro hf
    obtain ⟨a, hp, hl, hfa⟩ := h.paths (mt hfail.mpr hf)
    rw [List.length_append, List.length_singleton] at hl
    rw [List.append_assoc, List.singleton_append] at hfa
    exact ⟨a, hp, by omega, by rw [hstored]; exact hfa⟩

/-- **The loop over the directory** fills the slots with the targets that can be read. -/
theorem fdLoop_fills : ∀ (es : List DirEntry) {p : Proc} {m : Strs} {ts : List (List Byte)}
    {a : List Slot} {n : ℕ}, p.fdPaths = some a → Filled a ts → a.length = ts.length + n →
      p.fdCoun = a.length → Fills es n ts (fdLoop es ts.length p m)
  | [], p, m, ts, a, n, hp, ha, hl, hc =>
    ⟨fun hf => absurd hf not_allocFails_nil, fun _ => rfl, fun _ => by simp [fdLoop, stored],
      fun _ => ⟨a, hp, hl, by simpa [stored] using ha⟩⟩
  | e :: es, p, m, ts, a, n, hp, ha, hl, hc => by
    have hset : ∀ v, (setSlot p ts.length v).fdPaths = some (a.set ts.length v) := fun v => by
      rw [setSlot, hp]
      rfl
    unfold fdLoop
    rcases n with _ | n
    · -- no slot is left
      rw [if_pos (by omega)]
      exact ⟨fun hf => absurd hf not_allocFails_zero, fun _ => rfl, fun _ => by simp,
        fun _ => ⟨a, hp, hl, by simpa using ha⟩⟩
    rw [if_neg (by omega)]
    by_cases hd : IsDot e
    · rw [if_pos hd]
      exact (fdLoop_fills es hp ha hl hc).skip (stored_of_dot hd) (stored_of_dot hd)
        fun h => absurd hd h
    rw [if_neg hd]
    rcases hal : e.alloc with _ | _
    · rw [if_pos rfl]
      have hf : AllocFails (n + 1) (e :: es) :=
        allocFails_cons.mpr (Or.inl ⟨n.succ_pos, hd, hal⟩)
      exact ⟨fun _ => rfl, fun h => absurd hf h, fun h => absurd hf h, fun h => absurd hf h⟩
    rw [if_neg (by decide)]
    rcases hlink : e.link with _ | t
    · have hnext := fdLoop_fills es (p := setSlot p ts.length .null)
        (m := { m with fresh := m.fresh + 1, freed := m.fresh :: m.freed }) (hset .null) ha.set
        (by rw [List.length_set]; exact hl) (by rw [List.length_set]; exact hc)
      exact hnext.skip (stored_of_unread hd hlink) (stored_of_unread hd hlink) fun _ => hal
    · have hnext := fdLoop_fills es (p := setSlot p ts.length (.str m.fresh t))
        (m := { m with fresh := m.fresh + 1 }) (hset _) (ha.str (by omega) m.fresh t)
        (n := n) (by rw [List.length_set, List.length_append, List.length_singleton]; omega)
        (by rw [List.length_set]; exact hc)
      rw [List.length_append, List.length_singleton] at hnext
      exact hnext.store hd hal hlink

theorem listing_eq_none {F : ℤ} {i M : ℕ} (h : AllocFails n es) (hF : F = i + n) :
    listing F es i M = none := by
  induction es generalizing n i M with
  | nil => exact absurd h not_allocFails_nil
  | cons e es ih =>
    rcases n with _ | n
    · exact absurd h not_allocFails_zero
    unfold listing
    rw [if_neg (by omega)]
    by_cases hd : IsDot e
    · rw [if_pos hd]
      have hs : stored [e] = [] := stored_of_dot hd
      exact ih ((allocFails_skip hs fun hn => absurd hd hn).mp h) hF
    rw [if_neg hd]
    rcases hal : e.alloc with _ | _
    · exact if_pos rfl
    rw [if_neg (by decide)]
    have hrest : AllocFails (n + 1 - (stored [e]).length) es := by
      refine (allocFails_cons.mp h).resolve_left ?_
      rintro ⟨-, -, ha⟩
      rw [hal] at ha
      cases ha
    rcases hlink : e.link with _ | t
    · have hs : stored [e] = [] := stored_of_unread hd hlink
      rw [hs] at hrest
      exact ih hrest hF
    · have hs : stored [e] = [t] := stored_of_link hd hlink
      rw [hs] at hrest
      exact ih hrest (by rw [hF]; simp; omega)

end Loop

/-! ### `prfs_fd` -/

section Fresh
variable {p : Proc} {m : Strs} {f : Files} {dirs : List DirEntry}

/-- On a record without an array the loop starts on a new one. -/
theorem prfsFd_eq (hp : p.fdPaths = none) (hF : 0 < p.fdCoun) (hd : f.fd = some dirs) :
    prfsFd p m f = if f.arrAlloc = false then (-1, { p with fdPaths := none }, m)
      else fdLoop dirs 0 { p with fdPaths := some (List.replicate p.fdCoun.toNat .unset) } m := by
  have h0 : ¬ p.fdCoun = 0 := hF.ne'
  have hneg : ¬ p.fdCoun < 0 := not_lt_of_gt hF
  simp only [prfsFd, if_neg h0, hd, hp, ne_eq, not_true_eq_false, if_false, hneg, or_false]

theorem prfsFd_fills (hp : p.fdPaths = none) (hF : 0 < p.fdCoun) (hd : f.fd = some dirs)
    (ha : f.arrAlloc = true) : Fills dirs p.fdCoun.toNat [] (prfsFd p m f) := by
  rw [prfsFd_eq hp hF hd, if_neg (by rw [ha]; decide)]
  refine fdLoop_fills dirs rfl (fun j hj => absurd hj (Nat.not_lt_zero j)) ?_ ?_
  · rw [List.length_replicate, List.length_nil, Nat.zero_add]
  · rw [List.length_replicate]
    exact (Int.toNat_of_nonneg hF.le).symm

theorem prfsFd_freedOnce (hp : p.fdPaths = none) (hF : 0 < p.fdCoun) (hd : f.fd = some dirs)
    (hf : f.arrAlloc = false ∨ AllocFails p.fdCoun.toNat dirs) :
    (prfsFd p m f).2.1.fdPaths = none ∧ FreedOnce m (prfsFd p m f).2.2 := by
  have hheld : (heldFd p.fdCoun none f).2 = none := by
    unfold heldFd
    rw [if_neg hF.ne', hd]
    dsimp only
    rcases hf with ha | hf
    · rw [if_pos (Or.inl ha)]
    · have hl : listing p.fdCoun dirs 0 0 = none :=
        listing_eq_none hf (by rw [Int.toNat_of_nonneg hF.le]; simp)
      rw [hl, ite_self]
  have hnew : Snapshot p.fdPaths none [] := ⟨hp, rfl⟩
  obtain ⟨ids, ho, hs, -⟩ := prfsFd_held (f := f) (Owns.refl m) hnew fun _ hd hv => by cases hv
  rw [hheld] at hs
  obtain ⟨hnone, rfl⟩ := hs
  exact ⟨hnone, ho.faults, fun id => by simpa using ho.count id⟩

/-- **The snapshot of a fresh record.** -/
theorem prfsFd_fresh (hp : p.fdPaths = none) (hF : 0 < p.fdCoun) (hd : f.fd = some dirs) :
    (f.arrAlloc = true → ¬ AllocFails p.fdCoun.toNat dirs →
      (prfsFd p m f).1 = 0 ∧
      (prfsFd p m f).2.1.fdCoun = min p.fdCoun (stored dirs).length ∧
      ∃ a, (prfsFd p m f).2.1.fdPaths = some a ∧ a.length = p.fdCoun.toNat ∧
        Filled a ((stored dirs).take (prfsFd p m f).2.1.fdCoun.toNat)) ∧
    (f.arrAlloc = false ∨ AllocFails p.fdCoun.toNat dirs →
      (prfsFd p m f).1 = -1 ∧ (prfsFd p m f).2.1.fdPaths = none ∧
      FreedOnce m (prfsFd p m f).2.2) := by
  constructor
  · intro ha hf
    have h := prfsFd_fills (m := m) hp hF hd ha
    obtain ⟨a, hpath, hlen, hfill⟩ := h.paths hf
    have hcoun := h.coun hf
    rw [List.length_nil, Nat.zero_add] at hlen
    rw [List.nil_append] at hfill
    have hmin : (prfsFd p m f).2.1.fdCoun = min p.fdCoun (stored dirs).length := by
      rw [hcoun]
      simp
      omega
    refine ⟨h.code hf, hmin, a, hpath, hlen, ?_⟩
    have htake : (stored dirs).take (prfsFd p m f).2.1.fdCoun.toNat =
        (stored dirs).take p.fdCoun.toNat := by
      rw [hmin, List.take_eq_take_iff]
      omega
    rw [htake]
    exact hfill
  · intro hf
    refine ⟨?_, prfsFd_freedOnce hp hF hd hf⟩
    rcases ha : f.arrAlloc with _ | _
    · rw [prfsFd_eq hp hF hd, if_pos ha]
    · exact (prfsFd_fills hp hF hd ha).fails (hf.resolve_left (by rw [ha]; decide))

end Fresh

/-- Four descriptors. The second link cannot be read, the last allocation fails. -/
def fourFds : List DirEntry :=
  [⟨ascii ['.'], true, none⟩, ⟨ascii ['0'], true, some (ascii ['/', 'a'])⟩,
    ⟨ascii ['1'], true, none⟩, ⟨ascii ['2'], true, some (ascii ['/', 'b'])⟩,
    ⟨ascii ['3'], false, none⟩]

/-- With two slots the last allocation is not attempted. -/
theorem not_allocFails_fourFds : ¬ AllocFails 2 fourFds := by
  have h0 : stored [⟨ascii ['0'], true, some (ascii ['/', 'a'])⟩] = [ascii ['/', 'a']] := by decide
  have h2 : stored [⟨ascii ['2'], true, some (ascii ['/', 'b'])⟩] = [ascii ['/', 'b']] := by decide
  have hdot : stored [⟨ascii ['.'], true, none⟩] = [] := by decide
  have h1 : stored [⟨ascii ['1'], true, none⟩] = [] := by decide
  unfold fourFds
  rw [allocFails_skip hdot fun _ => rfl, allocFails_cons, h0, allocFails_skip h1 fun _ => rfl,
    allocFails_cons, h2]
  simp [not_allocFails_zero]

theorem prfsFd_fresh_fourFds :
    (prfsFd { Proc.zero with fdCoun := 2 } ⟨0, [], []⟩
      ⟨none, [], none, some fourFds, true⟩).1 = 0 ∧
    (prfsFd { Proc.zero with fdCoun := 2 } ⟨0, [], []⟩
      ⟨none, [], none, some fourFds, true⟩).2.1.fdCoun = min 2 (stored fourFds).length := by
  have h := (prfsFd_fresh (p := { Proc.zero with fdCoun := 2 }) (m := ⟨0, [], []⟩)
    (f := ⟨none, [], none, some fourFds, true⟩) rfl (by decide) rfl).1 rfl not_allocFails_fourFds
  exact ⟨h.1, h.2.1⟩

end Serie.Fd.Snapshot
