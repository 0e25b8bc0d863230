import Serie.Records.Plain
import Serie.Tree.Children

/-! # The table as a book

What the table says apart from where it says it: for every pid the entries of its records, newest
first. An entry holds the fields of the record and its links, and a link names a record by its pid
and by how many records of that pid are not newer (`name`), which stays the same when records are
added. Addresses, the numbers of strings and the order of different pids in a bucket are not in the
book.

* `book_quiet`, `book_adds`: memory used up and records added;
* `book_write`: a write to the record that is found for a pid;
* `book_attach`: a new record put below the one that is found for a pid. -/

namespace Serie.Table.Entries

open Serie.Lib.Intrusive Serie.Model.Record Serie.Model.Table Serie.Model.Conn Serie.Model.Steps
open Serie.Lib.Chain Serie.Tree.Invariant Serie.Tree.Shape Serie.Tree.Children Serie.Records.Plain

/-- The records of the pid `q`, newest first. -/
def chain (s : State) (q : Pid) : List Ref :=
  (s.buckets (procHash q)).filter fun r => (s.heap r).pid = q

/-- The number of the records of the list from `r` on; the last one has the age `1`. -/
def age : List Ref → Ref → ℕ
  | [], _ => 0
  | x :: l, r => if x = r then l.length + 1 else age l r

/-- A record by its pid and its age. -/
abbrev Name := Pid × ℕ

/-- The name of a record. -/
def name (s : State) (r : Ref) : Name := ((s.heap r).pid, age (chain s (s.heap r).pid) r)

/-- A record with names for its links. -/
structure Entry where
  fields : Proc
  pare : Option Name
  firsChil : Option Name
  nextSibl : Option Name

/-- The entry of a record. -/
def entry (s : State) (r : Ref) : Entry where
  fields := plain (s.heap r)
  pare := (s.heap r).pare.map (name s)
  firsChil := (s.heap r).firsChil.map (name s)
  nextSibl := (s.heap r).nextSibl.map (name s)

/-- The entries of every pid. -/
abbrev Book := Pid → List Entry

/-- **The book of a state.** -/
def book (s : State) : Book := fun q => (chain s q).map (entry s)

/-! ### Chains and names -/

section Chain
variable {s t : State} {q : Pid} {r : Ref} {l : List Ref}

theorem procLook_eq_head? (s : State) (q : Pid) : procLook s q = (chain s q).head? := by
  simp only [procLook, chain, List.head?_filter]

theorem mem_chain (hr : r ∈ chain s q) : r ∈ s.tracked ∧ (s.heap r).pid = q := by
  obtain ⟨hb, hq⟩ := List.mem_filter.mp hr
  exact ⟨⟨_, hb⟩, by simpa using hq⟩

theorem mem_chain_pid (h : Sound s) (hr : r ∈ s.tracked) : r ∈ chain s (s.heap r).pid := by
  obtain ⟨b, hb⟩ := hr
  refine List.mem_filter.mpr ⟨?_, by simp⟩
  rw [h.home b r hb]
  exact hb

theorem nodup_chain (h : Sound s) (q : Pid) : (chain s q).Nodup := (h.nodup _).filter _

theorem chain_of_procLook (h : Sound s) (hl : procLook s q = some r) :
    ∃ l, chain s q = r :: l ∧ r ∉ l := by
  rw [procLook_eq_head?] at hl
  obtain ⟨l, hc⟩ := List.head?_eq_some_iff.mp hl
  exact ⟨l, hc, (List.nodup_cons.mp (hc ▸ nodup_chain h q)).1⟩

theorem chain_congr (hb : t.buckets = s.buckets)
    (hp : ∀ r ∈ s.tracked, (t.heap r).pid = (s.heap r).pid) (q : Pid) : chain t q = chain s q := by
  unfold chain
  rw [hb]
  refine List.filter_congr fun r hr => ?_
  rw [hp r ⟨_, hr⟩]

theorem chain_adds (h : Sound s) {x : Proc} (ha : Adds s x t) (q : Pid) :
    chain t q = if x.pid = q then s.next :: chain s q else chain s q := by
  have hnew : (t.heap s.next).pid = x.pid := by rw [ha.heap, Function.update_self]
  have hold : (s.buckets (procHash q)).filter (fun r => (t.heap r).pid = q) = chain s q := by
    refine List.filter_congr fun r hr => ?_
    rw [ha.heap, Function.update_of_ne (h.lt_next r ⟨_, hr⟩).ne]
  unfold chain at hold ⊢
  rw [ha.buckets]
  by_cases hq : x.pid = q
  · rw [if_pos hq, hq, Function.update_self, List.filter_cons_of_pos (by simp [hnew, hq]), hold]
  · rw [if_neg hq]
    by_cases hb : procHash q = procHash x.pid
    · rw [hb, Function.update_self, List.filter_cons_of_neg (by simp [hnew, hq]), ← hb, hold]
    · rw [Function.update_of_ne hb, hold]

theorem age_cons_of_ne {x : Ref} (h : x ≠ r) : age (x :: l) r = age l r := by
  simp [age, h]

theorem age_cons_self : age (r :: l) r = l.length + 1 := by
  simp [age]

theorem age_le (l : List Ref) (r : Ref) : age l r ≤ l.length := by
  induction l with
  | nil => simp [age]
  | cons x l ih =>
    simp only [age, List.length_cons]
    split_ifs
    · exact le_rfl
    · omega

theorem name_of_procLook (h : Sound s) (hl : procLook s q = some r) :
    name s r = (q, (chain s q).length) := by
  obtain ⟨l, hc, -⟩ := chain_of_procLook h hl
  have hq := (procLook_some hl).2
  simp only [name, hq, hc, age_cons_self, List.length_cons]

end Chain

/-! ### Changes -/

section Change
variable {s t : State} {q : Pid} {r : Ref}

theorem map_name_congr (hn : ∀ x ∈ s.tracked, name t x = name s x) {o : Option Ref}
    (ho : ∀ x, o = some x → x ∈ s.tracked) : o.map (name t) = o.map (name s) := by
  rcases o with _ | x
  · rfl
  · rw [Option.map_some, Option.map_some, hn x (ho x rfl)]

theorem entry_fields (h : Sound s) (hr : r ∈ s.tracked) (hn : ∀ x ∈ s.tracked, name t x = name s x)
    (hu : (t.heap r).pare = (s.heap r).pare) (hc : (t.heap r).firsChil = (s.heap r).firsChil)
    (hs : (t.heap r).nextSibl = (s.heap r).nextSibl) :
    entry t r = { entry s r with fields := plain (t.heap r) } := by
  have hok := treeOk_of_sound h
  simp only [entry, hu, hc, hs]
  rw [map_name_congr hn (hok.pare_mem r hr), map_name_congr hn (hok.firsChil_mem r hr),
    map_name_congr hn (hok.nextSibl_mem r hr)]

theorem entry_congr (h : Sound s) (hr : r ∈ s.tracked) (hn : ∀ x ∈ s.tracked, name t x = name s x)
    (hf : plain (t.heap r) = plain (s.heap r)) (hu : (t.heap r).pare = (s.heap r).pare)
    (hc : (t.heap r).firsChil = (s.heap r).firsChil)
    (hs : (t.heap r).nextSibl = (s.heap r).nextSibl) : entry t r = entry s r := by
  rw [entry_fields h hr hn hu hc hs, hf]
  rfl

/-- If all entries but one stay, the book changes at the pid of that one. -/
theorem map_chain (h : Sound s) (hl : procLook s q = some r)
    (hother : ∀ x ∈ s.tracked, x ≠ r → entry t x = entry s x) (q' : Pid) :
    (chain s q').map (entry t) =
      Function.update (book s) q (entry t r :: (book s q).tail) q' := by
  obtain ⟨l, hc, hrl⟩ := chain_of_procLook h hl
  by_cases hq : q' = q
  · subst hq
    have hmap : l.map (entry t) = l.map (entry s) := List.map_congr_left fun x hx => by
      have hxt : x ∈ s.tracked := (mem_chain (hc ▸ List.mem_cons_of_mem r hx)).1
      refine hother x hxt ?_
      rintro rfl
      exact hrl hx
    rw [Function.update_self]
    simp only [book, hc, List.map_cons, List.tail_cons, hmap]
  · rw [Function.update_of_ne hq]
    refine List.map_congr_left fun x hx => ?_
    obtain ⟨hxt, hxq⟩ := mem_chain hx
    refine hother x hxt ?_
    rintro rfl
    exact hq (hxq.symm.trans (procLook_some hl).2)

theorem name_congr (hb : t.buckets = s.buckets)
    (hp : ∀ r ∈ s.tracked, (t.heap r).pid = (s.heap r).pid) {x : Ref} (hx : x ∈ s.tracked) :
    name t x = name s x := by
  simp only [name, hp x hx, chain_congr hb hp]

theorem book_quiet (h : Sound s) (hq : Quiet s t) : book t = book s := by
  have hheap : ∀ r ∈ s.tracked, t.heap r = s.heap r := fun r hr => hq.heap r (h.lt_next r hr)
  have hpid : ∀ r ∈ s.tracked, (t.heap r).pid = (s.heap r).pid := fun r hr => by rw [hheap r hr]
  funext q
  simp only [book, chain_congr hq.buckets hpid]
  refine List.map_congr_left fun r hr => ?_
  have hrt := (mem_chain hr).1
  refine entry_congr h hrt (fun x hx => name_congr hq.buckets hpid hx) ?_ ?_ ?_ ?_ <;>
    rw [hheap r hrt]

theorem book_write (h : Sound s) (hl : procLook s q = some r) (hb : t.buckets = s.buckets)
    (hp : ∀ x, (t.heap x).pid = (s.heap x).pid) (hlinks : t.links = s.links)
    (hother : ∀ x, x ≠ r → t.heap x = s.heap x) :
    book t = Function.update (book s) q
      ({ entry s r with fields := plain (t.heap r) } :: (book s q).tail) := by
  have hpid : ∀ x ∈ s.tracked, (t.heap x).pid = (s.heap x).pid := fun x _ => hp x
  have hname : ∀ x ∈ s.tracked, name t x = name s x := fun x hx => name_congr hb hpid hx
  have hup : ∀ x, (t.heap x).pare = (s.heap x).pare := fun x =>
    congrArg (fun l : Links Ref => l.up x) hlinks
  have hfirst : ∀ x, (t.heap x).firsChil = (s.heap x).firsChil := fun x =>
    congrArg (fun l : Links Ref => l.first x) hlinks
  have hnext : ∀ x, (t.heap x).nextSibl = (s.heap x).nextSibl := fun x =>
    congrArg (fun l : Links Ref => l.next x) hlinks
  have hsame : ∀ x ∈ s.tracked, x ≠ r → entry t x = entry s x := fun x hx hxr =>
    entry_congr h hx hname (by rw [hother x hxr]) (hup x) (hfirst x) (hnext x)
  have hentry : entry t r = { entry s r with fields := plain (t.heap r) } :=
    entry_fields h (procLook_some hl).1 hname (hup r) (hfirst r) (hnext r)
  funext q'
  have hmap := map_chain h hl hsame q'
  rw [hentry] at hmap
  simp only [book, chain_congr hb hpid]
  exact hmap

theorem name_adds (h : Sound s) {x : Proc} (ha : Adds s x t) (hr : r ∈ s.tracked) :
    name t r = name s r := by
  have hold : t.heap r = s.heap r := by
    rw [ha.heap, Function.update_of_ne (h.lt_next r hr).ne]
  simp only [name, hold, chain_adds h ha]
  split_ifs
  · rw [age_cons_of_ne (h.lt_next r hr).ne']
  · rfl

/-- **A record is added**, without links. -/
theorem book_adds (h : Sound s) {x : Proc} (ha : Adds s x t) (hp : x.pare = none)
    (hf : x.firsChil = none) (hn : x.nextSibl = none) :
    book t = Function.update (book s) x.pid (⟨plain x, none, none, none⟩ :: book s x.pid) := by
  have hold : ∀ r ∈ s.tracked, t.heap r = s.heap r := fun r hr => by
    rw [ha.heap, Function.update_of_ne (h.lt_next r hr).ne]
  have hname : ∀ r ∈ s.tracked, name t r = name s r := fun r hr => name_adds h ha hr
  have hentry : ∀ q, (chain s q).map (entry t) = book s q := fun q =>
    List.map_congr_left fun r hr => by
      have hrt := (mem_chain hr).1
      refine entry_congr h hrt hname ?_ ?_ ?_ ?_ <;> rw [hold r hrt]
  have hnew : entry t s.next = ⟨plain x, none, none, none⟩ := by
    simp [entry, ha.heap, hp, hf, hn]
  funext q
  simp only [book, chain_adds h ha]
  by_cases hq : x.pid = q
  · subst hq
    rw [if_pos rfl, Function.update_self, List.map_cons, hnew, hentry]
    rfl
  · rw [if_neg hq, Function.update_of_ne (Ne.symm hq), hentry]

theorem name_relinked (hr : Relinked s t) (r : Ref) : name t r = name s r := by
  simp only [name, hr.pid, chain_congr hr.buckets fun y _ => hr.pid y]

theorem entry_attach (h : Sound s) {x : Proc} {u : State} (hl : procLook s q = some r)
    (ha : Adds s x u) (hf : x.firsChil = none)
    (ht : t = (attaChil (some r) (some s.next) u).2) :
    (∀ y ∈ s.tracked, y ≠ r → entry t y = entry s y) ∧
      entry t r = { entry s r with firsChil := some (x.pid, (book s x.pid).length + 1) } ∧
      entry t s.next = ⟨plain x, some (q, (book s q).length), none, (entry s r).firsChil⟩ := by
  have hrt := (procLook_some hl).1
  have hrn : r ≠ s.next := (h.lt_next r hrt).ne
  have hrel : Relinked u t := by rw [ht]; exact attaChil_relinked _ _
  have hplain : ∀ y, plain (t.heap y) = plain (u.heap y) := fun y => plain_of_bare (hrel.bare y)
  have hold : ∀ y ∈ s.tracked, u.heap y = s.heap y := fun y hy => by
    rw [ha.heap, Function.update_of_ne (h.lt_next y hy).ne]
  have hnew : u.heap s.next = x := by rw [ha.heap, Function.update_self]
  have hup : ∀ y, (t.heap y).pare = if y = s.next then some r else (u.heap y).pare :=
    fun y => by rw [ht]; exact attaChil_pare hrn y
  have hfirst : ∀ y, (t.heap y).firsChil = if y = r then some s.next else (u.heap y).firsChil :=
    fun y => by rw [ht]; exact attaChil_firsChil hrn y
  have hnext : ∀ y, (t.heap y).nextSibl =
      if y = s.next then (u.heap r).firsChil else (u.heap y).nextSibl :=
    fun y => by rw [ht]; exact attaChil_nextSibl hrn y
  -- the names of the old records stay, and the new one is the newest of its pid
  have hname : ∀ y ∈ s.tracked, name t y = name s y := fun y hy =>
    (name_relinked hrel y).trans (name_adds h ha hy)
  have hnameNew : name t s.next = (x.pid, (book s x.pid).length + 1) := by
    rw [name_relinked hrel]
    simp only [name, hnew, chain_adds h ha, if_true, age_cons_self, book, List.length_map]
  have hnameOld : name t r = (q, (book s q).length) := by
    rw [hname r hrt, name_of_procLook h hl, book, List.length_map]
  have hok := treeOk_of_sound h
  refine ⟨fun y hy hyr => ?_, ?_, ?_⟩
  · have hyn : y ≠ s.next := (h.lt_next y hy).ne
    refine entry_congr h hy hname ?_ ?_ ?_ ?_
    · rw [hplain, hold y hy]
    · rw [hup, if_neg hyn, hold y hy]
    · rw [hfirst, if_neg hyr, hold y hy]
    · rw [hnext, if_neg hyn, hold y hy]
  · simp only [entry, hplain, hup, hfirst, hnext, if_neg hrn, if_true, hold r hrt, Option.map_some,
      hnameNew]
    rw [map_name_congr hname (hok.pare_mem r hrt), map_name_congr hname (hok.nextSibl_mem r hrt)]
  · simp only [entry, hplain, hup, hfirst, hnext, if_neg hrn.symm, if_true, hold r hrt, hnew, hf,
      Option.map_some, Option.map_none, hnameOld]
    rw [map_name_congr hname (hok.firsChil_mem r hrt)]

/-- **A new record is put below the one found for `q`.** -/
theorem book_attach (h : Sound s) {x : Proc} {u : State} (hl : procLook s q = some r)
    (ha : Adds s x u) (hf : x.firsChil = none)
    (ht : t = (attaChil (some r) (some s.next) u).2) :
    let b := Function.update (book s) q
      ({ entry s r with firsChil := some (x.pid, (book s x.pid).length + 1) } :: (book s q).tail)
    book t = Function.update b x.pid
      (⟨plain x, some (q, (book s q).length), none, (entry s r).firsChil⟩ :: b x.pid) := by
  intro b
  obtain ⟨hother, hentry, hentryNew⟩ := entry_attach h hl ha hf ht
  have hrel : Relinked u t := by rw [ht]; exact attaChil_relinked _ _
  have hb : ∀ q', (chain s q').map (entry t) = b q' := fun q' => by
    rw [map_chain h hl hother q', hentry]
  funext q'
  simp only [book, chain_congr hrel.buckets fun y _ => hrel.pid y, chain_adds h ha]
  by_cases hq : x.pid = q'
  · subst hq
    rw [if_pos rfl, Function.update_self, List.map_cons, hentryNew, hb]
    rfl
  · rw [if_neg hq, Function.update_of_ne (Ne.symm hq), hb]

end Change

/-! ### States with the same book -/

section Same
variable {s t : State}

/-- In two lists of the same entries, records of the same age have the same entry. -/
theorem eq_of_age {f g : Ref → Entry} : ∀ {l l' : List Ref} {r r' : Ref}, l.map f = l'.map g →
    r ∈ l → r' ∈ l' → age l r = age l' r' → f r = g r'
  | [], _, _, _, _, hr, _, _ => by cases hr
  | _ :: _, [], _, _, _, _, hr', _ => by cases hr'
  | x :: l, x' :: l', r, r', he, hr, hr', ha => by
    obtain ⟨hx, hl⟩ := List.cons.inj he
    have hlen : l.length = l'.length := by simpa using congrArg List.length hl
    have hle := age_le l r
    have hle' := age_le l' r'
    simp only [age] at ha
    split_ifs at ha with h h' h'
    · rw [← h, ← h']; exact hx
    · omega
    · omega
    · have hm : r ∈ l := (List.mem_cons.mp hr).resolve_left (Ne.symm h)
      have hm' : r' ∈ l' := (List.mem_cons.mp hr').resolve_left (Ne.symm h')
      exact eq_of_age hl hm hm' ha

theorem entry_eq_of_name (hs : Sound s) (ht : Sound t) (hb : book s = book t) {r r' : Ref}
    (hr : r ∈ s.tracked) (hr' : r' ∈ t.tracked) (hn : name s r = name t r') :
    entry s r = entry t r' := by
  obtain ⟨hpid, hage⟩ := Prod.mk.inj hn
  have hm := mem_chain_pid hs hr
  have hm' := mem_chain_pid ht hr'
  rw [← hpid] at hm' hage
  exact eq_of_age (congrFun hb _) hm hm' hage

theorem names_of_kids (hs : Sound s) (ht : Sound t) (hb : book s = book t) {r r' : Ref}
    (hr : r ∈ s.tracked) (hr' : r' ∈ t.tracked) (he : entry s r = entry t r') {l l' : List Ref}
    (hk : Kids s r l) (hk' : Kids t r' l') : l.map (name s) = l'.map (name t) := by
  have hfirst : (s.heap r).firsChil.map (name s) = (t.heap r').firsChil.map (name t) :=
    congrArg Entry.firsChil he
  refine IsChain.map_eq hk hk' hfirst fun x hx x' hx' hn => ?_
  have hxt := ((mem_kids_iff hs hr hk).mp hx).1
  have hxt' := ((mem_kids_iff ht hr' hk').mp hx').1
  exact congrArg Entry.nextSibl (entry_eq_of_name hs ht hb hxt hxt' hn)

end Same

end Serie.Table.Entries
