import Serie.Model.Runs
import Serie.Tree.Invariant

/-! # The parent at birth

`proc_load` writes `-1` to `birth_ppid` after `prfs_look` has read the parent, and the first refresh
that reads a parent other than `-1` writes it. So `birth_ppid` is what was reported when the record
was created, in every state of a run, exactly if every answer that a record was created or refreshed
from reports `-1` (`born_iff_tells`). The histories `loaded` and `refreshed` say which answers these
are; `Births` describes `birth_ppid` by them. -/

namespace Serie.Records.BirthParent

open Serie.Lib.CText Serie.Lib.Trace Serie.Model.Record Serie.Model.Prfs Serie.Model.Refresh
open Serie.Model.Table Serie.Model.Conn Serie.Model.Steps Serie.Model.Loop Serie.Model.Runs
open Serie.Tree.Invariant

/-- The birth parent of every record is the parent reported when the record was created. -/
def Born (s : State) : Prop :=
  ∀ y ∈ s.loaded, ∀ g, statRead y.2 = some g → (s.heap y.1).birthPpid = g.ppid

/-- The answers report no parent but `-1`. -/
def Tells (f : Files) : Prop := ∀ g, statRead f = some g → g.ppid = -1

/-- So do all answers from which a record was created or refreshed. -/
def AllTell (s : State) : Prop := (∀ y ∈ s.loaded, Tells y.2) ∧ ∀ y ∈ s.refreshed, Tells y.2

/-! ### What creates records -/

/-- From `s` to `t` records were created, but none was refreshed. -/
structure Loads (s t : State) : Prop where
  next_le : s.next ≤ t.next
  sub : s.loaded ⊆ t.loaded
  loaded : ∀ y ∈ t.loaded, y ∈ s.loaded ∨ s.next ≤ y.1 ∧ y.1 < t.next ∧
    (t.heap y.1).birthPpid = -1 ∧ statRead y.2 ≠ none
  refreshed : t.refreshed = s.refreshed
  birth : ∀ r < s.next, (t.heap r).birthPpid = (s.heap r).birthPpid
  tracked : ∀ r ∈ t.tracked, r ∈ s.tracked ∨ ∃ f, (r, f) ∈ t.loaded

namespace Loads

variable {s t u : State}

theorem refl (s : State) : Loads s s :=
  ⟨le_rfl, fun _ h => h, fun _ h => Or.inl h, rfl, fun _ _ => rfl, fun _ h => Or.inl h⟩

theorem same (h : Loads s t) (hn : u.next = t.next) (hl : u.loaded = t.loaded)
    (hr : u.refreshed = t.refreshed) (hb : ∀ r, (u.heap r).birthPpid = (t.heap r).birthPpid)
    (ht : u.buckets = t.buckets) : Loads s u where
  next_le := hn ▸ h.next_le
  sub := hl ▸ h.sub
  loaded y hy := by
    rw [hn, hb]
    exact h.loaded y (hl ▸ hy)
  refreshed := hr.trans h.refreshed
  birth r hrs := (hb r).trans (h.birth r hrs)
  tracked r hrt := by
    rw [hl]
    exact h.tracked r (by obtain ⟨b, hm⟩ := hrt; exact ⟨b, ht ▸ hm⟩)

theorem relinked (h : Loads s t) (hr : Relinked t u) : Loads s u := by
  have hb := fun r => hr.field Proc.birthPpid (fun _ => rfl) r
  exact h.same hr.next (by rw [hr.same]) (by rw [hr.same]) hb hr.buckets

theorem upd (h : Loads s t) (r : Ref) {f : Proc → Proc}
    (hf : ∀ p, (f p).birthPpid = p.birthPpid) : Loads s (t.upd r f) := by
  refine h.same rfl rfl rfl (fun q => ?_) rfl
  by_cases hq : q = r
  · subst hq; simp [hf]
  · simp [hq]

theorem dest (h : Loads s t) (r : Ref) : Loads s (procDest (some r) t) := by
  refine h.same rfl rfl rfl (fun q => ?_) rfl
  by_cases hq : q = r
  · subst hq; simp [procDest, prfsCleanFd]
  · simp [procDest, hq]

/-- **`proc_load`** writes `-1`. -/
theorem load (h : Loads s t) {q : Pid} {f : Files} {calloc : Bool} {o : Option Ref}
    (hl : procLoad q f calloc t = (o, u)) :
    Loads s u ∧ ∀ r, o = some r → (r, f) ∈ u.loaded := by
  simp only [procLoad, prfsLook_readable] at hl
  rcases calloc with _ | _
  · cases hl; exact ⟨h, by simp⟩
  rw [if_neg (by simp)] at hl
  rcases hr : readable f with _ | _
  · rw [if_pos (by simp [hr])] at hl; cases hl
    refine ⟨⟨h.next_le.trans (Nat.le_succ _), h.sub, fun y hy => ?_, h.refreshed, h.birth,
      h.tracked⟩, by simp⟩
    rcases h.loaded y hy with hy | ⟨h1, h2, h3⟩
    · exact Or.inl hy
    · exact Or.inr ⟨h1, Nat.lt_succ_of_lt h2, h3⟩
  · rw [if_neg (by simp [hr])] at hl; cases hl
    obtain ⟨g, hg⟩ := statRead_of_readable hr
    refine ⟨⟨h.next_le.trans (Nat.le_succ _), fun y hy => List.mem_cons_of_mem _ (h.sub hy),
      fun y hy => ?_, h.refreshed, fun r hrs => ?_, fun r hrt => ?_⟩, fun r hr => ?_⟩
    · rcases List.mem_cons.mp hy with rfl | hy
      · exact Or.inr ⟨h.next_le, Nat.lt_succ_self _, by simp, by simp [hg]⟩
      rcases h.loaded y hy with hy | ⟨h1, h2, h3, h4⟩
      · exact Or.inl hy
      · refine Or.inr ⟨h1, Nat.lt_succ_of_lt h2, ?_, h4⟩
        dsimp only
        rw [Function.update_of_ne h2.ne, h3]
    · dsimp only
      rw [Function.update_of_ne (lt_of_lt_of_le hrs h.next_le).ne, h.birth r hrs]
    · rcases h.tracked r hrt with hrs | ⟨f, hf⟩
      · exact Or.inl hrs
      · exact Or.inr ⟨f, List.mem_cons_of_mem _ hf⟩
    · cases hr; exact List.mem_cons_self

theorem inse (h : Loads s t) {r : Ref} {f : Files} (hr : (r, f) ∈ t.loaded) (calloc : Bool) :
    Loads s (procInse r calloc t).2 := by
  unfold procInse
  rcases calloc with _ | _
  · exact h
  refine ⟨h.next_le, h.sub, h.loaded, h.refreshed, h.birth, ?_⟩
  rintro r' ⟨b, hb⟩
  simp only [if_true, Function.update_apply] at hb
  split_ifs at hb
  · rcases List.mem_cons.mp hb with rfl | hb
    · exact Or.inr ⟨f, hr⟩
    · exact h.tracked r' ⟨_, hb⟩
  · exact h.tracked r' ⟨_, hb⟩

theorem findPare (h : Loads s t) {q : Pid} {w : World} {o : Option Ref}
    (hf : findPare q w t = (o, u)) : Loads s u := by
  unfold Model.Conn.findPare at hf
  rcases hq : procLook t q with _ | p <;> rw [hq] at hf
  swap
  · cases hf; exact h
  rcases hl : procLoad q (w.files q) w.procCalloc t with ⟨_ | r, v⟩ <;> rw [hl] at hf <;>
    obtain ⟨hv, hm⟩ := h.load hl
  · cases hf; exact hv
  · have hi := hv.inse (hm r rfl) w.nodeCalloc
    dsimp only at hf
    split_ifs at hf <;> cases hf
    · exact hi.dest r
    · exact hi

theorem forkChil (h : Loads s t) {p : Ref} {c : Pid} {ts : ℕ} {w : World} {x : ℤ}
    (hf : forkChil p c ts w t = .ret (x, u)) : Loads s u := by
  unfold Model.Conn.forkChil at hf
  rcases hl : procLoad c (w.files c) w.procCalloc t with ⟨_ | r, v⟩ <;> rw [hl] at hf <;>
    obtain ⟨hv, hm⟩ := h.load hl
  · cases hf; exact hv
  dsimp only at hf
  have ha : Relinked (v.upd r fun p => { p with birthTime := splitNs ts }) _ :=
    attaChil_relinked (some p) (some r)
  have hat := (hv.upd r (f := fun p => { p with birthTime := splitNs ts }) fun _ => rfl).relinked ha
  split_ifs at hf
  · cases hf; exact hat.dest r
  · have hi := hat.inse (f := w.files c) (by rw [ha.same]; exact hm r rfl) w.nodeCalloc
    rcases hd : detaChil (some p) (some r) _ with ⟨z, a⟩ | _ | _ <;> rw [hd] at hf <;> cases hf
    exact (hi.relinked (detaChil_relinked hd)).dest r
  · have hi := hat.inse (f := w.files c) (by rw [ha.same]; exact hm r rfl) w.nodeCalloc
    cases hf; exact hi

theorem evenFork {q c : Pid} {ts : ℕ} {w : ℕ → World} {x : ℤ}
    (hf : evenFork q c ts w s = .ret (x, t)) : Loads s t := by
  unfold Model.Conn.evenFork at hf
  rcases hp : Model.Conn.findPare q (w 0) s with ⟨_ | p, v⟩ <;> rw [hp] at hf
  · cases hf; exact (refl s).findPare hp
  · exact ((refl s).findPare hp).forkChil hf

theorem exitTurn {d c : Ref} {w : World} {x : ℤ} (hf : (s.heap d).firsChil = some c)
    (he : exitTurn d c w s = .ret (x, t)) : Loads (orphaned d c w s).2 t := by
  rcases exitTurn_cases (w := w) hf with ⟨-, ht⟩ | ⟨-, o, v, hp, ⟨-, ht⟩ | ⟨p, -, -, ht⟩⟩ <;>
    rw [ht] at he <;> cases he
  · exact refl _
  · exact (refl _).findPare hp
  · exact ((refl _).findPare hp).relinked (attaChil_relinked _ _)

end Loads

/-! ### The invariant -/

/-- **What the birth parents are**: `-1`, until a refresh reports another parent. -/
structure Births (s : State) : Prop where
  mem : ∀ r ∈ s.tracked, ∃ f, (r, f) ∈ s.loaded
  lt_next : ∀ y ∈ s.loaded, y.1 < s.next
  read : ∀ y ∈ s.loaded, statRead y.2 ≠ none
  refreshed : ∀ y ∈ s.refreshed, ∃ f, (y.1, f) ∈ s.loaded
  birth : ∀ y ∈ s.loaded,
    (s.heap y.1).birthPpid = -1 ↔ ∀ z ∈ s.refreshed, z.1 = y.1 → Tells z.2

/-- What one event adds to the histories: records that were not there, and refreshes of records that
were. -/
structure Since (s t : State) : Prop where
  next_le : s.next ≤ t.next
  loaded_sub : s.loaded ⊆ t.loaded
  refreshed_sub : s.refreshed ⊆ t.refreshed
  loaded : ∀ y ∈ t.loaded, y ∈ s.loaded ∨ s.next ≤ y.1
  refreshed : ∀ y ∈ t.refreshed, y ∈ s.refreshed ∨ y.1 < s.next

section Births
variable {s t u : State}

theorem births_init : Births init := by
  refine ⟨?_, ?_, ?_, ?_, ?_⟩
  · exact fun r hr => absurd hr (notMem_init r)
  all_goals intro y hy; cases hy

theorem Births.loads (h : Births s) (hl : Loads s t) : Births t where
  mem r hr := by
    rcases hl.tracked r hr with hr | hr
    · obtain ⟨f, hf⟩ := h.mem r hr
      exact ⟨f, hl.sub hf⟩
    · exact hr
  lt_next y hy := by
    rcases hl.loaded y hy with hy | ⟨-, hy, -⟩
    · exact lt_of_lt_of_le (h.lt_next y hy) hl.next_le
    · exact hy
  read y hy := by
    rcases hl.loaded y hy with hy | ⟨-, -, -, hy⟩
    · exact h.read y hy
    · exact hy
  refreshed y hy := by
    rw [hl.refreshed] at hy
    obtain ⟨f, hf⟩ := h.refreshed y hy
    exact ⟨f, hl.sub hf⟩
  birth y hy := by
    rw [hl.refreshed]
    rcases hl.loaded y hy with hy | ⟨hn, -, hb, -⟩
    · rw [hl.birth y.1 (h.lt_next y hy)]
      exact h.birth y hy
    · -- a new record was not refreshed yet
      refine iff_of_true hb fun z hz he => ?_
      obtain ⟨f, hf⟩ := h.refreshed z hz
      have hlt : z.1 < s.next := h.lt_next (z.1, f) hf
      exact absurd he (lt_of_lt_of_le hlt hn).ne

theorem tells_iff {f : Files} :
    ((statRead f).map StatFields.ppid).getD (-1) = -1 ↔ Tells f := by
  unfold Tells
  rcases statRead f with _ | g <;> simp

theorem Births.lookRec (h : Births s) {r : Ref} (f : Files) (hr : r ∈ s.tracked) :
    Births (lookRec r f s).2 where
  mem := h.mem
  lt_next := h.lt_next
  read := h.read
  refreshed y hy := by
    rcases List.mem_cons.mp hy with rfl | hy
    · exact h.mem r hr
    · exact h.refreshed y hy
  birth y hy := by
    have hb := h.birth y hy
    have hcons : (∀ z ∈ (Model.Table.lookRec r f s).2.refreshed, z.1 = y.1 → Tells z.2) ↔
        (r = y.1 → Tells f) ∧ ∀ z ∈ s.refreshed, z.1 = y.1 → Tells z.2 :=
      List.forall_mem_cons
    rw [hcons, ← hb]
    by_cases hy : y.1 = r
    · rw [hy, lookRec_self, prfsLook_birthPpid]
      split_ifs with h1
      · simp [h1, tells_iff]
      · simp [h1]
    · rw [lookRec_of_ne hy]
      simp [Ne.symm hy]

theorem Since.refl (s : State) : Since s s :=
  ⟨le_rfl, fun _ h => h, fun _ h => h, fun _ h => Or.inl h, fun _ h => Or.inl h⟩

theorem Since.loads (h : Since s t) (hl : Loads t u) : Since s u where
  next_le := h.next_le.trans hl.next_le
  loaded_sub := fun _ hy => hl.sub (h.loaded_sub hy)
  refreshed_sub := hl.refreshed ▸ h.refreshed_sub
  loaded y hy := by
    rcases hl.loaded y hy with hy | ⟨hn, -⟩
    · exact h.loaded y hy
    · exact Or.inr (h.next_le.trans hn)
  refreshed y hy := h.refreshed y (hl.refreshed ▸ hy)

theorem Since.lookRec (h : Since s t) {r : Ref} (f : Files) (hr : r < s.next) :
    Since s (lookRec r f t).2 where
  next_le := h.next_le
  loaded_sub := h.loaded_sub
  refreshed_sub := fun _ hy => List.mem_cons_of_mem _ (h.refreshed_sub hy)
  loaded := h.loaded
  refreshed y hy := by
    rcases List.mem_cons.mp hy with rfl | hy
    · exact Or.inr hr
    · exact h.refreshed y hy

end Births

/-! ### Steps -/

section Step
variable {s t : State}

/-- What holds throughout the loop that starts in `s`: no record that it adds becomes a child, so
none is refreshed. -/
structure Turns (s : State) (d : Ref) (t : State) : Prop where
  inLoop : InLoop d t
  births : Births t
  since : Since s t
  pare : ∀ r ∈ t.tracked, s.next ≤ r → (t.heap r).pare = none

theorem Turns.turn {u : State} {d c : Ref} {w : World} {x : ℤ} (h : Turns s d t)
    (hf : (t.heap d).firsChil = some c) (he : exitTurn d c w t = .ret (x, u)) : Turns s d u := by
  obtain ⟨hct, hcd, -⟩ := h.inLoop.sound.firsChil h.inLoop.mem hf
  have hlt := h.inLoop.sound.lt_next
  have hcs : c < s.next := by
    by_contra hc
    rw [h.pare c hct (not_lt.mp hc)] at hcd; cases hcd
  have hr : Relinked t (headOff d c t) := headOff_relinked
  have hoff : Loads t (headOff d c t) := (Loads.refl t).relinked hr
  have hl : Loads (orphaned d c w t).2 u := Loads.exitTurn hf he
  refine ⟨h.inLoop.turn hf he, ?_, ?_, fun r hrt hn => ?_⟩
  · exact ((h.births.loads hoff).lookRec _ (hr.tracked ▸ hct)).loads hl
  · exact ((h.since.loads hoff).lookRec _ hcs).loads hl
  · rcases exitTurn_mem_or_pare hf (hlt c hct) he hrt with hrt | hrp
    · have hrc : r ≠ c := (lt_of_lt_of_le hcs hn).ne'
      rw [((exitTurn_handed hf (hlt c hct) he).other r (hlt r hrt) hrc).2]
      exact h.pare r hrt hn
    · exact hrp

/-- **What an event does to the histories.** -/
theorem Births.step (hb : Births s) (h : Sound s) {i : Input} (hst : Step s i t) :
    Births t ∧ Since s t := by
  have key : ∀ {u}, Loads s u → Births u ∧ Since s u := fun hl =>
    ⟨hb.loads hl, (Since.refl s).loads hl⟩
  obtain ⟨fuel, x, he⟩ := handle_of_step hst
  obtain ⟨⟨ts, data⟩, w⟩ := i
  cases data with
  | fork q c => exact key (Loads.evenFork he)
  | exec q g =>
    rcases handle_exec he with ⟨-, rfl⟩ | ⟨r, hl, rfl⟩
    · exact key (Loads.refl _)
    · have hr := (procLook_some hl).1
      exact ⟨hb.lookRec _ hr, (Since.refl s).lookRec _ (h.lt_next r hr)⟩
  | exit q code =>
    rcases h.evenExit_inv he with ⟨-, rfl⟩ | ⟨d, -, hd, ⟨-, rfl⟩ | ⟨p, t₀, -, ht, hl⟩⟩
    · exact key (Loads.refl _)
    · exact key ((Loads.refl s).upd d fun _ => rfl)
    · obtain ⟨hb₀, hs₀⟩ := key (((Loads.refl s).upd d (f := markDead code ts) fun _ => rfl).relinked
        ht.relinked)
      have h₀ : Turns s d t₀ := ⟨ht.inLoop hd, hb₀, hs₀, fun r hr hn =>
        absurd (h.lt_next r (ht.tracked ▸ hr)) (not_lt.mpr hn)⟩
      have ht := hl.inv (I := Turns s d) (fun _ _ _ _ _ hu hf he => hu.turn hf he) h₀
      exact ⟨ht.births, ht.since⟩
  | comm | uid | gid | other =>
    have hr := handle_renamed he rfl
    exact key ((Loads.refl s).same hr.next (by rw [hr.same]) (by rw [hr.same])
      (fun r => hr.field Proc.birthPpid (fun _ => rfl) r) hr.buckets)

/-- **One event**: the birth parents stay right exactly if the answers tell no parent. -/
theorem born_iff_allTell (hb : Births s) (ha : AllTell s) (hbt : Births t) (hs : Since s t) :
    Born t ↔ AllTell t := by
  constructor
  · intro hborn
    refine ⟨fun y hy => ?_, fun y hy => ?_⟩
    · rcases hs.loaded y hy with hy' | hn
      · exact ha.1 y hy'
      -- the record is new, so it was not refreshed and has the birth parent -1
      · intro g hg
        rw [← hborn y hy g hg]
        refine (hbt.birth y hy).mpr fun z hz he => ?_
        exfalso
        have hlt : z.1 < s.next := by
          rcases hs.refreshed z hz with hz | hz
          · obtain ⟨f, hf⟩ := hb.refreshed z hz
            exact hb.lt_next (z.1, f) hf
          · exact hz
        exact absurd he (lt_of_lt_of_le hlt hn).ne
    · rcases hs.refreshed y hy with hy' | hlt
      · exact ha.2 y hy'
      -- the record is old, so its creation reported -1, and it has the birth parent -1 still
      · obtain ⟨f, hf⟩ := hbt.refreshed y hy
        obtain ⟨g, hg⟩ := Option.ne_none_iff_exists'.mp (hbt.read _ hf)
        have hfs : (y.1, f) ∈ s.loaded := (hs.loaded _ hf).resolve_right (not_le.mpr hlt)
        have hbirth : (t.heap y.1).birthPpid = -1 := (hborn _ hf g hg).trans (ha.1 _ hfs g hg)
        exact (hbt.birth _ hf).mp hbirth y hy rfl
  · intro hat y hy g hg
    rw [hat.1 y hy g hg]
    exact (hbt.birth y hy).mpr fun z hz _ => hat.2 z hz

end Step

/-! ### Runs -/

theorem AllTell.of_since {s t : State} (h : AllTell t) (hs : Since s t) : AllTell s :=
  ⟨fun y hy => h.1 y (hs.loaded_sub hy), fun y hy => h.2 y (hs.refreshed_sub hy)⟩

theorem AllTell.of_final : ∀ {tr : List (Input × State)} {s : State}, Sound s → Births s →
    Steps Step s tr → AllTell (final s tr) → AllTell s
  | [], _, _, _, _, ha => ha
  | (i, t) :: tr, s, h, hb, ⟨h1, h2⟩, ha => by
    obtain ⟨hbt, hs⟩ := hb.step h h1
    rw [final_cons] at ha
    exact (AllTell.of_final (h.step h1) hbt h2 ha).of_since hs

theorem born_iff_of_steps : ∀ {tr : List (Input × State)} {s : State}, Sound s → Births s →
    AllTell s → Steps Step s tr → ((∀ x ∈ tr, Born x.2) ↔ AllTell (final s tr))
  | [], _, _, _, ha, _ => iff_of_true (by simp) ha
  | (i, t) :: tr, s, h, hb, ha, ⟨h1, h2⟩ => by
    obtain ⟨hbt, hs⟩ := hb.step h h1
    have hone := born_iff_allTell hb ha hbt hs
    rw [final_cons, List.forall_mem_cons, hone]
    constructor
    · exact fun ⟨hat, hx⟩ => (born_iff_of_steps (h.step h1) hbt hat h2).mp hx
    · intro hf
      have hat := AllTell.of_final (h.step h1) hbt h2 hf
      exact ⟨hat, (born_iff_of_steps (h.step h1) hbt hat h2).mpr hf⟩

/-- **The birth parents are right in every state of a run exactly if every answer that a record was
created or refreshed from reports the parent -1.** -/
theorem born_iff_tells {tr : List (Input × State)} (hr : Steps Step init tr) :
    (∀ x ∈ tr, Born x.2) ↔ AllTell (final init tr) := by
  refine born_iff_of_steps sound_init births_init ⟨?_, ?_⟩ hr
  · intro y hy; cases hy
  · intro y hy; cases hy

theorem born_iff_tells_adopted :
    (∀ x ∈ trace 2 init adopted, Born x.2) ↔ AllTell (final init (trace 2 init adopted)) :=
  born_iff_tells adopted_steps

/-- One fork. -/
def firstFork : List Input := [input 1 (.fork 1 2) [(1, ['0']), (2, ['1'])]]

/-- The child reports the parent 1 and has the birth parent -1. -/
theorem not_born_firstFork : Steps Step init (trace 0 init firstFork) ∧
    ¬ ∀ x ∈ trace 0 init firstFork, Born x.2 := by
  refine ⟨steps_trace (by decide), fun hi => ?_⟩
  have hb := hi _ (List.mem_singleton_self _) _ List.mem_cons_self ⟨ascii ['a'], ch 'S', 1⟩
    (by decide)
  exact absurd hb (by decide)

end Serie.Records.BirthParent
