import Serie.Lib.Trace
import Serie.Model.Reci

/-! # The messages that the loop visits

Which messages `sock_reci` visits depends on the bytes only, not on what the handlers do: `heads` is
the list of their offsets, and the loop is one call of `read_even` after the other for those of them
that it dispatches (`reciLoop_eq`). Every iteration takes off at least 16 bytes, so for `n` bytes
there are at most `n / 16` (`length_heads`) and the loop ends. Together the events of a datagram are
a run (`sockReci_run`). -/

namespace Serie.Wire.Heads

open Serie.Lib.CText Serie.Lib.Memory Serie.Lib.Trace Serie.Model.Record Serie.Model.Table
open Serie.Model.Conn Serie.Model.Reci

section Defs
variable (m : Mem)

/-- The loop calls `read_even` for the message at `off`. -/
def dispatches (off : ℕ) : Bool :=
  ¬(nlmsgType m off = nlmsgError ∨ nlmsgType m off = nlmsgNoop) ∧
    ¬(cnIdx m off ≠ cnIdxProc ∨ cnVal m off ≠ cnValProc)

/-- The loop ends with the message at `off`. -/
def stops (off : ℕ) : Bool := dispatches m off ∧ nlmsgType m off = nlmsgDone

/-- The offset after the message at `off`. -/
def nextOff (off : ℕ) : ℕ := off + nlmsgAlign (nlmsgLen m off)

/-- **The offsets that the loop visits**, from `off` on with `len` bytes left. -/
def heads : ℕ → ℕ → ℤ → List ℕ
  | 0, _, _ => []
  | fuel + 1, off, len =>
    if nlmsgOk m off len then
      off :: if stops m off then []
        else heads fuel (nextOff m off) (len - nlmsgAlign (nlmsgLen m off))
    else []

end Defs

/-- `read_even` on one event after the other. -/
def callAll {σ : Type} (readEven : ℕ → σ → Outcome σ) : List ℕ → σ → Outcome σ
  | [], s => .ret s
  | a :: l, s => (readEven a s).bind (callAll readEven l)

/-- The events for which `read_even` is called, for the visited offsets `l`. -/
def called (m : Mem) (l : List ℕ) : List ℕ := (l.filter fun off => dispatches m off).map evenAddr

section Loop
variable {m : Mem} {off fuel fuel' : ℕ} {len : ℤ} {σ : Type} {readEven : ℕ → σ → Outcome σ} {s : σ}

theorem le_nlmsgAlign (n : ℕ) : n ≤ nlmsgAlign n := by
  unfold nlmsgAlign
  omega

theorem nlmsgOk_iff : nlmsgOk m off len = true ↔
    16 ≤ len ∧ 16 ≤ nlmsgLen m off ∧ (nlmsgLen m off : ℤ) ≤ len := by
  unfold nlmsgOk nlmsgHdrlen
  exact decide_eq_true_iff

theorem le_align_of_ok (h : nlmsgOk m off len = true) : 16 ≤ nlmsgAlign (nlmsgLen m off) :=
  ((nlmsgOk_iff.mp h).2.1).trans (le_nlmsgAlign _)

theorem heads_of_ok (h : nlmsgOk m off len = true) : heads m (fuel + 1) off len =
    off :: if stops m off then []
      else heads m fuel (nextOff m off) (len - nlmsgAlign (nlmsgLen m off)) := by
  rw [heads, if_pos h]

theorem heads_of_not_ok (h : nlmsgOk m off len = false) : heads m fuel off len = [] := by
  cases fuel with
  | zero => rfl
  | succ fuel => rw [heads, h]; rfl

theorem not_ok_of_lt (h : len < 16) : nlmsgOk m off len = false := by
  refine Bool.eq_false_iff.mpr fun hok => ?_
  have := (nlmsgOk_iff.mp hok).1
  omega

theorem reciLoop_of_ok (h : nlmsgOk m off len = true) :
    reciLoop m readEven (fuel + 1) off len s =
      (if dispatches m off then readEven (evenAddr off) s else .ret s).bind fun t =>
        if stops m off then .ret t
        else reciLoop m readEven fuel (nextOff m off) (len - nlmsgAlign (nlmsgLen m off)) t := by
  rw [reciLoop, if_pos h]
  unfold nextOff
  by_cases hty : nlmsgType m off = nlmsgError ∨ nlmsgType m off = nlmsgNoop
  · simp [stops, dispatches, hty, Outcome.bind]
  by_cases hid : cnIdx m off ≠ cnIdxProc ∨ cnVal m off ≠ cnValProc
  · simp [stops, dispatches, hty, hid, Outcome.bind]
  · simp [stops, dispatches, hty, hid]

theorem reciLoop_of_not_ok (h : nlmsgOk m off len = false) :
    reciLoop m readEven fuel off len s = .ret s := by
  cases fuel <;> rw [reciLoop, h] <;> rfl

theorem called_cons {l : List ℕ} : called m (off :: l) =
    if dispatches m off then evenAddr off :: called m l else called m l := by
  unfold called
  rw [List.filter_cons]
  split_ifs <;> rfl

/-- **The loop calls `read_even` for the messages it dispatches**, in their order. -/
theorem reciLoop_eq (h : len < 16 * (fuel + 1)) (h' : len < 16 * (fuel' + 1)) :
    reciLoop m readEven fuel off len s = callAll readEven (called m (heads m fuel' off len)) s := by
  induction fuel generalizing fuel' off len s with
  | zero =>
    have hno : nlmsgOk m off len = false := not_ok_of_lt (by simpa using h)
    rw [reciLoop_of_not_ok hno, heads_of_not_ok hno]
    rfl
  | succ fuel ih =>
    rcases hok : nlmsgOk m off len with _ | _
    · rw [reciLoop_of_not_ok hok, heads_of_not_ok hok]
      rfl
    · obtain ⟨hlen, -, -⟩ := nlmsgOk_iff.mp hok
      have hal := le_align_of_ok hok
      obtain ⟨fuel', rfl⟩ : ∃ k, fuel' = k + 1 := ⟨fuel' - 1, by omega⟩
      have hnext : ∀ t, reciLoop m readEven fuel (nextOff m off)
          (len - nlmsgAlign (nlmsgLen m off)) t = callAll readEven (called m (heads m fuel'
            (nextOff m off) (len - nlmsgAlign (nlmsgLen m off)))) t := fun t =>
        ih (by push_cast at h; omega) (by push_cast at h'; omega)
      rw [reciLoop_of_ok hok, heads_of_ok hok, called_cons]
      simp only [hnext]
      by_cases hd : dispatches m off
      · rw [if_pos hd, if_pos hd, callAll]
        by_cases hs : stops m off
        · simp only [if_pos hs]
          rfl
        · simp only [if_neg hs]
      · have hs : ¬stops m off = true := fun hs => hd (by simp [stops] at hs; exact hs.1)
        rw [if_neg hd, if_neg hd, Outcome.bind]
        simp only [if_neg hs]

theorem callAll_ret (h : ∀ a t, ∃ u, readEven a t = .ret u) : ∀ (l : List ℕ) (s : σ),
    ∃ t, callAll readEven l s = .ret t
  | [], s => ⟨s, rfl⟩
  | a :: l, s => by
    obtain ⟨u, hu⟩ := h a s
    obtain ⟨t, ht⟩ := callAll_ret h l u
    exact ⟨t, by rw [callAll, hu]; exact ht⟩

end Loop

/-! ### The events of a datagram as a run -/

/-- An event that is handled is a step, or changes nothing. -/
theorem readEvenAt_run {m : Mem} {a fuel : ℕ} {w : ℕ → ℕ → World} {s t : State}
    (h : readEvenAt m a fuel w s = .ret t) : ∃ tr, Steps Step s tr ∧ final s tr = t := by
  unfold readEvenAt at h
  rcases he : procEvent m a with _ | even
  · rw [he] at h
    rcases hl : procLook s (dataPid m a 16) with _ | r
    · rw [hl] at h
      cases h
      exact ⟨[], trivial, rfl⟩
    · rw [hl] at h
      cases h
  · rw [he] at h
    exact ⟨[(⟨even, w a⟩, t)], ⟨⟨fuel, h⟩, trivial⟩, rfl⟩

theorem callAll_run {m : Mem} {fuel : ℕ} {w : ℕ → ℕ → World} : ∀ {l : List ℕ} {s t : State},
    callAll (fun a => readEvenAt m a fuel w) l s = .ret t →
    ∃ tr, Steps Step s tr ∧ final s tr = t
  | [], s, t, h => ⟨[], trivial, Outcome.ret.inj h⟩
  | a :: l, s, t, h => by
    rw [callAll] at h
    rcases hr : readEvenAt m a fuel w s with u | _ | _ <;> rw [hr] at h
    · obtain ⟨tr, hst, hf⟩ := readEvenAt_run hr
      obtain ⟨tr', hst', hf'⟩ := callAll_run h
      subst hf
      exact ⟨tr ++ tr', steps_append.mpr ⟨hst, hst'⟩, by rw [final_append]; exact hf'⟩
    · cases h
    · cases h

/-- **Whatever the bytes, what `sock_reci` returns with is the end of a run.** -/
theorem sockReci_run {beyond : Mem} {evenFuel fuel : ℕ} {w : ℕ → ℕ → World} {recv : Recv}
    {s t : State} {x : ℤ} (hfuel : buffSize / 16 ≤ fuel)
    (h : sockReci (fun m a => readEvenAt m a evenFuel w) beyond fuel recv s = .ret (x, t)) :
    ∃ tr, Steps Step s tr ∧ final s tr = t := by
  have hnil : s = t → ∃ tr, Steps Step s tr ∧ final s tr = t := fun he => ⟨[], trivial, he⟩
  cases recv with
  | error errno =>
    cases h
    exact hnil rfl
  | dgram bytes nlPid =>
    rw [sockReci] at h
    dsimp only at h
    split_ifs at h
    · cases h
      exact hnil rfl
    · cases h
      exact hnil rfl
    · have hlen : ((bytes.take buffSize).length : ℤ) < 16 * ((fuel : ℤ) + 1) := by
        have hle : (bytes.take buffSize).length ≤ buffSize := by simp
        have hb : buffSize = 4096 := rfl
        omega
      rw [reciLoop_eq hlen hlen] at h
      rcases hc : callAll (fun a => readEvenAt _ a evenFuel w) (called _ (heads _ fuel 0 _)) s with
        u | _ | _ <;> rw [hc] at h <;> cases h
      exact callAll_run hc

end Serie.Wire.Heads
