import Serie.Tree.Invariant

/-! # Rules for invariants

An invariant that links do not matter for is kept by every exit and by most of a fork if it is kept
by four changes: memory used up, a record loaded for a pid that has none, a refresh of a living
record, and the mark of a death. `Flat` collects the first three; `Flat.exit` and `Flat.fork` are
the rules.

An invariant of the links is kept by memory used up and by a record added without a parent
(`Grows`), and the rules leave what matters: the child off its list, and the child under its new
parent. -/

namespace Serie.Tree.Rule

open Serie.Model.Record Serie.Model.Prfs Serie.Model.Refresh Serie.Model.Table Serie.Model.Conn
open Serie.Model.Steps Serie.Model.Loop Serie.Tree.Invariant

/-- The changes that keep `I`. -/
structure Flat (I : State → Prop) : Prop where
  quiet : ∀ {s t}, Sound s → Quiet s t → I s → I t
  relinked : ∀ {s t}, Relinked s t → I s → I t
  load : ∀ {s t q f x}, Sound s → procLook s q = none → IsLoad q f x → Adds s x t → I s → I t
  refresh : ∀ {s r f}, Sound s → r ∈ s.tracked → (s.heap r).alive = true → I s →
    I (lookRec r f s).2

namespace Flat

variable {I : State → Prop} {s t : State}

theorem found (hI : Flat I) (h : Sound s) (hs : I s) {q : Pid} {w : World} {p : Ref}
    (hf : Found q w s p t) : I t := by
  cases hf with
  | old => exact hs
  | new hp _ hx ha => exact hI.load h hp hx ha hs

theorem turn (hI : Flat I) {d c : Ref} (h : InLoop d s) (hs : I s) {w : World} {x : ℤ}
    (hf : (s.heap d).firsChil = some c) (he : exitTurn d c w s = .ret (x, t)) : I t := by
  obtain ⟨hct, -, hca⟩ := h.sound.firsChil h.mem hf
  have hoff := h.sound.headOff h.mem hf
  have hr : Relinked s (headOff d c s) := headOff_relinked
  have hu : I (orphaned d c w s).2 :=
    hI.refresh hoff (hr.tracked ▸ hct) ((hr.alive c).trans hca) (hI.relinked hr hs)
  have hus := (h.sound.orphan h.mem hf w).1
  rcases exitTurn_spec (w := w) hf (h.sound.lt_next c hct) with ⟨-, ht⟩ | ⟨g, -, -, ⟨-, ht⟩ |
    ⟨v, -, -, hv, ht⟩ | ⟨p, v, -, hfd, ht⟩⟩ <;> rw [ht] at he <;> cases he
  · exact hu
  · exact hu
  · exact hI.quiet hus hv hu
  · exact hI.relinked (attaChil_relinked _ _) (hI.found hus hu hfd)

theorem loopEnd (hI : Flat I) {d : Ref} (h : InLoop d s) (hs : I s) {w : ℕ → World} {k : ℕ}
    (hl : LoopEnd d w k s t) : I t :=
  (hl.inv (I := fun u => InLoop d u ∧ I u)
    (fun _ _ _ _ _ ⟨hi, hu⟩ hf he => ⟨hi.turn hf he, hI.turn hi hu hf he⟩) ⟨h, hs⟩).2

/-- **An exit**, from the mark of the death on. -/
theorem exit (hI : Flat I) (h : Sound s) {q : Pid} {code ts fuel : ℕ} {w : ℕ → World} {x : ℤ}
    (hn : procLook s q = none → I s)
    (hm : ∀ d, procLook s q = some d → I (s.upd d (markDead code ts)))
    (he : evenExit fuel q code ts w s = .ret (x, t)) : I t := by
  rcases h.evenExit_inv he with ⟨hl, rfl⟩ | ⟨d, hl, hd, ⟨-, rfl⟩ | ⟨p, t₀, -, ht, hend⟩⟩
  · exact hn hl
  · exact hm d hl
  · exact hI.loopEnd (ht.inLoop hd) (hI.relinked ht.relinked (hm d hl)) hend

/-- **A fork**, up to the child it adds. -/
theorem fork (hI : Flat I) (h : Sound s) (hs : I s) {q c : Pid} {ts : ℕ} {w : ℕ → World} {x : ℤ}
    (hadd : ∀ p s₁ y s₂, Found q (w 0) s p s₁ → canLoad (w 1) c = true → Sound s₁ → I s₁ →
      IsLoad c ((w 1).files c) y → Adds s₁ { y with birthTime := splitNs ts } s₂ → I s₂)
    (he : evenFork q c ts w s = .ret (x, t)) : I t := by
  rcases evenFork_inv h.lt_next he with
    ⟨-, -, hq⟩ | ⟨p, s₁, hfd, ⟨-, hq⟩ | ⟨hc, y, s₂, hy, ha, rfl⟩⟩
  · exact hI.quiet h hq hs
  · exact hI.quiet (h.found hfd).1 hq (hI.found h hs hfd)
  · exact hI.relinked (attaChil_relinked _ _)
      (hadd p s₁ y s₂ hfd hc (h.found hfd).1 (hI.found h hs hfd) hy ha)

end Flat

/-- What an invariant of the links does not see. -/
structure Grows (I : State → Prop) : Prop where
  quiet : ∀ {s t}, Sound s → Quiet s t → I s → I t
  adds : ∀ {s t x}, Sound s → Adds s x t → x.pare = none → I s → I t

namespace Grows

variable {I : State → Prop} {s t : State}

theorem found (hI : Grows I) (h : Sound s) (hs : I s) {q : Pid} {w : World} {p : Ref}
    (hf : Found q w s p t) : I t := by
  cases hf with
  | old => exact hs
  | new _ _ hx ha => exact hI.adds h ha hx.pare hs

theorem turn (hI : Grows I) {d c : Ref} (h : InLoop d s) {w : World} {x : ℤ}
    (hf : (s.heap d).firsChil = some c) (hu : I (orphaned d c w s).2)
    (hatt : ∀ g p v, readable (w.files (s.heap c).pid) = true →
      statRead (w.files (s.heap c).pid) = some g → p ≠ c →
      Found g.ppid w (orphaned d c w s).2 p v → Sound v → I v →
        I (attaChil (some p) (some c) v).2)
    (he : exitTurn d c w s = .ret (x, t)) : I t := by
  have hct := (h.sound.firsChil h.mem hf).1
  have hus := (h.sound.orphan h.mem hf w).1
  rcases exitTurn_spec (w := w) hf (h.sound.lt_next c hct) with ⟨-, ht⟩ | ⟨g, hr, hg, ⟨-, ht⟩ |
    ⟨v, -, -, hv, ht⟩ | ⟨p, v, hpc, hfd, ht⟩⟩ <;> rw [ht] at he <;> cases he
  · exact hu
  · exact hu
  · exact hI.quiet hus hv hu
  · exact hatt g p v hr hg hpc hfd (hus.found hfd).1 (hI.found hus hu hfd)

theorem fork (hI : Grows I) (h : Sound s) (hs : I s) {q c : Pid} {ts : ℕ} {w : ℕ → World} {x : ℤ}
    (hatt : ∀ p s₁ y s₂, Found q (w 0) s p s₁ → canLoad (w 1) c = true → Sound s₁ → I s₁ →
      IsLoad c ((w 1).files c) y → Adds s₁ { y with birthTime := splitNs ts } s₂ → I s₂ →
        I (attaChil (some p) (some s₁.next) s₂).2)
    (he : evenFork q c ts w s = .ret (x, t)) : I t := by
  rcases evenFork_inv h.lt_next he with
    ⟨-, -, hq⟩ | ⟨p, s₁, hfd, ⟨-, hq⟩ | ⟨hc, y, s₂, hy, ha, rfl⟩⟩
  · exact hI.quiet h hq hs
  · exact hI.quiet (h.found hfd).1 hq (hI.found h hs hfd)
  · have h₁ := (h.found hfd).1
    have hs₁ := hI.found h hs hfd
    exact hatt p s₁ y s₂ hfd hc h₁ hs₁ hy ha (hI.adds h₁ ha hy.pare hs₁)

end Grows

/-! ### A loop in order -/

section InOrder
variable {I : State → Prop} {G : World → State → Prop} {d : Ref} {w : ℕ → World} {s t : State}

/-- What turns in order keep holds at every head of a loop whose turns are in order. -/
theorem inv_of_loopAt (hturn : ∀ w u c x v, InLoop d u → I u → (u.heap d).firsChil = some c →
      G w u → exitTurn d c w u = .ret (x, v) → I v) (h : InLoop d s) (h0 : I s)
    (hok : ∀ k s', LoopAt d w 0 s k s' → G (w k) s') {k : ℕ} (hl : LoopAt d w 0 s k t) : I t :=
  (hl.inv (I := fun k u => LoopAt d w 0 s k u ∧ InLoop d u ∧ I u)
    (fun k u c v ⟨hat, hi, hu⟩ hf he =>
      ⟨hat.step hf he, hi.turn hf he, hturn (w k) u c 0 v hi hu hf (hok k u hat) he⟩)
    ⟨.here _ _, h, h0⟩).2.2

/-- **The end of a loop in order.** -/
theorem inv_of_loopEnd (hturn : ∀ w u c x v, InLoop d u → I u → (u.heap d).firsChil = some c →
      G w u → exitTurn d c w u = .ret (x, v) → I v) (h : InLoop d s) (h0 : I s)
    (hok : ∀ k s', LoopAt d w 0 s k s' → G (w k) s') (hl : LoopEnd d w 0 s t) : I t := by
  obtain ⟨k, s', hat, ⟨-, rfl⟩ | ⟨c, hf, he⟩⟩ := hl
  · exact inv_of_loopAt hturn h h0 hok hat
  · exact hturn (w k) s' c (-1) t (h.loopAt hat) (inv_of_loopAt hturn h h0 hok hat) hf
      (hok k s' hat) he

end InOrder

end Serie.Tree.Rule
