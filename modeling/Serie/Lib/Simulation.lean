import Serie.Lib.Trace

/-! # Simulations and potentials of traces

* `simulates`: if every step of one system is matched by a trace of another, and a relation between
  their states is kept, every trace is matched by a trace.
* `Steps.countP_le`: if every step of a kind lowers the potential of the state, a trace has no more
  of them than the potential of its first state. -/

namespace Serie.Lib.Simulation

open Serie.Lib.Trace

variable {σ τ ι κ : Type*} {R : σ → ι → σ → Prop} {A : τ → κ → τ → Prop} {S : σ → τ → Prop}

/-- **Forward simulation.** -/
theorem simulates (hstep : ∀ s i t u, S s u → R s i t → ∃ tr, Steps A u tr ∧ S t (final u tr)) :
    ∀ {s : σ} {tr : List (ι × σ)} {u : τ}, S s u → Steps R s tr →
      ∃ tr', Steps A u tr' ∧ S (final s tr) (final u tr')
  | _, [], _, h, _ => ⟨[], trivial, h⟩
  | s, (i, t) :: tr, u, h, ⟨h1, h2⟩ => by
    obtain ⟨tr₁, hst, hS⟩ := hstep s i t u h h1
    obtain ⟨tr₂, hst', hS'⟩ := simulates hstep hS h2
    refine ⟨tr₁ ++ tr₂, steps_append.mpr ⟨hst, hst'⟩, ?_⟩
    rw [final_cons, final_append]
    exact hS'

/-- **Potential.** If every step of a kind lowers the potential of the state, and no other step
raises it, a trace takes at most so many steps of the kind as the potential of its first state. -/
theorem Steps.countP_le {J : σ → Prop} {φ : σ → ℕ} {P : ι → Bool}
    (hJ : ∀ s i t, J s → R s i t → J t)
    (hφ : ∀ s i t, J s → R s i t → (P i).toNat + φ t ≤ φ s) :
    ∀ {s : σ} {tr : List (ι × σ)}, J s → Steps R s tr →
      (tr.countP fun x => P x.1) + φ (final s tr) ≤ φ s
  | s, [], _, _ => by simp [final]
  | s, (i, t) :: tr, h0, ⟨h1, h2⟩ => by
    have ih := Steps.countP_le hJ hφ (hJ s i t h0 h1) h2
    have hst := hφ s i t h0 h1
    rw [final_cons, List.countP_cons]
    cases hP : P i
    · rw [hP] at hst
      simp at hst ⊢
      omega
    · rw [hP] at hst
      simp at hst ⊢
      omega

theorem exists_prefix {s : σ} {tr : List (ι × σ)} (h : Steps R s tr) {x : ι × σ} (hx : x ∈ tr) :
    ∃ pre, Steps R s pre ∧ final s pre = x.2 := by
  obtain ⟨pre, post, rfl⟩ := List.append_of_mem hx
  obtain ⟨i, t⟩ := x
  refine ⟨pre ++ [(i, t)], ?_, final_concat⟩
  obtain ⟨h1, h2⟩ := steps_append.mp h
  exact steps_concat.mpr ⟨h1, h2.1⟩

end Serie.Lib.Simulation
