import Mathlib.Data.List.Induction
import Mathlib.Tactic.Common

/-! # Traces of a labelled step relation

A *trace* from `s` is the list of the labels and states that follow `s`. `Steps R s tr` says that
every step of the trace is an `R`-step, so one definition states both that `tr` is a run (`R` the
step relation) and that every step of a run meets a guard (`R` the guard).

* `Steps.forall_mem`: an invariant of the steps holds in every state of the trace.
* `Steps.forall_mem_iff`: if, from the states of an invariant, a step keeps a property exactly when
  it meets a guard, then a run keeps the property throughout exactly when all its steps meet the
  guard.
* `Steps.history`: an invariant of the run so far, one step after the other.
* `Steps.last_written`: what only some of the steps write is as the last of them wrote it. -/

namespace Serie.Lib.Trace

variable {σ ι : Type*}

/-- Every step of the trace `tr` from `s` is in `R`. -/
def Steps (R : σ → ι → σ → Prop) : σ → List (ι × σ) → Prop
  | _, [] => True
  | s, (i, t) :: tr => R s i t ∧ Steps R t tr

/-- The last state of a trace. -/
def final (s : σ) (tr : List (ι × σ)) : σ := (tr.map Prod.snd).getLast?.getD s

section Basic
variable {R Q : σ → ι → σ → Prop} {s t : σ} {i : ι} {tr tr' : List (ι × σ)}

@[simp] theorem steps_nil : Steps R s [] := trivial

@[simp] theorem steps_cons : Steps R s ((i, t) :: tr) ↔ R s i t ∧ Steps R t tr := Iff.rfl

@[simp] theorem final_cons : final s ((i, t) :: tr) = final t tr := by
  unfold final
  rw [List.map_cons, List.getLast?_cons]
  simp

theorem forall_final {P : σ → Prop} : ∀ {s : σ} {tr : List (ι × σ)}, (∀ x ∈ tr, P x.2) → tr ≠ [] →
    P (final s tr)
  | _, [], _, h => absurd rfl h
  | _, [x], hp, _ => hp x (List.mem_singleton_self x)
  | s, (i, t) :: y :: tr, hp, _ => by
    rw [final_cons]
    exact forall_final (fun x hx => hp x (List.mem_cons_of_mem _ hx)) (List.cons_ne_nil y tr)

theorem steps_and :
    Steps (fun s i t => R s i t ∧ Q s i t) s tr ↔ Steps R s tr ∧ Steps Q s tr := by
  induction tr generalizing s with
  | nil => simp
  | cons x tr ih =>
    obtain ⟨i, t⟩ := x
    simp only [steps_cons, ih]
    tauto

end Basic

/-! ### Invariants -/

section Invariant
variable {R : σ → ι → σ → Prop} {J : σ → Prop}

/-- **An invariant of the steps holds in every state of a trace.** -/
theorem Steps.forall_mem (hstep : ∀ s i t, J s → R s i t → J t) :
    ∀ {s tr}, J s → Steps R s tr → ∀ x ∈ tr, J x.2
  | _, [], _, _ => by simp
  | _, (i, t) :: tr, h0, ⟨h1, h2⟩ => by
    have ht := hstep _ _ _ h0 h1
    intro x hx
    rcases List.mem_cons.mp hx with rfl | hx
    · exact ht
    · exact Steps.forall_mem hstep ht h2 x hx

theorem Steps.final (hstep : ∀ s i t, J s → R s i t → J t) :
    ∀ {s tr}, J s → Steps R s tr → J (final s tr)
  | _, [], h0, _ => h0
  | _, (i, t) :: tr, h0, ⟨h1, h2⟩ => by
    rw [final_cons]
    exact Steps.final hstep (hstep _ _ _ h0 h1) h2

end Invariant

/-! ### Guarded properties -/

section Guard
variable {R : σ → ι → σ → Prop} {J P : σ → Prop} {G : σ → ι → Prop}

/-- **Exactness of a guard.** From the states of `J`, a step that meets the guard stays in `J`, and
one that does not loses `P`; so `P` holds along the run exactly when every step meets the guard. -/
theorem Steps.forall_mem_iff (hP : ∀ s, J s → P s)
    (hgood : ∀ s i t, J s → R s i t → G s i → J t)
    (hbad : ∀ s i t, J s → R s i t → ¬ G s i → ¬ P t) :
    ∀ {s tr}, J s → Steps R s tr →
      ((∀ x ∈ tr, P x.2) ↔ Steps (fun s i _ => G s i) s tr)
  | _, [], _, _ => by simp
  | s, (i, t) :: tr, h0, ⟨h1, h2⟩ => by
    by_cases hg : G s i
    · have ht := hgood s i t h0 h1 hg
      have ih := Steps.forall_mem_iff hP hgood hbad ht h2
      simp [hg, hP t ht, ← ih]
    · have hn := hbad s i t h0 h1 hg
      simp [hg, hn]

/-- Two guards that agree on the steps of a run are met by the same runs. -/
theorem Steps.congr {A B : σ → ι → σ → Prop} (hstep : ∀ s i t, J s → R s i t → J t)
    (h : ∀ s i t, J s → R s i t → (A s i t ↔ B s i t)) :
    ∀ {s tr}, J s → Steps R s tr → (Steps A s tr ↔ Steps B s tr)
  | _, [], _, _ => Iff.rfl
  | _, (_, _) :: _, h0, ⟨h1, h2⟩ =>
    and_congr (h _ _ _ h0 h1) (Steps.congr hstep h (hstep _ _ _ h0 h1) h2)

end Guard

/-! ### What is recorded once -/

section Record
variable {ρ β : Type*} {R : σ → ι → σ → Prop} {J : σ → Prop}
  {Q : σ → ι → ρ → Prop} {V : σ → ρ → β} {D : σ → ρ → Prop}

/-- The value that a step records for `r` is the value of `r` in every later state. -/
def Stays (Q : σ → ι → ρ → Prop) (V : σ → ρ → β) (s : σ) (tr : List (ι × σ)) : Prop :=
  ∀ pre i t post, tr = pre ++ (i, t) :: post → ∀ r, Q (final s pre) i r →
    ∀ x ∈ post, V x.2 r = V t r

theorem stays_cons {s : σ} {i : ι} {t : σ} {tr : List (ι × σ)} :
    Stays Q V s ((i, t) :: tr) ↔
      (∀ r, Q s i r → ∀ x ∈ tr, V x.2 r = V t r) ∧ Stays Q V t tr := by
  constructor
  · refine fun h => ⟨fun r hr => h [] i t tr rfl r hr, fun pre i' t' post he r hr => ?_⟩
    exact h ((i, t) :: pre) i' t' post (by rw [he]; rfl) r (by rwa [final_cons])
  · rintro ⟨h0, h⟩ pre i' t' post he r hr
    rcases pre with _ | ⟨y, pre⟩
    · cases he; exact h0 r hr
    · cases he
      rw [final_cons] at hr
      exact h pre i' t' post rfl r hr

/-- **What is recorded stays exactly when every step keeps what was recorded before it.** `D s`
holds the records for which something was recorded. -/
theorem stays_iff_keeps (hstep : ∀ s i t, J s → R s i t → J t)
    (hnew : ∀ s i t, J s → R s i t → ∀ r, D t r → D s r ∨ Q s i r)
    (hrec : ∀ s i t, J s → R s i t → ∀ r, Q s i r → D t r)
    (hold : ∀ s i t, J s → R s i t → ∀ r, D s r → V t r = V s r → D t r) :
    ∀ {s tr}, J s → Steps R s tr →
      ((∀ r, D s r → ∀ x ∈ tr, V x.2 r = V s r) ∧ Stays Q V s tr ↔
        Steps (fun s _ t => ∀ r, D s r → V t r = V s r) s tr)
  | s, [], _, _ => by simp [Stays]
  | s, (i, t) :: tr, h0, ⟨h1, h2⟩ => by
    have ht := hstep _ _ _ h0 h1
    rw [steps_cons, ← stays_iff_keeps hstep hnew hrec hold ht h2, stays_cons]
    constructor
    · rintro ⟨hd, hr, hs⟩
      have hk : ∀ r, D s r → V t r = V s r := fun r h => hd r h (i, t) (by simp)
      refine ⟨hk, fun r h x hx => ?_, hs⟩
      rcases hnew _ _ _ h0 h1 r h with h | h
      · rw [hk r h]; exact hd r h x (List.mem_cons_of_mem _ hx)
      · exact hr r h x hx
    · rintro ⟨hk, hd, hs⟩
      refine ⟨fun r h x hx => ?_, fun r h => hd r (hrec _ _ _ h0 h1 r h), hs⟩
      rcases List.mem_cons.mp hx with rfl | hx
      · exact hk r h
      · exact (hd r (hold _ _ _ h0 h1 r h (hk r h)) x hx).trans (hk r h)

end Record

/-! ### The run so far -/

section History
variable {R A : σ → ι → σ → Prop} {B : ι → σ → Prop} {s t : σ} {i : ι} {tr : List (ι × σ)}

@[simp] theorem final_concat : final s (tr ++ [(i, t)]) = t := by
  simp [final]

theorem final_append (pre post : List (ι × σ)) :
    final s (pre ++ post) = final (final s pre) post := by
  induction pre generalizing s with
  | nil => rfl
  | cons x pre ih =>
    obtain ⟨j, u⟩ := x
    rw [List.cons_append, final_cons, final_cons, ih]

theorem final_append_cons (pre post : List (ι × σ)) :
    final s (pre ++ (i, t) :: post) = final t post := by
  rw [final_append, final_cons]

theorem steps_append {pre post : List (ι × σ)} :
    Steps R s (pre ++ post) ↔ Steps R s pre ∧ Steps R (final s pre) post := by
  induction pre generalizing s with
  | nil => simp [final]
  | cons x pre ih =>
    obtain ⟨j, u⟩ := x
    simp only [List.cons_append, steps_cons, final_cons, ih, and_assoc]

theorem steps_concat : Steps R s (tr ++ [(i, t)]) ↔ Steps R s tr ∧ R (final s tr) i t := by
  rw [steps_append, steps_cons]
  simp

theorem Steps.take (h : Steps R s tr) (n : ℕ) : Steps R s (tr.take n) := by
  rw [← List.take_append_drop n tr] at h
  exact (steps_append.mp h).1

/-- **An invariant of the run so far** holds of every run. -/
theorem Steps.history {K : List (ι × σ) → Prop} (h0 : K [])
    (hstep : ∀ tr i t, Steps R s tr → K tr → R (Trace.final s tr) i t → K (tr ++ [(i, t)])) :
    ∀ {tr}, Steps R s tr → K tr := by
  intro tr
  induction tr using List.reverseRecOn with
  | nil => exact fun _ => h0
  | append_singleton tr x ih =>
    obtain ⟨i, t⟩ := x
    intro h
    obtain ⟨h1, h2⟩ := steps_concat.mp h
    exact hstep tr i t h1 (ih h1) h2

/-- After every `A`-step of the trace there is a `B`-step. -/
def Followed (A : σ → ι → σ → Prop) (B : ι → σ → Prop) (s : σ) (tr : List (ι × σ)) : Prop :=
  ∀ pre i t post, tr = pre ++ (i, t) :: post → A (final s pre) i t → ∃ x ∈ post, B x.1 x.2

theorem followed_nil : Followed A B s [] := by
  intro pre i t post h
  simp at h

theorem followed_concat : Followed A B s (tr ++ [(i, t)]) ↔
    ¬ A (final s tr) i t ∧ (B i t ∨ Followed A B s tr) := by
  constructor
  · intro h
    refine ⟨fun ha => ?_, or_iff_not_imp_left.mpr fun hb => ?_⟩
    · obtain ⟨x, hx, -⟩ := h tr i t [] rfl ha
      cases hx
    · rintro pre j u post rfl ha
      obtain ⟨x, hx, hbx⟩ := h pre j u (post ++ [(i, t)]) (by simp) ha
      rcases List.mem_append.mp hx with hx | hx
      · exact ⟨x, hx, hbx⟩
      · rw [List.mem_singleton.mp hx] at hbx
        exact absurd hbx hb
  · rintro ⟨ha, hb⟩ pre j u post he hau
    rcases List.eq_nil_or_concat post with rfl | ⟨post', x, rfl⟩
    · obtain ⟨rfl, hx⟩ := List.append_inj' he rfl
      cases hx
      exact absurd hau ha
    · have he' : tr ++ [(i, t)] = (pre ++ (j, u) :: post') ++ [x] := by rw [he]; simp
      obtain ⟨rfl, hx⟩ := List.append_inj' he' rfl
      cases hx
      rcases hb with hb | hb
      · exact ⟨(i, t), by simp, hb⟩
      · obtain ⟨y, hy, hby⟩ := hb pre j u post' rfl hau
        exact ⟨y, by simp [hy], hby⟩

/-- The last `Q`-step of the trace has the label `i`. -/
def LastStep (Q : σ → ι → σ → Prop) (s : σ) (tr : List (ι × σ)) (i : ι) : Prop :=
  ∃ pre t post, tr = pre ++ (i, t) :: post ∧ Q (final s pre) i t ∧
    Steps (fun s i t => ¬ Q s i t) t post

theorem LastStep.mem {j : ι} (h : LastStep A s tr j) : ∃ t, (j, t) ∈ tr := by
  obtain ⟨pre, t, post, rfl, -⟩ := h
  exact ⟨t, by simp⟩

theorem not_lastStep {j : ι} (h : Steps (fun s i t => ¬ A s i t) s tr) :
    ¬ LastStep A s tr j := by
  rintro ⟨pre, u, post, rfl, ha, -⟩
  exact (steps_append.mp h).2.1 ha

theorem lastStep_concat {j : ι} : LastStep A s (tr ++ [(i, t)]) j ↔
    A (final s tr) i t ∧ j = i ∨ ¬ A (final s tr) i t ∧ LastStep A s tr j := by
  constructor
  · rintro ⟨pre, u, post, he, hq, hpost⟩
    rcases List.eq_nil_or_concat post with rfl | ⟨post', ⟨i', t'⟩, rfl⟩
    · obtain ⟨rfl, hx⟩ := List.append_inj' he rfl
      cases hx
      exact Or.inl ⟨hq, rfl⟩
    · have he' : tr ++ [(i, t)] = (pre ++ (j, u) :: post') ++ [(i', t')] := by simp [he]
      obtain ⟨rfl, hx⟩ := List.append_inj' he' rfl
      cases hx
      rw [List.concat_eq_append] at hpost
      obtain ⟨hpre, hlast⟩ := steps_concat.mp hpost
      rw [final_append_cons]
      exact Or.inr ⟨hlast, pre, u, post', rfl, hq, hpre⟩
  · rintro (⟨hq, rfl⟩ | ⟨hn, pre, u, post, rfl, hq, hpost⟩)
    · exact ⟨tr, t, [], rfl, hq, trivial⟩
    · refine ⟨pre, u, post ++ [(i, t)], by simp, hq, steps_concat.mpr ⟨hpost, ?_⟩⟩
      rwa [final_append_cons] at hn

/-- **What only `A`-steps write is as the last one wrote it.** `D` says whether there is something
to write to, `v` is what it holds when it appears. -/
theorem Steps.last_written {β : Type*} {J D : σ → Prop} {V : σ → β} {f : ι → β} {v : β}
    (hJ : ∀ s i t, J s → R s i t → J t)
    (hA : ∀ s i t, J s → R s i t → A s i t → D t ∧ V t = f i)
    (hN : ∀ s i t, J s → R s i t → ¬ A s i t →
      (D s → D t ∧ V t = V s) ∧ (D t → ¬ D s → V t = v))
    (h0 : J s) (hs : ¬ D s) (hr : Steps R s tr) :
    (¬ D (Trace.final s tr) → Steps (fun s i t => ¬ A s i t) s tr) ∧
      (D (Trace.final s tr) →
        Steps (fun s i t => ¬ A s i t) s tr ∧ V (Trace.final s tr) = v ∨
          ∃ i, LastStep A s tr i ∧ V (Trace.final s tr) = f i) := by
  refine Steps.history (R := R) (s := s) (K := fun tr =>
    (¬ D (Trace.final s tr) → Steps (fun s i t => ¬ A s i t) s tr) ∧
      (D (Trace.final s tr) →
        Steps (fun s i t => ¬ A s i t) s tr ∧ V (Trace.final s tr) = v ∨
          ∃ i, LastStep A s tr i ∧ V (Trace.final s tr) = f i))
    ⟨fun _ => trivial, fun h => absurd h hs⟩ ?_ hr
  rintro tr i t hst ⟨hnew, hold⟩ hi
  have hj : J (Trace.final s tr) := Steps.final hJ h0 hst
  simp only [final_concat, lastStep_concat, steps_concat]
  by_cases ha : A (Trace.final s tr) i t
  · obtain ⟨hd, hv⟩ := hA _ _ _ hj hi ha
    exact ⟨fun h => absurd hd h, fun _ => Or.inr ⟨i, Or.inl ⟨ha, rfl⟩, hv⟩⟩
  · obtain ⟨hkeep, hfirst⟩ := hN _ _ _ hj hi ha
    by_cases hd : D (Trace.final s tr)
    · obtain ⟨hdt, hvt⟩ := hkeep hd
      refine ⟨fun h => absurd hdt h, fun _ => ?_⟩
      rcases hold hd with ⟨hno, hv⟩ | ⟨j, hj, hv⟩
      · exact Or.inl ⟨⟨hno, ha⟩, hvt.trans hv⟩
      · exact Or.inr ⟨j, Or.inr ⟨ha, hj⟩, hvt.trans hv⟩
    · exact ⟨fun _ => ⟨hnew hd, ha⟩, fun hdt => Or.inl ⟨⟨hnew hd, ha⟩, hfirst hdt hd⟩⟩

end History

end Serie.Lib.Trace
