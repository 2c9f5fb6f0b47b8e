import Mathlib.Data.List.Induction

/-! Runs of labelled transition systems, the rule that carries an invariant through a
run, and forward simulation of one system by another over the same labels. -/
namespace Transition

variable {S A L : Type*}

/-- A run from a state, with the labels of its steps in order. -/
inductive Run (step : S → L → S → Prop) (s : S) : List L → S → Prop
  | start : Run step s [] s
  | snoc {ls : List L} {l : L} {t u : S} (hr : Run step s ls t) (hs : step t l u) :
    Run step s (ls ++ [l]) u

variable {step : S → L → S → Prop} {astep : A → L → A → Prop}

/-- An invariant that every step keeps holds at the end of every run. -/
theorem Run.inv {I : S → Prop} {s t : S} {ls : List L} (hr : Run step s ls t)
    (hstep : ∀ s l t, step s l t → I s → I t) (hI : I s) : I t := by
  induction hr with
  | start => exact hI
  | snoc _ hs ih => exact hstep _ _ _ hs ih

/-- An invariant may use the labels seen so far. -/
theorem Run.inv_trace {I : List L → S → Prop} {s t : S} {ls : List L} (hr : Run step s ls t)
    (hstep : ∀ ls s l t, step s l t → I ls s → I (ls ++ [l]) t) (hI : I [] s) : I ls t := by
  induction hr with
  | start => exact hI
  | snoc _ hs ih => exact hstep _ _ _ _ hs ih

/-- A run can be cut between any two of its labels. -/
theorem Run.split {s u : S} {ls l₁ l₂ : List L} (hr : Run step s ls u) (h : ls = l₁ ++ l₂) :
    ∃ t, Run step s l₁ t ∧ Run step t l₂ u := by
  induction hr generalizing l₂ with
  | start =>
    obtain ⟨rfl, rfl⟩ := List.append_eq_nil_iff.mp h.symm
    exact ⟨s, Run.start, Run.start⟩
  | snoc hr hs ih =>
    rcases List.eq_nil_or_concat l₂ with rfl | ⟨l₃, l, rfl⟩
    · rw [List.append_nil] at h
      exact ⟨_, h ▸ hr.snoc hs, Run.start⟩
    · rw [List.concat_eq_append, ← List.append_assoc] at h
      obtain ⟨hls, hl⟩ := List.append_inj' h rfl
      obtain ⟨t, h1, h2⟩ := ih hls
      rw [List.concat_eq_append, ← hl]
      exact ⟨t, h1, h2.snoc hs⟩

/-- One run after the other. -/
theorem Run.trans {s t u : S} {ls ls' : List L} (h1 : Run step s ls t) (h2 : Run step t ls' u) :
    Run step s (ls ++ ls') u := by
  induction h2 with
  | start =>
    rw [List.append_nil]
    exact h1
  | snoc _ hs ih =>
    rw [← List.append_assoc]
    exact ih.snoc hs

theorem Run.eq_of_nil {s u : S} {ls : List L} (hr : Run step s ls u) (h : ls = []) : u = s := by
  cases hr with
  | start => rfl
  | snoc _ _ => exact absurd h (by simp)

/-- A run that has labels begins with a step. -/
theorem Run.cons_inv {s u : S} {l : L} {ls ls' : List L} (hr : Run step s ls' u)
    (h : ls' = l :: ls) : ∃ t, step s l t ∧ Run step t ls u := by
  induction hr generalizing ls with
  | start => exact absurd h (by simp)
  | @snoc ls₀ l₀ t u hr hs ih =>
    cases ls₀ with
    | nil =>
      obtain ⟨rfl, rfl⟩ := List.cons_eq_cons.mp h
      obtain rfl := hr.eq_of_nil rfl
      exact ⟨u, hs, Run.start⟩
    | cons l₁ ls₁ =>
      obtain ⟨rfl, rfl⟩ := List.cons_eq_cons.mp h
      obtain ⟨t', h1, h2⟩ := ih rfl
      exact ⟨t', h1, h2.snoc hs⟩

/-- Forward simulation: where each step is matched, each run is matched, label by label. -/
theorem Run.simulates {R : S → A → Prop} {s t : S} {a : A} {ls : List L}
    (hr : Run step s ls t)
    (hstep : ∀ s l t a, step s l t → R s a → ∃ b, astep a l b ∧ R t b) (hR : R s a) :
    ∃ b, Run astep a ls b ∧ R t b := by
  induction hr with
  | start => exact ⟨a, Run.start, hR⟩
  | snoc _ hs ih =>
    obtain ⟨b, hb, hRb⟩ := ih
    obtain ⟨c, hc, hRc⟩ := hstep _ _ _ _ hs hRb
    exact ⟨c, hb.snoc hc, hRc⟩

/-- Forward simulation by a system that does not see every label: a step that it does not
see leaves it where it is. -/
theorem Run.simulates_seen {B : Type*} {bstep : A → B → A → Prop} {seen : L → Option B}
    {R : S → A → Prop} {s t : S} {a : A} {ls : List L} (hr : Run step s ls t)
    (hstep : ∀ s l t a, step s l t → R s a →
      ∃ b, (∀ o, seen l = some o → bstep a o b) ∧ (seen l = none → b = a) ∧ R t b) (hR : R s a) :
    ∃ b, Run bstep a (ls.filterMap seen) b ∧ R t b := by
  induction hr with
  | start => exact ⟨a, Run.start, hR⟩
  | @snoc ls l t u _ hs ih =>
    obtain ⟨b, hb, hRb⟩ := ih
    obtain ⟨c, hseen, hsilent, hRc⟩ := hstep _ _ _ _ hs hRb
    refine ⟨c, ?_, hRc⟩
    rw [List.filterMap_append, List.filterMap_cons, List.filterMap_nil]
    cases hl : seen l with
    | none =>
      rw [hsilent hl, List.append_nil]
      exact hb
    | some o => exact hb.snoc (hseen o hl)

/-- A deterministic system keeps `P` along a whole sequence exactly when each step of it meets
the condition `Q`; the invariant `I` holds whether or not it does. -/
theorem foldl_always_iff {f : S → L → S} {I P : S → Prop} {Q : S → L → Prop} {s : S}
    (hI : I s) (hkeep : ∀ s l, I s → I (f s l))
    (hstep : ∀ s l, I s → P s → (P (f s l) ↔ Q s l)) (ls : List L) :
    (∀ pre, pre <+: ls → P (pre.foldl f s)) ↔
      P s ∧ ∀ pre l, pre ++ [l] <+: ls → Q (pre.foldl f s) l := by
  have hinv (pre : List L) : I (pre.foldl f s) := by
    induction pre using List.reverseRecOn with
    | nil => exact hI
    | append_singleton pre l ih =>
      rw [List.foldl_append]
      exact hkeep _ l ih
  constructor
  · intro hall
    refine ⟨hall [] (List.nil_prefix), fun pre l hpre => ?_⟩
    have hnext := hall _ hpre
    rw [List.foldl_append] at hnext
    exact (hstep _ l (hinv pre) (hall pre ((List.prefix_append pre [l]).trans hpre))).mp hnext
  · rintro ⟨hs, hall⟩ pre hpre
    induction pre using List.reverseRecOn with
    | nil => exact hs
    | append_singleton pre l ih =>
      rw [List.foldl_append]
      exact (hstep _ l (hinv pre) (ih ((List.prefix_append pre [l]).trans hpre))).mpr
        (hall pre l hpre)

/-- Progress by a measure: where it is lower at some later time unless `P` holds by then, `P`
holds in the end. -/
theorem eventually_of_measure {f : ℕ → S} {P : S → Prop} (μ : S → ℕ)
    (hfall : ∀ n, ∃ m, n ≤ m ∧ (P (f m) ∨ μ (f m) < μ (f n))) (n : ℕ) : ∃ m, n ≤ m ∧ P (f m) := by
  induction hk : μ (f n) using Nat.strongRecOn generalizing n with
  | ind k ih =>
    obtain ⟨m, hm, hP | hlt⟩ := hfall n
    · exact ⟨m, hm, hP⟩
    · obtain ⟨m', hm', hP⟩ := ih _ (hk ▸ hlt) m rfl
      exact ⟨m', Nat.le_trans hm hm', hP⟩

end Transition
