import Mathlib.Data.List.Basic

/-!
# Runs of a partial step function

A machine is a partial step function `step : σ → α → Option σ`. The result `none` says that the
action does not happen in that state: it is not enabled there, or it ends in an exception. A run is
a list of actions, and `run` gives the state at its end.

Two predicates speak about a whole run: `Always` about every state it passes through, `Along` about
every step it takes (the state before the step together with the action). A property that holds
only under a condition on the steps is stated with `Along`.
-/

namespace Xyco.Machine

variable {σ α : Type*}

/-- The state at the end of the run `as` from `s`, if every action of it happens. -/
def run (step : σ → α → Option σ) : σ → List α → Option σ
  | s, [] => some s
  | s, a :: as => (step s a).bind fun t => run step t as

/-- `P` holds in every state that the run `as` from `s` passes through, `s` included. A run that
gets stuck passes through the states before that point. -/
def Always (step : σ → α → Option σ) (P : σ → Prop) : σ → List α → Prop
  | s, [] => P s
  | s, a :: as => P s ∧ ∀ t, step s a = some t → Always step P t as

/-- `G` holds of every step that the run `as` from `s` takes. -/
def Along (step : σ → α → Option σ) (G : σ → α → Prop) : σ → List α → Prop
  | _, [] => True
  | s, a :: as => ∀ t, step s a = some t → G s a ∧ Along step G t as

/-- How many steps of the run `as` from `s` meet `q`. -/
def count (step : σ → α → Option σ) (q : σ → α → Bool) : σ → List α → ℕ
  | _, [] => 0
  | s, a :: as =>
    match step s a with
    | none => 0
    | some t => (if q s a then 1 else 0) + count step q t as

instance decidableAlong (step : σ → α → Option σ) (G : σ → α → Prop) [∀ s a, Decidable (G s a)] :
    ∀ (as : List α) (s : σ), Decidable (Along step G s as)
  | [], _ => isTrue trivial
  | a :: as, s =>
    match hs : step s a with
    | none => isTrue fun t ht => by rw [hs] at ht; cases ht
    | some t =>
      have := decidableAlong step G as t
      decidable_of_iff (G s a ∧ Along step G t as)
        ⟨fun h u hu => by rw [hs] at hu; cases hu; exact h, fun h => h t hs⟩

/-- The states at the end of some run from `init`. -/
def Reachable (step : σ → α → Option σ) (init s : σ) : Prop := ∃ as, run step init as = some s

variable {step : σ → α → Option σ} {P I : σ → Prop} {G : σ → α → Prop}

/-- A step that is one assignment under a guard. -/
theorem eq_of_guard {p : Prop} [Decidable p] {s t : σ} (h : (if p then some t else none) = some s) :
    p ∧ s = t := by
  split at h
  · rename_i hp
    exact ⟨hp, (Option.some.inj h).symm⟩
  · cases h

/-- A step that is one of two assignments. -/
theorem eq_of_branch {p : Prop} [Decidable p] {s t u : σ}
    (h : (if p then some t else some u) = some s) : (p ∧ s = t) ∨ (¬ p ∧ s = u) := by
  split at h
  · rename_i hp
    exact Or.inl ⟨hp, (Option.some.inj h).symm⟩
  · rename_i hp
    exact Or.inr ⟨hp, (Option.some.inj h).symm⟩

@[simp] theorem run_nil (s : σ) : run step s [] = some s := rfl

@[simp] theorem run_cons (s : σ) (a : α) (as : List α) :
    run step s (a :: as) = (step s a).bind fun t => run step t as := rfl

/-- Running `as ++ bs` is running `as` and then `bs`. -/
theorem run_append (s : σ) (as bs : List α) :
    run step s (as ++ bs) = (run step s as).bind fun t => run step t bs := by
  induction as generalizing s with
  | nil => rfl
  | cons a as ih =>
    simp only [List.cons_append, run_cons]
    cases step s a with
    | none => rfl
    | some t => simpa using ih t

/-- A run that ends in `t` and one more step. -/
theorem run_concat {s t : σ} {as : List α} (h : run step s as = some t) (a : α) :
    run step s (as ++ [a]) = step t a := by
  rw [run_append, h]
  simp

/-- A result and a fact about it, by evaluation. -/
theorem exists_of_any {o : Option σ} {Q : σ → Prop} [DecidablePred Q]
    (h : o.any (fun t => decide (Q t)) = true) : ∃ t, o = some t ∧ Q t := by
  obtain ⟨t, ho, ht⟩ := (Option.any_eq_true _ _).mp h
  exact ⟨t, ho, of_decide_eq_true ht⟩

theorem exists_run {s : σ} {as : List α} {Q : σ → Prop} [DecidablePred Q]
    (h : (run step s as).any (fun t => decide (Q t)) = true) :
    ∃ t, run step s as = some t ∧ Q t :=
  exists_of_any h

/-! ## Invariants -/

/-- A predicate kept by every step that meets `G` holds at the end of a run whose steps all do. -/
theorem run_invariant_along (hstep : ∀ s a t, I s → G s a → step s a = some t → I t)
    {s t : σ} {as : List α} (hs : I s) (hG : Along step G s as) (h : run step s as = some t) :
    I t := by
  induction as generalizing s with
  | nil =>
    obtain rfl : s = t := by simpa using h
    exact hs
  | cons a as ih =>
    cases hu : step s a with
    | none => simp [hu] at h
    | some u =>
      rw [run_cons, hu] at h
      obtain ⟨hg, hG'⟩ := hG u hu
      exact ih (hstep s a u hs hg hu) hG' h

/-- A condition on the steps, from what is known of the run before each of them. -/
theorem along_of_forall {s : σ} {as : List α}
    (h : ∀ pre a post t u, as = pre ++ a :: post → run step s pre = some t → step t a = some u →
      G t a) : Along step G s as := by
  induction as generalizing s with
  | nil => trivial
  | cons a as ih =>
    intro t ht
    refine ⟨h [] a as s t rfl rfl ht, ih fun pre b post u v hpre hu hv => ?_⟩
    refine h (a :: pre) b post u v (by rw [hpre]; rfl) ?_ hv
    rw [run_cons, ht]
    exact hu

/-- A condition on the actions alone. -/
theorem along_of_actions {p : α → Prop} {s : σ} {as : List α} (h : ∀ a ∈ as, p a) :
    Along step (fun _ a => p a) s as := by
  refine along_of_forall fun pre a post t u has _ _ => h a ?_
  rw [has]
  exact List.mem_append_right _ List.mem_cons_self

/-- A predicate kept by every step holds at the end of every run. -/
theorem run_invariant (hstep : ∀ s a t, I s → step s a = some t → I t)
    {s t : σ} {as : List α} (hs : I s) (h : run step s as = some t) : I t := by
  have hG : Along step (fun _ _ => True) s as := along_of_forall fun _ _ _ _ _ _ _ _ => trivial
  exact run_invariant_along (fun s a t hi _ hst => hstep s a t hi hst) hs hG h

theorem Reachable.refl (s : σ) : Reachable step s s := ⟨[], rfl⟩

theorem Reachable.tail {s t u : σ} {a : α} (h : Reachable step s t) (hst : step t a = some u) :
    Reachable step s u := by
  obtain ⟨as, has⟩ := h
  exact ⟨as ++ [a], by rw [run_concat has, hst]⟩

theorem Reachable.invariant {s t : σ} (h : Reachable step s t) (hs : I s)
    (hstep : ∀ s a t, I s → step s a = some t → I t) : I t := by
  obtain ⟨as, has⟩ := h
  exact run_invariant hstep hs has

/-- A simulation with stuttering: what each step does is nothing or one step of an abstract
machine. -/
theorem Reachable.simulate {τ β : Type*} {step' : τ → β → Option τ} (abs : σ → τ) {s t : σ}
    (h : Reachable step s t)
    (hstep : ∀ s a t, step s a = some t → abs t = abs s ∨ ∃ b, step' (abs s) b = some (abs t)) :
    Reachable step' (abs s) (abs t) := by
  refine h.invariant (I := fun t => Reachable step' (abs s) (abs t)) (Reachable.refl _) ?_
  intro u a v hu huv
  rcases hstep u a v huv with heq | ⟨b, hb⟩
  · rw [heq]
    exact hu
  · exact hu.tail hb

/-- A measure that some step makes smaller, as long as `P` does not hold: every run can be continued
to a state where it does. -/
theorem exists_run_of_measure (m : σ → ℕ) (hkeep : ∀ s a t, I s → step s a = some t → I t)
    (hstep : ∀ s, I s → ¬ P s → ∃ a t, step s a = some t ∧ m t < m s) {s : σ} (hs : I s) :
    ∃ as t, run step s as = some t ∧ I t ∧ P t := by
  induction hn : m s using Nat.strongRecOn generalizing s with
  | ind n ih =>
    by_cases hP : P s
    · exact ⟨[], s, rfl, hs, hP⟩
    · obtain ⟨a, t, hst, hlt⟩ := hstep s hs hP
      obtain ⟨as, u, hrun, hu⟩ := ih (m t) (hn ▸ hlt) (hkeep s a t hs hst) rfl
      refine ⟨a :: as, u, ?_, hu⟩
      rw [run_cons, hst]
      exact hrun

/-- A measure that the steps in `q` make smaller and no step makes larger bounds how many steps in `q`
a run takes. -/
theorem count_add_le_of_measure {q : σ → α → Bool} (m : σ → ℕ)
    (hkeep : ∀ s a t, I s → G s a → step s a = some t → I t)
    (hstep : ∀ s a t, I s → G s a → step s a = some t → m t + (if q s a then 1 else 0) ≤ m s)
    {s t : σ} {as : List α} (hs : I s) (hG : Along step G s as) (h : run step s as = some t) :
    count step q s as + m t ≤ m s := by
  induction as generalizing s with
  | nil =>
    obtain rfl : s = t := by simpa using h
    simp [count]
  | cons a as ih =>
    cases hu : step s a with
    | none => simp [hu] at h
    | some u =>
      rw [run_cons, hu] at h
      obtain ⟨hg, hG'⟩ := hG u hu
      have hrest := ih (hkeep s a u hs hg hu) hG' h
      have hfirst := hstep s a u hs hg hu
      simp only [count, hu]
      omega

theorem count_of_actions {q : α → Bool} {s t : σ} {as : List α} (h : run step s as = some t) :
    count step (fun _ a => q a) s as = as.countP q := by
  induction as generalizing s with
  | nil => rfl
  | cons a as ih =>
    cases hu : step s a with
    | none => simp [hu] at h
    | some u =>
      rw [run_cons, hu] at h
      simp only [count, hu, ih h, List.countP_cons]
      omega

theorem countP_add_le_of_measure {q : α → Bool} (m : σ → ℕ)
    (hkeep : ∀ s a t, I s → G s a → step s a = some t → I t)
    (hstep : ∀ s a t, I s → G s a → step s a = some t → m t + (if q a then 1 else 0) ≤ m s)
    {s t : σ} {as : List α} (hs : I s) (hG : Along step G s as) (h : run step s as = some t) :
    as.countP q + m t ≤ m s := by
  rw [← count_of_actions h]
  exact count_add_le_of_measure m hkeep hstep hs hG h

/-- `P` along a run whose steps all meet `G`, by an invariant. -/
theorem always_of_along (hP : ∀ s, I s → P s)
    (hkeep : ∀ s a t, I s → G s a → step s a = some t → I t) {s : σ} {as : List α}
    (hs : I s) (hG : Along step G s as) : Always step P s as := by
  induction as generalizing s with
  | nil => exact hP s hs
  | cons a as ih =>
    refine ⟨hP s hs, fun t ht => ?_⟩
    obtain ⟨hg, hG'⟩ := hG t ht
    exact ih (hkeep s a t hs hg ht) hG'

theorem Along.and {H : σ → α → Prop} {s : σ} {as : List α} (hG : Along step G s as)
    (hH : Along step H s as) : Along step (fun s a => G s a ∧ H s a) s as := by
  induction as generalizing s with
  | nil => trivial
  | cons a as ih =>
    intro t ht
    obtain ⟨hg, hG'⟩ := hG t ht
    obtain ⟨hh, hH'⟩ := hH t ht
    exact ⟨⟨hg, hh⟩, ih hG' hH'⟩

/-- The converse, if a step that does not meet `G` breaks `P` at once, in a run whose steps all meet
`H`. -/
theorem along_of_always_along {H : σ → α → Prop}
    (hkeep : ∀ s a t, I s → G s a ∧ H s a → step s a = some t → I t)
    (hbreak : ∀ s a t, I s → H s a → ¬ G s a → step s a = some t → ¬ P t) {s : σ} {as : List α}
    (hs : I s) (hH : Along step H s as) (hA : Always step P s as) : Along step G s as := by
  induction as generalizing s with
  | nil => trivial
  | cons a as ih =>
    obtain ⟨-, hA⟩ := hA
    intro t ht
    obtain ⟨hh, hH'⟩ := hH t ht
    have hPt : P t := by
      have := hA t ht
      cases as with
      | nil => exact this
      | cons b bs => exact this.1
    have hg : G s a := by
      by_contra hg
      exact hbreak s a t hs hh hg ht hPt
    exact ⟨hg, ih (hkeep s a t hs ⟨hg, hh⟩ ht) hH' (hA t ht)⟩

/-- The same for every run. -/
theorem along_of_always (hkeep : ∀ s a t, I s → G s a → step s a = some t → I t)
    (hbreak : ∀ s a t, I s → ¬ G s a → step s a = some t → ¬ P t) {s : σ} {as : List α}
    (hs : I s) (hA : Always step P s as) : Along step G s as :=
  along_of_always_along (fun s a t hs hg => hkeep s a t hs hg.1) (fun s a t hs _ => hbreak s a t hs)
    hs (along_of_forall fun _ _ _ _ _ _ _ _ => trivial) hA

/-- The exact condition for `P` along a run. -/
theorem always_iff_along (hP : ∀ s, I s → P s)
    (hkeep : ∀ s a t, I s → G s a → step s a = some t → I t)
    (hbreak : ∀ s a t, I s → ¬ G s a → step s a = some t → ¬ P t) {s : σ} (as : List α)
    (hs : I s) : Always step P s as ↔ Along step G s as :=
  ⟨along_of_always hkeep hbreak hs, always_of_along hP hkeep hs⟩

/-- The exact condition for `P` along a run whose steps all meet `H`. -/
theorem always_iff_along_of_along {H : σ → α → Prop} (hP : ∀ s, I s → P s)
    (hkeep : ∀ s a t, I s → G s a ∧ H s a → step s a = some t → I t)
    (hbreak : ∀ s a t, I s → H s a → ¬ G s a → step s a = some t → ¬ P t) {s : σ} {as : List α}
    (hs : I s) (hH : Along step H s as) : Always step P s as ↔ Along step G s as :=
  ⟨along_of_always_along hkeep hbreak hs hH, fun hG => always_of_along hP hkeep hs (hG.and hH)⟩

end Xyco.Machine
