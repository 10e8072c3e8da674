import Mathlib.Data.Fin.Tuple.Basic

/-!
# The arguments of a call, evaluated from left to right

The evaluation of an argument may change a state `σ` and may end in an exception of type `ε`, which
ends the evaluation of the call. The types of the arguments may differ.
-/

namespace Xyco.Args

variable {σ ε : Type*}

/-- The arguments in the order of their numbers. -/
def eval : {n : ℕ} → {T : Fin n → Type*} → (∀ i, σ → σ × Except ε (T i)) → σ →
    σ × Except ε (∀ i, T i)
  | 0, _, _, s => (s, .ok fun i => i.elim0)
  | _ + 1, _, args, s =>
    match args 0 s with
    | (s, .error e) => (s, .error e)
    | (s, .ok v) =>
      match eval (fun i => args i.succ) s with
      | (s, .error e) => (s, .error e)
      | (s, .ok vs) => (s, .ok (Fin.cons v vs))

section First

variable {n : ℕ} {T : Fin (n + 1) → Type*} {args : ∀ i, σ → σ × Except ε (T i)} {s s' : σ}

/-- An exception of the first argument ends the evaluation. -/
theorem eval_first_error {e : ε} (h : args 0 s = (s', .error e)) : eval args s = (s', .error e) := by
  rw [eval, h]

/-- Where the first argument has a value, the others decide. -/
theorem eval_first_ok {v : T 0} (h : args 0 s = (s', .ok v)) :
    (eval args s).1 = (eval (fun i => args i.succ) s').1 ∧
      (eval args s).2 = (eval (fun i => args i.succ) s').2.map fun vs => Fin.cons v vs := by
  rw [eval, h]
  dsimp only
  rcases eval (fun i => args i.succ) s' with ⟨s'', e | vs⟩
  · exact ⟨rfl, rfl⟩
  · exact ⟨rfl, rfl⟩

end First

/-- What a call gives whose arguments have results that do not depend on the state: all of them, if
none is an exception. -/
theorem eval_ok {n : ℕ} {T : Fin n → Type*} {args : ∀ i, σ → σ × Except ε (T i)} {t : ∀ i, T i}
    (h : ∀ i s, (args i s).2 = .ok (t i)) (s : σ) : (eval args s).2 = .ok t := by
  induction n generalizing s with
  | zero =>
    show Except.ok _ = _
    congr 1
    funext i
    exact i.elim0
  | succ n ih =>
    have h0 := h 0 s
    rcases harg : args 0 s with ⟨s', e | v⟩
    · rw [harg] at h0
      cases h0
    · rw [harg] at h0
      obtain rfl : v = t 0 := Except.ok.inj h0
      have hrest := ih (t := fun i => t i.succ) (fun i s => h i.succ s) s'
      rw [(eval_first_ok harg).2, hrest]
      exact congrArg Except.ok (Fin.cons_self_tail t)

/-- The first exception from the left, if there is one. -/
theorem eval_error {n : ℕ} {T : Fin n → Type*} {args : ∀ i, σ → σ × Except ε (T i)} {i : Fin n}
    {e : ε} (hi : ∀ s, (args i s).2 = .error e)
    (hlt : ∀ j, j < i → ∀ s, ∃ v, (args j s).2 = .ok v) (s : σ) : (eval args s).2 = .error e := by
  induction n generalizing s with
  | zero => exact i.elim0
  | succ n ih =>
    rcases harg : args 0 s with ⟨s', e' | v⟩
    · -- the exception is that of the first argument
      rw [eval_first_error harg]
      cases i using Fin.cases with
      | zero =>
        have h0 := hi s
        rw [harg] at h0
        exact congrArg Except.error (Except.error.inj h0)
      | succ i =>
        obtain ⟨v, h0⟩ := hlt 0 (Fin.succ_pos i) s
        rw [harg] at h0
        cases h0
    · cases i using Fin.cases with
      | zero =>
        have h0 := hi s
        rw [harg] at h0
        cases h0
      | succ i =>
        have hrest : (eval (fun i : Fin n => args i.succ) s').2 = .error e :=
          ih hi (fun j hj s => hlt j.succ (Fin.succ_lt_succ_iff.mpr hj) s) s'
        rw [(eval_first_ok harg).2, hrest]
        rfl

/-- Arguments that each append to a log. What is in the log at the end comes from the arguments that
have no exception to their left. -/
theorem mem_eval {α : Type*} {n : ℕ} {T : Fin n → Type*}
    {args : ∀ i, List α → List α × Except ε (T i)} {log : Fin n → List α} {Fails : Fin n → Prop}
    (hlog : ∀ i s, (args i s).1 = s ++ log i)
    (hfails : ∀ i s, (∃ e, (args i s).2 = .error e) ↔ Fails i) (s : List α) (a : α) :
    a ∈ (eval args s).1 ↔ a ∈ s ∨ ∃ i, a ∈ log i ∧ ∀ j, j < i → ¬ Fails j := by
  induction n generalizing s with
  | zero =>
    rw [eval]
    exact ⟨Or.inl, fun h => h.resolve_right fun ⟨i, _⟩ => i.elim0⟩
  | succ n ih =>
    have hzero := hlog 0 s
    have hfail := hfails 0 s
    rw [Fin.exists_fin_succ]
    rcases harg : args 0 s with ⟨s', e | v⟩
    · -- the evaluation ends here, so nothing to the right counts
      rw [harg] at hzero hfail
      have hfails0 : Fails 0 := hfail.mp ⟨e, rfl⟩
      obtain rfl : s' = s ++ log 0 := hzero
      rw [eval_first_error harg, List.mem_append]
      constructor
      · rintro (h | h)
        · exact Or.inl h
        · exact Or.inr (Or.inl ⟨h, fun j hj => absurd hj (Fin.not_lt_zero j)⟩)
      · rintro (h | ⟨h, -⟩ | ⟨i, -, hi⟩)
        · exact Or.inl h
        · exact Or.inr h
        · exact absurd hfails0 (hi 0 (Fin.succ_pos i))
    · rw [harg] at hzero hfail
      have hok : ¬ Fails 0 := by
        intro h
        obtain ⟨e, he⟩ := hfail.mpr h
        cases he
      obtain rfl : s' = s ++ log 0 := hzero
      rw [(eval_first_ok harg).1, ih (fun i => hlog i.succ) (fun i => hfails i.succ), List.mem_append]
      constructor
      · rintro ((h | h) | ⟨i, h, hi⟩)
        · exact Or.inl h
        · exact Or.inr (Or.inl ⟨h, fun j hj => absurd hj (Fin.not_lt_zero j)⟩)
        · refine Or.inr (Or.inr ⟨i, h, fun j hj => ?_⟩)
          cases j using Fin.cases with
          | zero => exact hok
          | succ j => exact hi j (Fin.succ_lt_succ_iff.mp hj)
      · rintro (h | ⟨h, -⟩ | ⟨i, h, hi⟩)
        · exact Or.inl (Or.inl h)
        · exact Or.inl (Or.inr h)
        · exact Or.inr ⟨i, h, fun j hj => hi j.succ (Fin.succ_lt_succ_iff.mpr hj)⟩

end Xyco.Args
