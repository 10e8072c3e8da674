import Xyco.Task.Proofs.SelectProofs
import Xyco.Time.Timeout

/-!
# Proofs: `timeout`

`timeout` looks at the `sleep` first. So the value of a future that was in time is lost if the `sleep`
ends as well before the `SelectFuture` is polled again.
-/

namespace Xyco.Time

open Machine Xyco.Task

variable {V E : Type} {ret : Except E (∀ i, Option (TimeoutBranch V i)) → Timed V E}
variable {result : ∀ i, Except E (TimeoutBranch V i)} {s s' : Select 2 (TimeoutBranch V) E}
variable {finished : List (Fin 2)} {v : V}

theorem IsTimeout.eq_with (h : IsTimeout V ret) :
    ∃ value : Option V → Timed V E, ret = timeoutWith value ∧ ∀ v, value (some v) = .value v := by
  cases h with
  | value => exact ⟨_, rfl, fun _ => rfl⟩
  | void => exact ⟨_, rfl, fun _ => rfl⟩

/-- The `sleep` has not ended. -/
theorem value_of_reports (hret : IsTimeout V ret) (hv : result 0 = .ok v) (hmem : 0 ∈ finished)
    (hsleep : 1 ∉ finished) {outcome : Option (Except E (∀ i, Option (TimeoutBranch V i)))}
    (hreports : Select.Reports result finished outcome) : outcome.map ret = some (.value v) := by
  obtain ⟨value, rfl, hvalue⟩ := hret.eq_with
  have hok : ∀ i ∈ finished, ∀ e, result i ≠ .error e := by
    intro i hi e he
    have hi0 : i = 0 := by
      by_contra hne
      obtain rfl : i = 1 := by omega
      exact hsleep hi
    subst hi0
    rw [hv] at he
    cases he
  obtain ⟨t, rfl, ht, -⟩ := hreports.values hok
  have ht0 : t 0 = some v := (ht 0 v).mpr ⟨hmem, hv⟩
  have ht1 : t 1 = none := by
    rw [Option.eq_none_iff_forall_ne_some]
    intro u hu
    exact hsleep ((ht 1 u).mp hu).1
  simp [timeoutWith, ht0, ht1, hvalue]

/-- The `sleep` has ended. -/
theorem no_value_of_reports (hret : IsTimeout V ret) (hv : result 0 = .ok v)
    (hsleep : 1 ∈ finished) {outcome : Option (Except E (∀ i, Option (TimeoutBranch V i)))}
    (hreports : Select.Reports result finished outcome) : outcome.map ret ≠ some (.value v) := by
  obtain ⟨value, rfl, -⟩ := hret.eq_with
  have hleft : ∀ e, result 0 ≠ .error e := by
    intro e he
    rw [hv] at he
    cases he
  rcases hresult : result 1 with e | u
  · have herror := hreports.exception 1 hsleep e hresult (fun j _ hj e => by
      obtain rfl : j = 0 := by omega
      exact hleft e)
    subst herror
    simp [timeoutWith]
  · have hok : ∀ i ∈ finished, ∀ e, result i ≠ .error e := by
      intro i _ e he
      by_cases hi : i = 0
      · subst hi
        exact hleft e he
      · obtain rfl : i = 1 := by omega
        rw [hresult] at he
        cases he
    obtain ⟨t, rfl, ht, -⟩ := hreports.values hok
    have ht1 : t 1 = some u := (ht 1 u).mpr ⟨hsleep, hresult⟩
    simp [timeoutWith, ht1]

/-- If the future records its value before the `sleep` ends, `timeout` returns the value exactly if
the `sleep` has not ended either when the `SelectFuture` is polled again. -/
theorem timeout_value_iff {others w : ℕ} {as : List (SelectAction 2)} (hret : IsTimeout V ret)
    (hrun : run (Select.step result) (Select.init others) as = some s)
    (hready : s.fork.ready = true) (hpoll : s.step result (.poll w) = some s')
    (hv : result 0 = .ok v) (hfirst : s.finished.head? = some 0) :
    s'.outcome.map ret = some (.value v) ↔ 1 ∉ s.finished := by
  have hreports := Select.reports_of_poll hrun hready hpoll
  have hmem : 0 ∈ s.finished := List.mem_of_mem_head? hfirst
  constructor
  · intro hvalue hsleep
    exact no_value_of_reports hret hv hsleep hreports hvalue
  · intro hsleep
    exact value_of_reports hret hv hmem hsleep hreports

/-- A future with the result 7, and the `sleep`. -/
def inTime : ∀ i, Except ℕ (TimeoutBranch ℕ i)
  | ⟨0, _⟩ => .ok (7 : ℕ)
  | ⟨1, _⟩ => .ok ()

theorem timeout_value_iff_in_time :
    ∃ s s', run (Select.step inTime) (Select.init 0) [.poll 0, .fork (.spawn 0), .fork (.spawn 0),
        .fork (.pend 0), .fork (.take 0), .finish 0, .fork (.take 0), .fork (.suspend 0),
        .fork (.take 0)] = some s ∧
      s.step inTime (.poll 0) = some s' ∧ s'.outcome.map timeout = some (.value (7 : ℕ)) := by
  have hsecond : ∃ s, run (Select.step inTime) (Select.init 0) [.poll 0, .fork (.spawn 0),
      .fork (.spawn 0), .fork (.pend 0), .fork (.take 0), .finish 0, .fork (.take 0),
      .fork (.suspend 0), .fork (.take 0)] = some s ∧ s.fork.ready = true ∧
      (s.step inTime (.poll 0)).isSome = true ∧ s.finished = [0] := exists_run (by decide)
  obtain ⟨s, hrun, hready, hpoll, hfinished⟩ := hsecond
  obtain ⟨s', hs'⟩ := Option.isSome_iff_exists.mp hpoll
  refine ⟨s, s', hrun, hs', ?_⟩
  refine (timeout_value_iff (.value ℕ) hrun hready hs' rfl ?_).mpr ?_
  · rw [hfinished]
    rfl
  · rw [hfinished]
    decide

/-- Both branches are woken by one poll of the driver, and both end before the `SelectFuture` is
polled again, the future first. -/
theorem timeout_discards_value :
    ∃ s, run (Select.step inTime) (Select.init 0) [.poll 0, .fork (.spawn 0), .fork (.spawn 0),
        .fork (.pend 0), .fork (.take 0), .fork (.suspend 0), .fork (.take 0), .fork (.suspend 0),
        .fork (.wake 0), .fork (.wake 1), .fork (.take 0), .finish 0, .fork (.take 0), .finish 0,
        .fork (.take 0), .poll 0] = some s ∧
      s.finished = [0, 1] ∧ s.outcome.map timeout = some .expired :=
  ⟨_, rfl, rfl, rfl⟩

end Xyco.Time
