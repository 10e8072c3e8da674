import Mathlib.Data.List.Nodup
import Mathlib.Data.List.Range
import Xyco.Task.Proofs.BlockingAccountProofs

/-!
# Proofs: `select` of the blocking registry

`select` reads `after_extra_` of every event twice, and what it reads does not change in between,
since a task is run under the same mutex. So `events_` loses the events that are returned and no
others.
-/

namespace Xyco.Task.BlockingRegistry

open Machine Table

variable {s s' t : BlockingRegistry} {a : BlockingAction} {w k n m e : ℕ} {x y : BlockingWorker}
variable {p q : CallerPoint}

/-- What a call of `select` has copied is up to date. -/
def UpToDate (s : BlockingRegistry) : CallerPoint → Prop
  | .keeping newEvents => newEvents = s.events.filter fun e => !s.hasResult e
  | .taking newEvents events => newEvents = (s.events.filter fun e => !s.hasResult e) ∧
      events = s.events.filter fun e => s.hasResult e
  | _ => True

structure Selected (s : BlockingRegistry) : Prop where
  events : s.events = (List.range s.registered).filter fun e => !s.selected.contains e
  nodup : s.selected.Nodup
  result : ∀ e ∈ s.selected, e ∈ s.finished
  copied : ∀ (k : ℕ) p, s.callers[k]? = some p → s.UpToDate p

theorem selected_init : Selected (init n m) := by
  refine ⟨rfl, List.nodup_nil, fun e he => (by cases he), fun k p hk => ?_⟩
  have hp : p = .idle := by
    have := List.mem_of_getElem? hk
    exact List.eq_of_mem_replicate this
  rw [hp]
  trivial

theorem upToDate_of_not_holds (h : p.holdsRegistry = false) : s.UpToDate p := by
  cases p <;> trivial

/-- Nobody else is in `select` while a thread holds the mutex. -/
theorem Guarded.upToDate (h : Guarded s) {o : Owner} (ho : s.mutex = some o)
    (hk : s.callers[k]? = some p) (hne : o ≠ .caller k) : t.UpToDate p := by
  apply upToDate_of_not_holds
  by_contra hp
  rw [Bool.not_eq_false] at hp
  have := (h (.caller k)).mp ((holds_caller hk).mpr hp)
  rw [ho] at this
  exact hne (Option.some.inj this)

theorem Guarded.upToDate_of_free (h : Guarded s) (hfree : s.mutex = none)
    (hk : s.callers[k]? = some p) : t.UpToDate p := by
  apply upToDate_of_not_holds
  by_contra hp
  rw [Bool.not_eq_false] at hp
  exact h.not_free ((holds_caller hk).mpr hp) hfree

/-- Neither the events nor the results change. -/
theorem Selected.of_same (h : Selected s) (hevents : s'.events = s.events)
    (hregistered : s'.registered = s.registered) (hselected : s'.selected = s.selected)
    (hfinished : s'.finished = s.finished)
    (hcopied : ∀ (k : ℕ) p, s'.callers[k]? = some p → s.UpToDate p) : Selected s' := by
  have hsame : ∀ p, s.UpToDate p → s'.UpToDate p := by
    intro p hp
    cases p with
    | keeping newEvents =>
      show newEvents = s'.events.filter fun e => !s'.finished.contains e
      rw [hevents, hfinished]
      exact hp
    | taking newEvents events =>
      show newEvents = (s'.events.filter fun e => !s'.finished.contains e) ∧
        events = s'.events.filter fun e => s'.finished.contains e
      rw [hevents, hfinished]
      exact hp
    | _ => trivial
  refine ⟨?_, ?_, ?_, fun k p hk => hsame p (hcopied k p hk)⟩
  · rw [hevents, hregistered, hselected]
    exact h.events
  · rw [hselected]
    exact h.nodup
  · rw [hselected, hfinished]
    exact h.result

/-! ## The steps -/

theorem turn_selected (hg : Guarded s) (h : Selected s) (hx : s.workers[w]? = some x)
    (hturn : Turn s w x s') : Selected s' := by
  cases hturn with
  | finish hp =>
    have ho : s.mutex = some (.worker w) :=
      (hg (.worker w)).mp ((holds_worker hx).mpr (by rw [hp]; rfl))
    refine ⟨h.events, h.nodup, fun e he => List.mem_append_left _ (h.result e he), ?_⟩
    intro k p hk
    exact hg.upToDate ho hk nofun
  | _ => exact h.of_same rfl rfl rfl rfl h.copied

theorem filter_assign {l selected finished : List ℕ} :
    (l.filter fun e => !selected.contains e).filter (fun e => !finished.contains e) =
      l.filter fun e => !(selected ++
        (l.filter fun e => !selected.contains e).filter fun e => finished.contains e).contains e := by
  rw [List.filter_filter]
  apply List.filter_congr
  intro e he
  by_cases hs : e ∈ selected <;> by_cases hf : e ∈ finished <;> simp [he, hs, hf]

theorem callerTurn_selected (hg : Guarded s) (h : Selected s) (hk : s.callers[k]? = some p)
    (hturn : CallerTurn s k p s') : Selected s' := by
  cases hturn with
  | assign =>
    rename_i newEvents events
    obtain ⟨rfl, rfl⟩ := h.copied k _ hk
    have ho : s.mutex = some (.caller k) := (hg (.caller k)).mp ((holds_caller hk).mpr rfl)
    have hsub : ∀ e ∈ s.events, e ∉ s.selected := by
      intro e he
      rw [h.events, List.mem_filter] at he
      simpa using he.2
    have hnodup : s.events.Nodup := by
      rw [h.events]
      exact List.nodup_range.filter _
    refine ⟨?_, ?_, ?_, ?_⟩
    · show s.events.filter (fun e => !s.finished.contains e) = (List.range s.registered).filter
        fun e => !(s.selected ++ s.events.filter fun e => s.finished.contains e).contains e
      rw [h.events]
      exact filter_assign
    · refine List.nodup_append.mpr ⟨h.nodup, hnodup.filter _, ?_⟩
      intro a ha b hb hab
      exact hsub b (List.mem_of_mem_filter hb) (hab ▸ ha)
    · intro e he
      rcases List.mem_append.mp he with he | he
      · exact h.result e he
      · exact List.contains_iff_mem.mp (List.mem_filter.mp he).2
    · intro l p hl
      have hl' : (s.callers.set k .idle)[l]? = some p := hl
      rw [get_set hk] at hl'
      split at hl'
      · obtain rfl := Option.some.inj hl'
        trivial
      · rename_i hne
        exact hg.upToDate ho hl' fun heq => hne (Owner.caller.inj heq).symm
  | compare _ | push _ _ | notify _ =>
    exact h.of_same rfl rfl rfl rfl (forall_set h.copied trivial)
  | keep => exact h.of_same rfl rfl rfl rfl (forall_set h.copied rfl)
  | take => exact h.of_same rfl rfl rfl rfl (forall_set h.copied ⟨h.copied k _ hk, rfl⟩)

theorem register_selected (hg : Guarded s) (ha : Accounted s s.registered) (h : Selected s)
    (hstep : s.register k = some s') : Selected s' := by
  obtain ⟨⟨hk, hfree⟩, rfl⟩ := eq_of_guard hstep
  have hnew : s.registered ∉ s.selected := by
    intro hmem
    have hpos := List.count_pos_iff.mpr (h.result _ hmem)
    have honce := ha.once
    rw [if_neg (Nat.lt_irrefl _)] at honce
    omega
  refine ⟨?_, h.nodup, h.result, ?_⟩
  · show s.events ++ [s.registered] =
      (List.range (s.registered + 1)).filter fun e => !s.selected.contains e
    rw [List.range_succ, List.filter_append, ← h.events, List.filter_singleton]
    simp [hnew]
  · apply forall_set
    · intro l p hl
      exact hg.upToDate_of_free hfree hl
    · trivial

theorem step_selected (hg : Guarded s) (ha : ∀ e, Accounted s e) (h : Selected s)
    (hstep : s.step a = some s') : Selected s' := by
  cases a with
  | worker w =>
    obtain ⟨x, hx, hturn⟩ := runWorker_cases hstep
    exact turn_selected hg h hx hturn
  | wakeSpuriously w =>
    obtain ⟨x, -, -, rfl⟩ := wakeSpuriously_cases hstep
    exact h.of_same rfl rfl rfl rfl h.copied
  | register k => exact register_selected hg (ha _) h hstep
  | select k =>
    obtain ⟨-, rfl⟩ := eq_of_guard hstep
    exact h.of_same rfl rfl rfl rfl (forall_set h.copied trivial)
  | caller k =>
    obtain ⟨p, hk, hturn⟩ := runCaller_cases hstep
    exact callerTurn_selected hg h hk hturn
  | destroy =>
    obtain ⟨-, rfl⟩ | ⟨w, x, -, -, rfl⟩ | ⟨w, x, -, -, rfl⟩ := destroy_cases hstep
    all_goals exact h.of_same rfl rfl rfl rfl h.copied

structure Sound (s : BlockingRegistry) : Prop where
  guarded : Guarded s
  accounted : ∀ e, Accounted s e
  selected : Selected s

theorem step_sound (h : Sound s) (hstep : s.step a = some s') : Sound s' :=
  ⟨step_guarded h.guarded hstep, fun e => step_accounted (h.accounted e) hstep,
    step_selected h.guarded h.accounted h.selected hstep⟩

theorem sound_of_reachable (h : Reachable step (init n m) s) : Sound s :=
  h.invariant ⟨guarded_init, fun _ => accounted_init, selected_init⟩
    fun _ _ _ hs hstep => step_sound hs hstep

/-! ## A call of `select` -/

theorem get_of_ne {q : CallerPoint} {l : ℕ} (hl : s.callers[l]? = some q)
    (hk : s.callers[k]? = some p) (hne : k ≠ l) (q' : CallerPoint) :
    (s.callers.set l q')[k]? = some p := by
  rw [get_set hl, if_neg hne]
  exact hk

/-- A call of `select` goes on until it returns what it has taken. -/
theorem step_of_holds (hk : s.callers[k]? = some p) (hp : p.holdsRegistry = true)
    (hstep : s.step a = some s') :
    (∃ q, s'.callers[k]? = some q ∧ q.holdsRegistry = true) ∨
    ∃ newEvents events, p = .taking newEvents events ∧ s'.selected = s.selected ++ events := by
  have hidle : ∀ l, s.callers[l]? = some .idle → k ≠ l := by
    rintro l hl rfl
    rw [hk] at hl
    cases hl
    cases hp
  cases a with
  | worker w =>
    obtain ⟨x, -, hturn⟩ := runWorker_cases hstep
    cases hturn <;> exact Or.inl ⟨p, hk, hp⟩
  | wakeSpuriously w =>
    obtain ⟨x, -, -, rfl⟩ := wakeSpuriously_cases hstep
    exact Or.inl ⟨p, hk, hp⟩
  | register l =>
    obtain ⟨⟨hl, -⟩, rfl⟩ := eq_of_guard hstep
    exact Or.inl ⟨p, get_of_ne hl hk (hidle l hl) _, hp⟩
  | select l =>
    obtain ⟨⟨hl, -⟩, rfl⟩ := eq_of_guard hstep
    exact Or.inl ⟨p, get_of_ne hl hk (hidle l hl) _, hp⟩
  | caller l =>
    obtain ⟨q, hl, hturn⟩ := runCaller_cases hstep
    by_cases hkl : k = l
    · subst hkl
      obtain rfl := Option.some.inj (hk.symm.trans hl)
      cases hturn with
      | compare _ | push _ _ | notify _ => cases hp
      | keep => exact Or.inl ⟨_, get_set_self hk _, rfl⟩
      | take => exact Or.inl ⟨_, get_set_self hk _, rfl⟩
      | assign => exact Or.inr ⟨_, _, rfl, rfl⟩
    · cases hturn <;> exact Or.inl ⟨p, get_of_ne hl hk hkl _, hp⟩
  | destroy =>
    obtain ⟨-, rfl⟩ | ⟨w, x, -, -, rfl⟩ | ⟨w, x, -, -, rfl⟩ := destroy_cases hstep
    all_goals exact Or.inl ⟨p, hk, hp⟩

theorem step_grows (hstep : s.step a = some s') :
    s.finished ⊆ s'.finished ∧ s.selected ⊆ s'.selected := by
  cases a with
  | worker w =>
    obtain ⟨x, -, hturn⟩ := runWorker_cases hstep
    cases hturn with
    | finish _ => exact ⟨List.subset_append_left _ _, List.Subset.refl _⟩
    | _ => exact ⟨List.Subset.refl _, List.Subset.refl _⟩
  | wakeSpuriously w =>
    obtain ⟨x, -, -, rfl⟩ := wakeSpuriously_cases hstep
    exact ⟨List.Subset.refl _, List.Subset.refl _⟩
  | register l =>
    obtain ⟨-, rfl⟩ := eq_of_guard hstep
    exact ⟨List.Subset.refl _, List.Subset.refl _⟩
  | select l =>
    obtain ⟨-, rfl⟩ := eq_of_guard hstep
    exact ⟨List.Subset.refl _, List.Subset.refl _⟩
  | caller l =>
    obtain ⟨q, -, hturn⟩ := runCaller_cases hstep
    cases hturn with
    | assign => exact ⟨List.Subset.refl _, List.subset_append_left _ _⟩
    | _ => exact ⟨List.Subset.refl _, List.Subset.refl _⟩
  | destroy =>
    obtain ⟨-, rfl⟩ | ⟨w, x, -, -, rfl⟩ | ⟨w, x, -, -, rfl⟩ := destroy_cases hstep
    all_goals exact ⟨List.Subset.refl _, List.Subset.refl _⟩

/-- The event `e` has a result, and the call of `select` by `k` has returned or will return it. -/
structure Due (k e : ℕ) (s : BlockingRegistry) : Prop where
  sound : Sound s
  finished : e ∈ s.finished
  returned : e ∈ s.selected ∨ ∃ p, s.callers[k]? = some p ∧ p.holdsRegistry = true

theorem Sound.mem_events (h : Sound s) (hfinished : e ∈ s.finished) (hnew : e ∉ s.selected) :
    e ∈ s.events := by
  have hpos := List.count_pos_iff.mpr hfinished
  have honce := (h.accounted e).once
  have hlt : e < s.registered := by
    by_contra hge
    rw [if_neg hge] at honce
    omega
  rw [h.selected.events, List.mem_filter, List.mem_range]
  exact ⟨hlt, by simpa using hnew⟩

theorem step_due (h : Due k e s) (hstep : s.step a = some s') : Due k e s' := by
  obtain ⟨hfinished, hselected⟩ := step_grows hstep
  refine ⟨step_sound h.sound hstep, hfinished h.finished, ?_⟩
  by_cases hmem : e ∈ s.selected
  · exact Or.inl (hselected hmem)
  · obtain ⟨p, hk, hp⟩ := h.returned.resolve_left hmem
    rcases step_of_holds hk hp hstep with hq | ⟨newEvents, events, rfl, heq⟩
    · exact Or.inr hq
    · left
      obtain ⟨-, rfl⟩ := h.sound.selected.copied k _ hk
      rw [heq]
      apply List.mem_append_right
      exact List.mem_filter.mpr
        ⟨h.sound.mem_events h.finished hmem, List.contains_iff_mem.mpr h.finished⟩

/-- What has a result when `select` is called is returned by the end of the call. -/
theorem select_returns_finished (h : Sound s) (hselect : s.step (.select k) = some s')
    {acts : List BlockingAction} (hrun : run step s' acts = some t)
    (hidle : t.callers[k]? = some .idle) (he : e ∈ s.finished) : e ∈ t.selected := by
  have hstart : Due k e s' := by
    refine ⟨step_sound h hselect, (step_grows hselect).1 he, Or.inr ?_⟩
    obtain ⟨⟨hk, -⟩, rfl⟩ := eq_of_guard hselect
    exact ⟨_, get_set_self hk _, rfl⟩
  have hend : Due k e t := run_invariant (fun _ _ _ hs hst => step_due hs hst) hstart hrun
  refine hend.returned.resolve_right ?_
  rintro ⟨p, hk, hp⟩
  rw [hidle] at hk
  cases hk
  cases hp

theorem runCaller_selecting (hk : s.callers[k]? = some .selecting) :
    ∃ s' newEvents, s.step (.caller k) = some s' ∧ s'.callers[k]? = some (.keeping newEvents) := by
  refine ⟨s.goTo k (.keeping (s.events.filter fun e => !s.hasResult e)), _, ?_, get_set_self hk _⟩
  simp only [step, runCaller, hk]

theorem runCaller_keeping {newEvents : List ℕ} (hk : s.callers[k]? = some (.keeping newEvents)) :
    ∃ s' events, s.step (.caller k) = some s' ∧
      s'.callers[k]? = some (.taking newEvents events) := by
  refine ⟨s.goTo k (.taking newEvents (s.events.filter fun e => s.hasResult e)), _, ?_,
    get_set_self hk _⟩
  simp only [step, runCaller, hk]

theorem runCaller_taking {newEvents events : List ℕ}
    (hk : s.callers[k]? = some (.taking newEvents events)) :
    ∃ s', s.step (.caller k) = some s' ∧ s'.callers[k]? = some .idle := by
  refine ⟨{ s with events := newEvents, mutex := none, selected := s.selected ++ events }.goTo k
    .idle, ?_, get_set_self hk _⟩
  simp only [step, runCaller, hk]

/-- A call of `select` has nothing to wait for once it has the mutex. -/
theorem select_returns (hselect : s.step (.select k) = some s') :
    ∃ t, run step s' [.caller k, .caller k, .caller k] = some t ∧ t.callers[k]? = some .idle := by
  obtain ⟨⟨hk, -⟩, rfl⟩ := eq_of_guard hselect
  obtain ⟨t₁, newEvents, h₁, hk₁⟩ := runCaller_selecting
    (s := { s with mutex := some (.caller k) }.goTo k .selecting) (get_set_self hk _)
  obtain ⟨t₂, events, h₂, hk₂⟩ := runCaller_keeping hk₁
  obtain ⟨t₃, h₃, hk₃⟩ := runCaller_taking hk₂
  refine ⟨t₃, ?_, hk₃⟩
  rw [run_cons, h₁, Option.bind_some, run_cons, h₂, Option.bind_some, run_cons, h₃]
  rfl

theorem count_le_one (h : Sound s) (e : ℕ) : s.started.count e ≤ 1 := by
  obtain ⟨honce, hstarted⟩ := h.accounted e
  split at honce <;> omega

/-- Every blocking task is run once at most, and its event is returned by `select` once at most, when
the task has set its result, and no later than by the next call. Until then the event is in `events_`,
in the order of registration, and its task is in one place. -/
theorem blocking_task_runs_once (h : Reachable step (init n m) s) :
    s.started.Nodup ∧ s.selected.Nodup ∧ (∀ e ∈ s.selected, e ∈ s.finished) ∧
    (∀ k s', s.step (.select k) = some s' →
      (∃ t, run step s' [.caller k, .caller k, .caller k] = some t ∧
        t.callers[k]? = some .idle) ∧
      ∀ acts t, run step s' acts = some t → t.callers[k]? = some .idle →
        ∀ e ∈ s.finished, e ∈ t.selected) ∧
    s.events = ((List.range s.registered).filter fun e => !s.selected.contains e) ∧
    ∀ e < s.registered, s.spawning e + s.queued e + s.running e + s.finished.count e = 1 := by
  have hs := sound_of_reachable h
  refine ⟨List.nodup_iff_count_le_one.mpr (count_le_one hs), hs.selected.nodup, hs.selected.result,
    fun k s' hselect => ⟨select_returns hselect, fun acts t hrun hidle e he => ?_⟩,
    hs.selected.events, fun e he => ?_⟩
  · exact select_returns_finished hs hselect hrun hidle he
  · rw [(hs.accounted e).once, if_pos he]

/-- Two tasks on two workers, one of which has finished when `select` is called. -/
theorem blocking_task_runs_once_two_tasks :
    ∃ s s', run step (init 2 2) [.register 0, .caller 0, .caller 0, .caller 0, .register 1, .caller 1,
        .caller 1, .caller 1, .worker 0, .worker 0, .worker 0, .worker 0, .worker 0, .worker 0,
        .worker 0] = some s ∧ s.step (.select 0) = some s' ∧ s.finished = [0] ∧ s.queued 1 = 1 ∧
      ∃ t, run step s' [.caller 0, .caller 0, .caller 0] = some t ∧ 0 ∈ t.selected := by
  have hrun : ∃ s, run step (init 2 2) [.register 0, .caller 0, .caller 0, .caller 0, .register 1,
      .caller 1, .caller 1, .caller 1, .worker 0, .worker 0, .worker 0, .worker 0, .worker 0,
      .worker 0, .worker 0] = some s ∧ (s.step (.select 0)).isSome = true ∧ s.finished = [0] ∧
      s.queued 1 = 1 := exists_run (by decide)
  obtain ⟨s, hs, hselect, hfinished, hqueued⟩ := hrun
  obtain ⟨s', hs'⟩ := Option.isSome_iff_exists.mp hselect
  obtain ⟨-, -, -, hcall, -⟩ := blocking_task_runs_once ⟨_, hs⟩
  obtain ⟨⟨t, ht, hidle⟩, hreturned⟩ := hcall 0 s' hs'
  exact ⟨s, s', hs, hs', hfinished, hqueued, t, ht,
    hreturned _ t ht hidle 0 (by rw [hfinished]; exact List.mem_singleton_self 0)⟩

end Xyco.Task.BlockingRegistry
