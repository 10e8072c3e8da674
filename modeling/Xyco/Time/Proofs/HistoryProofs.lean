import Xyco.Time.Proofs.InvariantProofs

/-!
# Proofs: what holds in every run of the wheel
-/

namespace Xyco.Time

open Level (slotNum)
open Radix Machine

namespace Wheel

variable {w w' : Wheel} {r : Int}

theorem expire_cases (hA : w.Ahead) {events out : List Event}
    (h : w.expire r events = some (w', out)) :
    (¬ w.now < r ∧ w' = w ∧ out = events) ∨
      (w.now < r ∧ ∃ new, out = events ++ new ∧ ReadingRes w r w' new) := by
  by_cases hr : w.now < r
  · exact Or.inr ⟨hr, expire_res hA hr h⟩
  · rw [expire_of_le hr] at h
    obtain ⟨rfl, rfl⟩ := Prod.mk.inj (Option.some.inj h)
    exact Or.inl ⟨hr, rfl, rfl⟩

end Wheel

open Wheel

namespace History

variable {h h' : History} {c : Call} {calls : List Call} {t₀ r : Int}

/-- What one call can do. -/
theorem step_cases (hA : h.wheel.Ahead) (hstep : step h c = some h') :
    (∃ e L s, c = .insertEvent e ∧ h.wheel.position + h.wheel.delay e < range ∧
      h.wheel.Placed (h.wheel.position + h.wheel.delay e) L s ∧
      h' = ⟨h.wheel.push L s e, h.inserted ++ [e], h.delivered ++ [[]]⟩) ∨
    (∃ r, c = .expire r ∧ ¬ h.wheel.now < r ∧ h' = ⟨h.wheel, h.inserted, h.delivered ++ [[]]⟩) ∨
    (∃ r w new, c = .expire r ∧ h.wheel.now < r ∧ ReadingRes h.wheel r w new ∧
      h' = ⟨w, h.inserted, h.delivered ++ [new]⟩) := by
  cases c with
  | insertEvent e =>
    left
    obtain ⟨w, hins, rfl⟩ := Option.map_eq_some_iff.mp hstep
    obtain ⟨L, s, rfl, hfit, hp⟩ := insertEvent_cases hins
    exact ⟨e, L, s, rfl, hfit, hp, rfl⟩
  | expire r =>
    right
    obtain ⟨⟨w, out⟩, hexp, rfl⟩ := Option.map_eq_some_iff.mp hstep
    rcases expire_cases hA hexp with ⟨hr, rfl, rfl⟩ | ⟨hr, out, rfl, hres⟩
    · exact Or.inl ⟨r, rfl, hr, rfl⟩
    · exact Or.inr ⟨r, w, out, rfl, hr, hres, rfl⟩

theorem step_ahead (hA : h.wheel.Ahead) (hstep : step h c = some h') : h'.wheel.Ahead := by
  rcases step_cases hA hstep with ⟨e, L, s, -, -, hp, rfl⟩ | ⟨r, -, -, rfl⟩ |
    ⟨r, w, new, -, -, hres, rfl⟩
  · exact hA.push hp
  · exact hA
  · exact hres.ahead

theorem run_ahead (hrun : run step (new t₀) calls = some h) : h.wheel.Ahead :=
  run_invariant (I := fun h : History => h.wheel.Ahead) (fun _ _ _ hA hs => step_ahead hA hs)
    (ahead_new t₀) hrun

/-! ## Nothing is lost or delivered twice -/

/-- The events inserted are those delivered and those stored. -/
def Conserved (h : History) : Prop :=
  (h.inserted : Multiset Event) = (h.delivered.flatten : Multiset Event) + h.wheel.stored

theorem step_conserved (hA : h.wheel.Ahead) (hC : Conserved h) (hstep : step h c = some h') :
    Conserved h' := by
  unfold Conserved at *
  rcases step_cases hA hstep with ⟨e, L, s, -, -, -, rfl⟩ | ⟨r, -, -, rfl⟩ |
    ⟨r, w, new, -, -, hres, rfl⟩
  · simp only [push_stored, ← Multiset.coe_add, hC, List.flatten_append, List.flatten_singleton,
      Multiset.coe_nil, add_zero, Multiset.coe_singleton]
    abel
  · simpa using hC
  · simp only [hC, ← hres.stored, List.flatten_append, List.flatten_singleton, ← Multiset.coe_add]
    abel

/-- In every run in which no call throws, whatever the readings of the clock, the events inserted so
far are the events delivered so far and the events in the slots. -/
theorem inserted_eq_delivered_add_stored (hrun : run step (new t₀) calls = some h) :
    (h.inserted : Multiset Event) = (h.delivered.flatten : Multiset Event) + h.wheel.stored := by
  have hnew : (new t₀).wheel.Ahead ∧ Conserved (new t₀) := by
    refine ⟨ahead_new t₀, ?_⟩
    show ((([] : List Event) : Multiset Event)) = _ + (Wheel.new t₀).stored
    rw [stored_new]
    rfl
  have hkeep : ∀ h c h', h.wheel.Ahead ∧ Conserved h → step h c = some h' →
      h'.wheel.Ahead ∧ Conserved h' :=
    fun _ _ _ hAC hs => ⟨step_ahead hAC.1 hs, step_conserved hAC.1 hAC.2 hs⟩
  exact (run_invariant (I := fun h : History => h.wheel.Ahead ∧ Conserved h) hkeep hnew hrun).2

theorem inserted_eq_delivered_add_stored_run :
    ∃ h, run step (new 0) [.insertEvent ⟨0, 2000⟩, .insertEvent ⟨1, 9000⟩, .expire 2500] = some h ∧
      h.delivered = [[], [], [⟨0, 2000⟩]] ∧
      (h.inserted : Multiset Event) = (h.delivered.flatten : Multiset Event) + h.wheel.stored := by
  obtain ⟨h, hrun, hdel⟩ : ∃ h, run step (new 0) [.insertEvent ⟨0, 2000⟩, .insertEvent ⟨1, 9000⟩,
      .expire 2500] = some h ∧ h.delivered = [[], [], [⟨0, 2000⟩]] :=
    exists_run (by decide +kernel)
  exact ⟨h, hrun, hdel, inserted_eq_delivered_add_stored hrun⟩

/-! ## Times that fit in 64 bits -/

variable {R : Int → Prop} {E : Event → Prop}

/-- A wheel in a run whose readings are among `R` and whose events are among `E`. -/
structure Tracked (R : Int → Prop) (E : Event → Prop) (w : Wheel) : Prop where
  inv : Inv w
  now : R w.now
  stored : ∀ e ∈ w.stored, E e

theorem Tracked.fitsAt {w : Wheel} (hW : Tracked R E w) (hF : FitAll R E) (hr : R r) : w.FitsAt r :=
  fun e he => hF r hr e (hW.stored e he)

theorem Tracked.fitsAt_now {w : Wheel} (hW : Tracked R E w) (hF : FitAll R E) : w.FitsAt w.now :=
  hW.fitsAt hF hW.now

/-- A call whose reading or event is known. -/
def Among (R : Int → Prop) (E : Event → Prop) : Call → Prop
  | .insertEvent e => E e
  | .expire r => R r

theorem tracked_new (ht : R t₀) : Tracked R E (Wheel.new t₀) :=
  ⟨inv_new t₀, ht, fun e he => by rw [stored_new] at he; exact absurd he (Multiset.notMem_zero e)⟩

theorem Tracked.push {w : Wheel} {e : Event} {L : Fin levelNum} {s : Fin slotNum}
    (hW : Tracked R E w) (hfit : w.position + w.delay e < range)
    (hp : w.Placed (w.position + w.delay e) L s) (hticks : InTicks (e.expireTime - w.now))
    (he : E e) : Tracked R E (w.push L s e) := by
  refine ⟨hW.inv.push hfit hp hticks, hW.now, fun e' he' => ?_⟩
  rw [push_stored, Multiset.mem_add, Multiset.mem_singleton] at he'
  rcases he' with he' | rfl
  · exact hW.stored e' he'
  · exact he

theorem Tracked.reading {w w' : Wheel} {new : List Event} (hF : FitAll R E) (hW : Tracked R E w)
    (hmem : R r) (hr : w.now < r) (hres : ReadingRes w r w' new) : Tracked R E w' := by
  refine ⟨hres.inv hW.inv hr (hW.fitsAt_now hF) (hW.fitsAt hF hmem), ?_, fun e he => ?_⟩
  · rw [hres.now]
    exact hmem
  · refine hW.stored e ?_
    rw [← hres.stored]
    exact Multiset.mem_add.mpr (Or.inl he)

theorem step_tracked (hF : FitAll R E) (hW : Tracked R E h.wheel) (hc : Among R E c)
    (hstep : step h c = some h') : Tracked R E h'.wheel := by
  rcases step_cases hW.inv.ahead hstep with ⟨e, L, s, rfl, hfit, hp, rfl⟩ | ⟨r, -, -, rfl⟩ |
    ⟨r, w, new, rfl, hr, hres, rfl⟩
  · exact hW.push hfit hp (hF _ hW.now e hc) hc
  · exact hW
  · exact hW.reading hF hc hr hres

theorem run_tracked (hF : FitAll R E) (ht : R t₀) (hc : ∀ c ∈ calls, Among R E c)
    (hrun : run step (new t₀) calls = some h) : Tracked R E h.wheel :=
  run_invariant_along (G := fun _ c => Among R E c) (I := fun h : History => Tracked R E h.wheel)
    (fun _ _ _ hW hc hs => step_tracked hF hW hc hs) (tracked_new ht) (along_of_actions hc) hrun

theorem mem_readings (t₀ : Int) (calls : List Call) : t₀ ∈ readings t₀ calls := List.mem_cons_self

theorem among_of_mem (hc : c ∈ calls) :
    Among (· ∈ readings t₀ calls) (· ∈ insertions calls) c := by
  cases c with
  | insertEvent e => exact List.mem_filterMap.mpr ⟨_, hc, rfl⟩
  | expire r => exact List.mem_cons_of_mem _ (List.mem_filterMap.mpr ⟨_, hc, rfl⟩)

/-- The wheel before the last call of a run that fits, and that call. -/
theorem tracked_of_fits_concat (hfits : Fits t₀ (calls ++ [c]))
    (hrun : run step (new t₀) calls = some h) :
    Tracked (· ∈ readings t₀ (calls ++ [c])) (· ∈ insertions (calls ++ [c])) h.wheel ∧
      Among (· ∈ readings t₀ (calls ++ [c])) (· ∈ insertions (calls ++ [c])) c :=
  ⟨run_tracked hfits (mem_readings _ _)
    (fun _ hc => among_of_mem (List.mem_append_left _ hc)) hrun,
    among_of_mem (List.mem_append_right _ (List.mem_singleton_self c))⟩

/-! ## No timer fires early -/

/-- In every run in which no call throws and no time overflows, whatever the readings of the clock,
`expire` appends only events of which less than a millisecond is left. -/
theorem expire_never_early {events out : List Event} {w' : Wheel}
    (hrun : run step (new t₀) calls = some h) (hfits : Fits t₀ (calls ++ [.expire r]))
    (hexp : h.wheel.expire r events = some (w', out)) :
    ∃ new, out = events ++ new ∧ ∀ e ∈ new, e.expireTime - r < ticksPerMs := by
  obtain ⟨hW, hr⟩ := tracked_of_fits_concat hfits hrun
  rcases expire_cases hW.inv.ahead hexp with ⟨-, -, rfl⟩ | ⟨hlt, new, rfl, hres⟩
  · exact ⟨[], by simp, by simp⟩
  · exact ⟨new, rfl, hres.due hW.inv hlt (hW.fitsAt hfits hr)⟩

theorem expire_never_early_run :
    ∃ h w', run step (new 0) [.insertEvent ⟨0, 2000⟩] = some h ∧
      h.wheel.expire 2500 [] = some (w', [⟨0, 2000⟩]) ∧
      ∃ new : List Event, [⟨0, 2000⟩] = [] ++ new ∧ ∀ e ∈ new, e.expireTime - 2500 < ticksPerMs := by
  obtain ⟨h, hrun, hexp⟩ : ∃ h, run step (new 0) [.insertEvent ⟨0, 2000⟩] = some h ∧
      (h.wheel.expire 2500 []).any (fun p => decide (p.2 = [⟨0, 2000⟩])) = true :=
    exists_run (by decide +kernel)
  obtain ⟨⟨w', out⟩, hw', rfl⟩ := exists_of_any hexp
  exact ⟨h, w', hrun, hw', expire_never_early hrun (by decide) hw'⟩

/-- The longest expire time, inserted before the epoch, wraps around: a reading at the epoch, without
an exception, delivers it about 292 thousand years early. -/
theorem expire_early_after_overflow :
    ∃ h, run step (new (-10000)) [.insertEvent ⟨0, 2 ^ 63 - 1⟩] = some h ∧
      ∃ w', h.wheel.expire 0 [] = some (w', [⟨0, 2 ^ 63 - 1⟩]) ∧
        ¬ (⟨0, 2 ^ 63 - 1⟩ : Event).expireTime - 0 < ticksPerMs := by
  obtain ⟨h, hrun, hexp⟩ : ∃ h, run step (new (-10000)) [.insertEvent ⟨0, 2 ^ 63 - 1⟩] = some h ∧
      (h.wheel.expire 0 []).any (fun p => decide (p.2 = [(⟨0, 2 ^ 63 - 1⟩ : Event)])) = true :=
    exists_run (by decide +kernel)
  obtain ⟨⟨w', out⟩, hw', rfl⟩ := exists_of_any hexp
  exact ⟨h, hrun, w', hw', by decide⟩

/-! ## When a call throws -/

theorem insertEvent_isSome_iff {w : Wheel} {e : Event} :
    (w.insertEvent e).isSome ↔ w.position + w.delay e < range := by
  by_cases hfit : w.position + w.delay e < range
  · obtain ⟨L, s, hins, -⟩ := insertEvent_spec hfit
    simp [hins, hfit]
  · simp [insertEvent_none (Nat.not_lt.mp hfit), hfit]

theorem expire_isSome_iff {w : Wheel} (hF : FitAll R E) (hW : Tracked R E w) (hreading : R r)
    (hr : w.now < r) (events : List Event) :
    (w.expire r events).isSome ↔ w.position + (gapSteps (r - w.now)).toNat < range := by
  by_cases hT : w.position + (gapSteps (r - w.now)).toNat < range
  · simp [expire_fits hW.inv hr events hT (hW.fitsAt_now hF) (hW.fitsAt hF hreading), hT]
  · simp [expire_none hr events (Nat.not_lt.mp hT), hT]

/-- In every state that a run reaches, an event with less than `60 ^ 5` milliseconds left can be
inserted exactly if the steps walked so far leave room for it, and a gap of less than `60 ^ 5`
milliseconds can be walked exactly if there is room for its steps, as long as no time overflows. -/
theorem call_throws_iff_out_of_range (hrun : run step (new t₀) calls = some h) :
    (∀ e, InTicks (e.expireTime - h.wheel.now) → millis (e.expireTime - h.wheel.now) < range →
      ((h.wheel.insertEvent e).isSome ↔
        h.wheel.position + (millis (e.expireTime - h.wheel.now)).toNat < range)) ∧
    (∀ r events, Fits t₀ (calls ++ [.expire r]) → millis (r - h.wheel.now) < range →
      ((h.wheel.expire r events).isSome ↔
        (h.wheel.now < r → h.wheel.position + (millis (r - h.wheel.now)).toNat < range))) := by
  refine ⟨fun e hticks _ => ?_, fun r events hfits hgap => ?_⟩
  · rw [insertEvent_isSome_iff, delay_of_inTicks hticks]
  by_cases hr : h.wheel.now < r
  · have hnonneg : 0 ≤ r - h.wheel.now := by omega
    have hmillis : millis (r - h.wheel.now) = (r - h.wheel.now) / ticksPerMs :=
      Int.tdiv_eq_ediv_of_nonneg hnonneg
    obtain ⟨hW, hreading⟩ := tracked_of_fits_concat hfits hrun
    rw [expire_isSome_iff hfits hW hreading hr, gapSteps_eq hnonneg (by rw [← hmillis]; exact hgap),
      hmillis]
    exact ⟨fun hT _ => hT, fun hT => hT hr⟩
  · rw [expire_of_le hr]
    simp [hr]

theorem call_throws_iff_out_of_range_run :
    ∃ h, run step (new 0) [.expire 1000] = some h ∧
      ((h.wheel.insertEvent ⟨0, 777600000000⟩).isSome ↔
        h.wheel.position + (millis (777600000000 - h.wheel.now)).toNat < range) := by
  obtain ⟨h, hrun, hticks, hdelay⟩ : ∃ h, run step (new 0) [.expire 1000] = some h ∧
      InTicks (777600000000 - h.wheel.now) ∧ millis (777600000000 - h.wheel.now) < range :=
    exists_run (by decide +kernel)
  exact ⟨h, hrun, (call_throws_iff_out_of_range hrun).1 ⟨0, 777600000000⟩ hticks hdelay⟩

/-- After a single step the longest delay no longer fits: the wheel does not go round. -/
theorem insertEvent_throws_after_one_step :
    ∃ h, run step (new 0) [.expire 1000] = some h ∧
      millis ((⟨0, 777600000000⟩ : Event).expireTime - h.wheel.now) < range ∧
      (h.wheel.insertEvent ⟨0, 777600000000⟩).isNone :=
  exists_run (by decide +kernel)

/-! ## How late a timer can be -/

theorem truncated_nonneg (now : Int) (calls : List Call) : 0 ≤ truncated now calls := by
  induction calls generalizing now with
  | nil => exact le_refl _
  | cons c calls ih =>
    cases c with
    | insertEvent e => exact ih now
    | expire r =>
      unfold truncated
      split
      · have := lost_nonneg (show 0 ≤ r - now by omega)
        have := ih r
        omega
      · exact ih now

/-- The origin of the wheel moves by the time that the calls lose. -/
theorem run_origin (hA : h.wheel.Ahead) (hrun : run step h calls = some h') :
    h'.wheel.now = nowAfter h.wheel.now calls ∧
      h'.wheel.origin = h.wheel.origin + truncated h.wheel.now calls := by
  induction calls generalizing h with
  | nil =>
    obtain rfl := Option.some.inj hrun
    exact ⟨rfl, (add_zero _).symm⟩
  | cons c calls ih =>
    obtain ⟨h₁, hstep, hrun⟩ := Option.bind_eq_some_iff.mp hrun
    obtain ⟨hnow, horigin⟩ := ih (step_ahead hA hstep) hrun
    rw [hnow, horigin]
    rcases step_cases hA hstep with ⟨e, L, s, rfl, -, -, rfl⟩ | ⟨r, rfl, hr, rfl⟩ |
      ⟨r, w, new, rfl, hr, hres, rfl⟩
    · refine ⟨rfl, ?_⟩
      show (h.wheel.push L s e).origin + _ = _
      rw [push_origin]
      rfl
    · simp only [nowAfter, truncated, if_neg hr, max_eq_left (Int.not_lt.mp hr), and_self]
    · simp only [nowAfter, truncated, if_pos hr, max_eq_right hr.le, hres.now, hres.origin, add_assoc,
        and_self]

theorem truncated_concat {now : Int} (hr : nowAfter now calls < r) :
    truncated now (calls ++ [.expire r]) = truncated now calls + lost (r - nowAfter now calls) := by
  induction calls generalizing now with
  | nil =>
    have hr' : now < r := hr
    simp [truncated, nowAfter, hr']
  | cons c calls ih =>
    cases c with
    | insertEvent e => exact ih hr
    | expire r' =>
      have ih := ih hr
      simp only [List.cons_append, truncated, nowAfter] at ih ⊢
      split
      · rename_i hlt
        rw [max_eq_right hlt.le] at ih ⊢
        rw [ih]
        omega
      · rename_i hge
        rw [max_eq_left (Int.not_lt.mp hge)] at ih ⊢
        exact ih

theorem run_new_origin (hrun : run step (new t₀) calls = some h) :
    h.wheel.now = nowAfter t₀ calls ∧ h.wheel.origin = t₀ + truncated t₀ calls := by
  obtain ⟨hnow, horigin⟩ := run_origin (ahead_new t₀) hrun
  refine ⟨hnow, horigin.trans ?_⟩
  have hnew : (new t₀).wheel.origin = t₀ := by
    show t₀ - ticksPerMs * ((Wheel.new t₀).position : ℤ) = t₀
    rw [position_new]
    simp
  rw [hnew]
  rfl

/-- The origin after a last call of `expire`, from the origin at an earlier point of the run. -/
theorem expire_origin_since {pre post : List Call} {hp : History} {w' : Wheel} {new' : List Event}
    (hpre : run step (new t₀) pre = some hp) (hpost : run step hp post = some h)
    (hr : h.wheel.now < r) (hres : ReadingRes h.wheel r w' new') :
    w'.origin = hp.wheel.origin + truncated (nowAfter t₀ pre) (post ++ [.expire r]) := by
  have hnow₀ := (run_new_origin hpre).1
  obtain ⟨hnow, horigin⟩ := run_origin (run_ahead hpre) hpost
  rw [hnow₀] at hnow horigin
  rw [truncated_concat (hnow ▸ hr), hres.origin, horigin, hnow, add_assoc]

/-- An event is inserted only when the origin is at `o e` or later. -/
def InsertedAfter (o : Event → Int) (h : History) : Call → Prop
  | .insertEvent e => o e ≤ h.wheel.origin
  | .expire _ => True

theorem step_onTime {o : Event → Int} (hF : FitAll R E) (hW : Tracked R E h.wheel)
    (ho : OnTime o h.wheel) (hc : Among R E c ∧ InsertedAfter o h c) (hstep : step h c = some h') :
    OnTime o h'.wheel := by
  rcases step_cases hW.inv.ahead hstep with ⟨e, L, s, rfl, -, hp, rfl⟩ | ⟨r, -, -, rfl⟩ |
    ⟨r, w, new, rfl, hr, hres, rfl⟩
  · exact ho.push hp (hF _ hW.now e hc.1) hc.2
  · exact ho
  · exact hres.onTime ho hr (hW.fitsAt hF hc.1)

theorem run_onTime {o : Event → Int} (hF : FitAll R E) (ht : R t₀)
    (hc : Along step (fun h c => Among R E c ∧ InsertedAfter o h c) (new t₀) calls)
    (hrun : run step (new t₀) calls = some h) : OnTime o h.wheel := by
  have hkeep : ∀ h c h', Tracked R E h.wheel ∧ OnTime o h.wheel → Among R E c ∧ InsertedAfter o h c →
      step h c = some h' → Tracked R E h'.wheel ∧ OnTime o h'.wheel :=
    fun _ _ _ hW hc hs => ⟨step_tracked hF hW.1 hc.1 hs, step_onTime hF hW.1 hW.2 hc hs⟩
  exact (run_invariant_along (I := fun h : History => Tracked R E h.wheel ∧ OnTime o h.wheel) hkeep
    ⟨tracked_new ht, onTime_new o t₀⟩ hc hrun).2

/-- In every run in which no call throws and no time overflows, an event that was due a millisecond
before the reading of `expire` is not left in the wheel, provided the calls since it was inserted,
this one included, have lost less than two milliseconds. -/
theorem expire_keeps_nothing_late {events out : List Event} {w' : Wheel} {e : Event}
    (hrun : run step (new t₀) calls = some h) (hfits : Fits t₀ (calls ++ [.expire r]))
    (hr : h.wheel.now < r) (hexp : h.wheel.expire r events = some (w', out))
    (hlate : e.expireTime + ticksPerMs ≤ r)
    (hlost : ∀ pre post, calls = pre ++ .insertEvent e :: post →
      truncated (nowAfter t₀ pre) (post ++ [.expire r]) < 2 * ticksPerMs) :
    e ∉ w'.stored := by
  intro he
  obtain ⟨hW, hreading⟩ := tracked_of_fits_concat hfits hrun
  obtain ⟨new', -, hres⟩ := expire_res hW.inv.ahead hr hexp
  set o : Event → Int := fun e' => if e' = e then w'.origin - 2 * ticksPerMs + 1 else t₀ with ho
  have hafter : Along step (fun h c => Among (· ∈ readings t₀ (calls ++ [.expire r]))
      (· ∈ insertions (calls ++ [.expire r])) c ∧ InsertedAfter o h c) (new t₀) calls := by
    apply along_of_forall
    intro pre c post hp _ hcalls hpre _
    refine ⟨among_of_mem (by simp [hcalls]), ?_⟩
    cases c with
    | expire _ => trivial
    | insertEvent e' =>
      show o e' ≤ hp.wheel.origin
      by_cases hee : e' = e
      · subst hee
        have hpost : run step hp (.insertEvent e' :: post) = some h := by
          rw [hcalls, run_append, hpre] at hrun
          exact hrun
        have hsince := expire_origin_since hpre hpost hr hres
        have hlt := hlost pre post hcalls
        have hskip : truncated (nowAfter t₀ pre) (.insertEvent e' :: post ++ [.expire r]) =
            truncated (nowAfter t₀ pre) (post ++ [.expire r]) := rfl
        rw [ho]
        simp only [if_true]
        omega
      · have horigin := (run_new_origin hpre).2
        have hnonneg := truncated_nonneg t₀ pre
        simp only [ho, if_neg hee]
        omega
  have hon : OnTime o w' := hres.onTime (run_onTime hfits (mem_readings _ _) hafter hrun) hr
    (hW.fitsAt hfits hreading)
  have hleft := hres.left hon he
  simp only [ho, if_true, Wheel.origin, hres.now] at hleft
  unfold ticksPerMs at *
  omega

theorem expire_keeps_nothing_late_run :
    ∃ h w', run step (new 0) [.insertEvent ⟨0, 2000⟩] = some h ∧
      h.wheel.expire 3500 [] = some (w', [⟨0, 2000⟩]) ∧ (⟨0, 2000⟩ : Event) ∉ w'.stored := by
  obtain ⟨h, hrun, hnow, hexp⟩ : ∃ h, run step (new 0) [.insertEvent ⟨0, 2000⟩] = some h ∧
      h.wheel.now < 3500 ∧ (h.wheel.expire 3500 []).any (fun p => decide (p.2 = [⟨0, 2000⟩])) = true :=
    exists_run (by decide +kernel)
  obtain ⟨⟨w', out⟩, hw', rfl⟩ := exists_of_any hexp
  refine ⟨h, w', hrun, hw', expire_keeps_nothing_late hrun (by decide) hnow hw' (by decide) ?_⟩
  intro pre post hcalls
  obtain ⟨rfl, rfl⟩ : pre = [] ∧ post = [] := by
    cases pre with
    | nil => exact ⟨rfl, (List.cons.inj hcalls).2.symm⟩
    | cons c pre => simp at hcalls
  decide

/-- Four readings half a millisecond apart lose two milliseconds: at 61 ms, the event due at 60 ms is
still in the wheel. -/
theorem expire_keeps_event_due_a_millisecond_ago :
    ∃ h, run step (new 0) [.expire 59000, .insertEvent ⟨0, 60000⟩, .expire 59500, .expire 60000,
        .expire 60500] = some h ∧
      h.wheel.now < 61000 ∧ (⟨0, 60000⟩ : Event) ∈ h.inserted ∧ 60000 + ticksPerMs ≤ 61000 ∧
      ∃ w', h.wheel.expire 61000 [] = some (w', []) ∧ (⟨0, 60000⟩ : Event) ∈ w'.stored := by
  obtain ⟨h, hrun, hnow, hins, hexp⟩ : ∃ h, run step (new 0) [.expire 59000,
      .insertEvent ⟨0, 60000⟩, .expire 59500, .expire 60000, .expire 60500] = some h ∧
      h.wheel.now < 61000 ∧ (⟨0, 60000⟩ : Event) ∈ h.inserted ∧
      (h.wheel.expire 61000 []).any
        (fun p => decide (p.2 = [] ∧ (⟨0, 60000⟩ : Event) ∈ p.1.slot 1 1)) = true :=
    exists_run (by decide +kernel)
  obtain ⟨⟨w', out⟩, hw', rfl, hslot⟩ := exists_of_any hexp
  exact ⟨h, hrun, hnow, hins, by decide, w', hw', mem_stored.mpr ⟨1, 1, hslot⟩⟩

end History

end Xyco.Time
