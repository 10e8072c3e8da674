import Xyco.Time.FlatTimers
import Xyco.Time.Proofs.HistoryProofs

/-!
# Proofs: the wheel refines a flat list of timers
-/

namespace Xyco.Time

open Level (slotNum)
open Radix Machine Wheel History

variable {h : History} {f : FlatTimers} {w w' : Wheel} {t₀ last r : Int} {e : Event}
  {new : List Event} {R : Int → Prop} {E : Event → Prop}

/-! ## Readings a whole number of milliseconds apart -/

/-- A wheel that has lost no time since it was constructed at `t₀`. -/
structure Exact (R : Int → Prop) (E : Event → Prop) (t₀ : Int) (w : Wheel) : Prop where
  tracked : Tracked R E w
  onTime : OnTime (fun _ => t₀) w
  origin : w.origin = t₀

theorem exact_new (ht : R t₀) : Exact R E t₀ (Wheel.new t₀) := by
  refine ⟨tracked_new ht, onTime_new _ t₀, ?_⟩
  unfold Wheel.origin
  rw [position_new]
  exact sub_zero t₀

theorem Exact.now_eq (hx : Exact R E t₀ w) : w.now = t₀ + ticksPerMs * w.position := by
  have := hx.origin
  unfold Wheel.origin at this
  omega

/-- An event within the range can be inserted. -/
theorem Exact.insertEvent (hF : FitAll R E) (hx : Exact R E t₀ w) (hmem : E e)
    (he : e.expireTime - t₀ < ticksPerMs * range) :
    ∃ w', w.insertEvent e = some w' ∧ Exact R E t₀ w' ∧ w'.now = w.now ∧
      w'.stored = w.stored + {e} := by
  have hticks := hF _ hx.tracked.now e hmem
  have hfit : w.position + w.delay e < range := by
    have hnow := hx.now_eq
    have hdelay := delay_eq hticks
    have hlt := w.position_lt
    unfold ticksPerMs at *
    omega
  obtain ⟨L, s, hins, hp⟩ := insertEvent_spec hfit
  refine ⟨w.push L s e, hins, ⟨hx.tracked.push hfit hp hticks hmem,
    hx.onTime.push hp hticks hx.origin.ge, ?_⟩, rfl, w.push_stored L s e⟩
  rw [push_origin]
  exact hx.origin

/-- A reading within the range takes the events that are due, and leaves the others. -/
theorem Exact.expire (hF : FitAll R E) (hx : Exact R E t₀ w) (hmem : R r) (hr : w.now < r)
    (hgap : ticksPerMs ∣ r - w.now) (hrange : r - t₀ < ticksPerMs * range) :
    ∃ w' new, w.expire r [] = some (w', new) ∧ Exact R E t₀ w' ∧ w'.now = r ∧
      (new : Multiset Event) = w.stored.filter (Due r) ∧ w'.stored = w.stored.filter (¬ Due r ·) := by
  have hnow := hx.now_eq
  obtain ⟨n, hn⟩ := hgap
  have hsteps : gapSteps (r - w.now) = n := by
    rw [gapSteps_eq (by omega) (by unfold ticksPerMs at *; omega), hn]
    exact Int.mul_ediv_cancel_left n (by decide)
  have hT : w.position + (gapSteps (r - w.now)).toNat < range := by
    rw [hsteps]
    unfold ticksPerMs at *
    omega
  have hnowFits := hx.tracked.fitsAt_now hF
  have hfits := hx.tracked.fitsAt hF hmem
  obtain ⟨⟨w', new⟩, hexp⟩ :=
    Option.isSome_iff_exists.mp (expire_fits hx.tracked.inv hr [] hT hnowFits hfits)
  obtain ⟨_, rfl, hres⟩ := expire_res hx.tracked.inv.ahead hr hexp
  have horigin : w'.origin = t₀ := by
    rw [hres.origin, hx.origin, lost, hsteps, hn]
    unfold ticksPerMs at *
    omega
  have hon : OnTime (fun _ => t₀) w' := hres.onTime hx.onTime hr hfits
  have hdue : ∀ e ∈ (new : Multiset Event), Due r e := fun e he =>
    hres.due hx.tracked.inv hr hfits e he
  have hleft : ∀ e ∈ w'.stored, ¬ Due r e := by
    intro e he hd
    have hstart := hres.left hon he
    have hnow' := hres.now
    unfold Wheel.origin at horigin
    unfold Due at hd
    unfold ticksPerMs at *
    omega
  refine ⟨w', new, hexp, ⟨hx.tracked.reading hF hmem hr hres, hon, horigin⟩, hres.now, ?_, ?_⟩
  · rw [← hres.stored, Multiset.filter_add, Multiset.filter_eq_nil.mpr hleft,
      Multiset.filter_eq_self.mpr hdue, zero_add]
  · rw [← hres.stored, Multiset.filter_add, Multiset.filter_eq_self.mpr hleft,
      Multiset.filter_eq_nil.mpr fun e he hd => hd (hdue e he), add_zero]

/-! ## The simulation -/

/-- The flat list and the wheel after the same calls; `last` is the last reading. -/
structure Simulates (R : Int → Prop) (E : Event → Prop) (t₀ last : Int) (h : History) (f : FlatTimers) :
    Prop where
  wheel : Exact R E t₀ h.wheel
  last : ticksPerMs ∣ last - t₀
  now : f.now = h.wheel.now
  pending : f.pending = h.wheel.stored
  delivered : f.delivered = h.delivered.map Multiset.ofList

theorem simulates_new (ht : R t₀) :
    Simulates R E t₀ t₀ (History.new t₀) (FlatTimers.new t₀) := by
  constructor
  · exact exact_new ht
  · rw [sub_self]
    exact dvd_zero _
  · rfl
  · exact (stored_new t₀).symm
  · rfl

theorem Simulates.insertEvent (hF : FitAll R E) (hs : Simulates R E t₀ last h f) (hmem : E e)
    (he : e.expireTime - t₀ < ticksPerMs * range) :
    ∃ h', History.step h (.insertEvent e) = some h' ∧
      Simulates R E t₀ last h' (f.step (.insertEvent e)) := by
  obtain ⟨w', hins, hx, hnow, hstored⟩ := hs.wheel.insertEvent hF hmem he
  refine ⟨⟨w', h.inserted ++ [e], h.delivered ++ [[]]⟩, by simp [History.step, hins], ?_⟩
  refine ⟨hx, hs.last, ?_, ?_, ?_⟩
  · exact hs.now.trans hnow.symm
  · show f.pending + {e} = w'.stored
    rw [hs.pending, hstored]
  · show f.delivered ++ [0] = _
    rw [hs.delivered, List.map_append]
    rfl

theorem Simulates.expire (hF : FitAll R E) (hs : Simulates R E t₀ last h f) (hmem : R r)
    (hgap : ticksPerMs ∣ r - last) (hrange : r - t₀ < ticksPerMs * range) :
    ∃ h', History.step h (.expire r) = some h' ∧ Simulates R E t₀ r h' (f.step (.expire r)) := by
  have hlast : ticksPerMs ∣ r - t₀ := by
    have := dvd_add hgap hs.last
    rwa [sub_add_sub_cancel] at this
  by_cases hr : h.wheel.now < r
  · have hdvd : ticksPerMs ∣ r - h.wheel.now := by
      have := dvd_sub hlast (Dvd.intro _ rfl : ticksPerMs ∣ ticksPerMs * (h.wheel.position : ℤ))
      rwa [show r - t₀ - ticksPerMs * (h.wheel.position : ℤ) = r - h.wheel.now by
        rw [hs.wheel.now_eq]; ring] at this
    obtain ⟨w', new, hexp, hx, hnow, hnew, hstored⟩ := hs.wheel.expire hF hmem hr hdvd hrange
    refine ⟨⟨w', h.inserted, h.delivered ++ [new]⟩, by simp [History.step, hexp], ?_⟩
    have hstep : f.step (.expire r) =
        ⟨r, f.pending.filter (¬ Due r ·), f.delivered ++ [f.pending.filter (Due r)]⟩ :=
      if_pos (hs.now ▸ hr)
    rw [hstep]
    refine ⟨hx, hlast, hnow.symm, ?_, ?_⟩
    · show f.pending.filter _ = w'.stored
      rw [hs.pending, hstored]
    · show f.delivered ++ [f.pending.filter (Due r)] = _
      rw [hs.delivered, hs.pending, ← hnew, List.map_append]
      rfl
  · have hstep : f.step (.expire r) = ⟨f.now, f.pending, f.delivered ++ [0]⟩ :=
      if_neg (hs.now ▸ hr)
    refine ⟨⟨h.wheel, h.inserted, h.delivered ++ [[]]⟩, by simp [History.step, expire_of_le hr], ?_⟩
    rw [hstep]
    refine ⟨hs.wheel, hlast, hs.now, hs.pending, ?_⟩
    show f.delivered ++ [0] = _
    rw [hs.delivered, List.map_append]
    rfl

/-- Induction on the calls: the wheel follows the flat list call by call. -/
theorem Simulates.run {calls : List Call} (hF : FitAll R E) (hs : Simulates R E t₀ last h f)
    (hknown : ∀ c ∈ calls, Among R E c) (hgaps : WholeGaps last calls)
    (hrange : ∀ c ∈ calls, WithinRange t₀ c) :
    ∃ h' last', Machine.run History.step h calls = some h' ∧
      Simulates R E t₀ last' h' (f.run calls) := by
  induction calls generalizing h f last with
  | nil => exact ⟨h, last, rfl, hs⟩
  | cons c calls ih =>
    obtain ⟨hc, hcalls⟩ := List.forall_mem_cons.mp hrange
    obtain ⟨hmem, hmems⟩ := List.forall_mem_cons.mp hknown
    obtain ⟨h₁, last₁, hstep, hs₁, hgaps₁⟩ : ∃ h₁ last₁, History.step h c = some h₁ ∧
        Simulates R E t₀ last₁ h₁ (f.step c) ∧ WholeGaps last₁ calls := by
      cases c with
      | insertEvent e =>
        obtain ⟨h₁, hstep, hs₁⟩ := hs.insertEvent hF hmem hc
        exact ⟨h₁, last, hstep, hs₁, hgaps⟩
      | expire r =>
        obtain ⟨h₁, hstep, hs₁⟩ := hs.expire hF hmem hgaps.1 hc
        exact ⟨h₁, r, hstep, hs₁, hgaps.2⟩
    rw [run_cons, hstep]
    exact ih hs₁ hmems hgaps₁ hcalls

/-- With readings a whole number of milliseconds apart, everything within the range and no time that
overflows, no call on a fresh wheel throws, every call delivers what the flat list delivers, and
`expire` delivers by appending to the vector it is given. -/
theorem wheel_refines_flatTimers {calls : List Call} (hfits : Fits t₀ calls)
    (hgaps : WholeGaps t₀ calls) (hrange : ∀ c ∈ calls, WithinRange t₀ c) :
    ∃ h, Machine.run History.step (History.new t₀) calls = some h ∧
      h.delivered.map Multiset.ofList = ((FlatTimers.new t₀).run calls).delivered ∧
      h.wheel.stored = ((FlatTimers.new t₀).run calls).pending ∧
      h.wheel.now = ((FlatTimers.new t₀).run calls).now ∧
      ∀ r events, h.wheel.expire r events =
        (h.wheel.expire r []).map fun p => (p.1, events ++ p.2) := by
  obtain ⟨h, last, hrun, hs⟩ := Simulates.run hfits
    (simulates_new (mem_readings t₀ calls)) (fun _ hc => among_of_mem hc) hgaps hrange
  exact ⟨h, hrun, hs.delivered.symm, hs.pending.symm, hs.now.symm, h.wheel.expire_append⟩

theorem wheel_refines_flatTimers_run :
    ∃ h, Machine.run History.step (History.new 0)
        [.insertEvent ⟨0, 2500⟩, .insertEvent ⟨1, 9000⟩, .expire 2000, .expire 4000] = some h ∧
      h.delivered.map Multiset.ofList = [0, 0, {⟨0, 2500⟩}, 0] := by
  have hgaps : WholeGaps 0
      [.insertEvent ⟨0, 2500⟩, .insertEvent ⟨1, 9000⟩, .expire 2000, .expire 4000] :=
    ⟨by decide, by decide, trivial⟩
  obtain ⟨h, hrun, hdel, -⟩ :=
    wheel_refines_flatTimers (by decide) hgaps (by simp [WithinRange, ticksPerMs, range_eq])
  exact ⟨h, hrun, hdel.trans (by decide)⟩

/-- The default of `expire_time_` is in the range and long due, but the time that is left for it
overflows: a clock past the epoch is enough for `insert_event` to throw. -/
theorem insertEvent_throws_at_minTime :
    WholeGaps 1 [.insertEvent ⟨0, minTime⟩] ∧
      (∀ c ∈ [Call.insertEvent ⟨0, minTime⟩], WithinRange 1 c) ∧
      Machine.run History.step (History.new 1) [.insertEvent ⟨0, minTime⟩] = none := by
  refine ⟨trivial, ?_, Option.isNone_iff_eq_none.mp (by decide +kernel)⟩
  simp [WithinRange, ticksPerMs, range_eq, minTime]

end Xyco.Time
