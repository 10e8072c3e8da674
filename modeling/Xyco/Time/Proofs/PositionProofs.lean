import Xyco.Time.Proofs.HistoryProofs

/-!
# Proofs: the cursors and the slots

The position of the wheel is the number of steps walked since its construction, and the cursors are
its digits. Where an event goes follows from the position and its delay alone.
-/

namespace Xyco.Time

open Level (slotNum)
open Radix Machine

namespace Wheel

variable {w : Wheel} {e : Event}

/-- The last level has room for its steps. -/
theorem not_wraps (w : Wheel) (e : Event) : ¬ w.Wraps e := by
  rintro ⟨levelSteps, level, hloop, hlevel, hwrap⟩
  have hfit : w.position + w.delay e < range := by
    by_contra hover
    rw [levelLoop_overflows (Nat.le_of_not_lt hover)] at hloop
    cases hloop
  obtain ⟨ds, hds, hcarry, hlen⟩ := levelLoop_fits hfit
  rw [hds] at hloop
  obtain rfl := Option.some.inj hloop
  rw [at?_of_lt hlen] at hlevel
  obtain rfl := Option.some.inj hlevel
  have hadd := hcarry.digit_add_last slotNum_pos
  have hdigit : digit slotNum (w.position + w.delay e) (ds.length - 1) < slotNum :=
    Nat.mod_lt _ slotNum_pos
  rw [Level.distance, cursor_eq_digit, getLastD_eq_getD] at hwrap
  rw [List.length_map, getD_map_val] at hadd
  simp only at hwrap
  omega

/-- The highest level at which the sum lies in another block, in terms of quotients. -/
theorem quotients_of_topLevel {T d L : ℕ} (h : TopLevel slotNum T (T + d) L) :
    (d = 0 → L = 0) ∧ (d ≠ 0 → (T + d) / slotNum ^ L ≠ T / slotNum ^ L) ∧
      ∀ L', L < L' → (T + d) / slotNum ^ L' = T / slotNum ^ L' := by
  refine ⟨?_, ?_, ?_⟩
  · rintro rfl
    rcases h.differ with hzero | hne
    · exact hzero
    · exact absurd rfl hne
  · intro hd
    rcases h.differ with rfl | hne
    · simpa using hd
    · exact fun heq => hne heq.symm
  · intro L' hL'
    exact (h.same.mono hL').symm

end Wheel

open Wheel

/-- What the wheel looks like after `T` steps. -/
structure Positioned (T : ℕ) (w : Wheel) : Prop where
  cursors : ∀ L, (w.levels L).currentIt.val = T / slotNum ^ L.val % slotNum
  passed : ∀ L s, s < (w.levels L).currentIt → w.slot L s = []
  current : ∀ L, L ≠ 0 → w.slot L (w.levels L).currentIt = []
  insert : ∀ e d, InTicks (e.expireTime - w.now) → d = (millis (e.expireTime - w.now)).toNat →
    T + d < range → ∃ L s, w.insertEvent e = some (w.push L s e) ∧ (d = 0 → L = 0) ∧
    (d ≠ 0 → (T + d) / slotNum ^ L.val ≠ T / slotNum ^ L.val) ∧
    (∀ L' : ℕ, L.val < L' → (T + d) / slotNum ^ L' = T / slotNum ^ L') ∧
    s.val = (T + d) / slotNum ^ L.val % slotNum

theorem positioned_of_ahead {w : Wheel} (hA : w.Ahead) : Positioned w.position w where
  cursors L := w.cursor_eq_digit L
  passed L s hs := by
    refine List.eq_nil_iff_forall_not_mem.mpr fun e he => ?_
    have hle := (hA L s e he).1
    rw [← cursor_eq_digit] at hle
    exact absurd hs (not_lt.mpr hle)
  current L hL := by
    refine List.eq_nil_iff_forall_not_mem.mpr fun e he => ?_
    have hlt := (hA L _ e he).2 hL
    rw [← cursor_eq_digit] at hlt
    exact lt_irrefl _ hlt
  insert e d hticks hd hfit := by
    rw [← delay_of_inTicks hticks] at hd
    subst hd
    obtain ⟨L, s, hins, hplaced⟩ := insertEvent_spec hfit
    obtain ⟨hzero, hdiffer, hsame⟩ := quotients_of_topLevel hplaced.level
    exact ⟨L, s, hins, fun hd => Fin.ext (hzero hd), hdiffer, hsame, hplaced.slot⟩

namespace History

variable {h h' : History} {calls : List Call} {t₀ : Int} {R : Int → Prop} {E : Event → Prop}

theorem step_of_insertEvent {e : Event} {w : Wheel} (hins : h.wheel.insertEvent e = some w) :
    step h (.insertEvent e) = some ⟨w, h.inserted ++ [e], h.delivered ++ [[]]⟩ := by
  rw [step, hins, Option.map_some]

theorem step_of_expire {r : Int} {w : Wheel} {out : List Event}
    (hexp : h.wheel.expire r [] = some (w, out)) :
    step h (.expire r) = some ⟨w, h.inserted, h.delivered ++ [out]⟩ := by
  rw [step, hexp, Option.map_some]

/-- A call in range does not throw. -/
theorem step_of_staysInRange {c : Call} (hF : FitAll R E) (hW : Tracked R E h.wheel)
    (hc : Among R E c) (hrange : StaysInRange h.wheel.now h.wheel.position (c :: calls)) :
    ∃ h', step h c = some h' ∧ StaysInRange h'.wheel.now h'.wheel.position calls ∧
      h'.wheel.position + walked h'.wheel.now calls =
        h.wheel.position + walked h.wheel.now (c :: calls) := by
  cases c with
  | insertEvent e =>
    rw [StaysInRange, ← delay_of_inTicks (hF _ hW.now e hc)] at hrange
    obtain ⟨hfit, hrest⟩ := hrange
    obtain ⟨L, s, hins, -⟩ := insertEvent_spec hfit
    have hpos := h.wheel.push_position L s e
    have hnow : (h.wheel.push L s e).now = h.wheel.now := rfl
    refine ⟨_, step_of_insertEvent hins, ?_, ?_⟩
    · rw [hpos, hnow]
      exact hrest
    · rw [hpos, hnow, walked]
  | expire r =>
    by_cases hr : h.wheel.now < r
    · rw [StaysInRange, if_pos hr] at hrange
      obtain ⟨hfit, hrest⟩ := hrange
      obtain ⟨⟨w', out⟩, hexp⟩ := Option.isSome_iff_exists.mp
        (expire_fits hW.inv hr [] hfit (hW.fitsAt_now hF) (hW.fitsAt hF hc))
      obtain ⟨new, -, hres⟩ := expire_res hW.inv.ahead hr hexp
      refine ⟨_, step_of_expire hexp, ?_, ?_⟩
      · rw [hres.now, hres.position]
        exact hrest
      · rw [hres.now, hres.position, walked, if_pos hr, Nat.add_assoc]
    · rw [StaysInRange, if_neg hr] at hrange
      refine ⟨_, step_of_expire (expire_of_le hr []), hrange, ?_⟩
      rw [walked, if_neg hr]

/-- A run of calls in range throws nothing, and moves the position by the steps it walks. -/
theorem run_of_staysInRange (hF : FitAll R E) (hW : Tracked R E h.wheel)
    (hc : ∀ c ∈ calls, Among R E c) (hrange : StaysInRange h.wheel.now h.wheel.position calls) :
    ∃ h', run step h calls = some h' ∧
      h'.wheel.position = h.wheel.position + walked h.wheel.now calls := by
  induction calls generalizing h with
  | nil =>
    refine ⟨h, rfl, ?_⟩
    rw [walked, Nat.add_zero]
  | cons c calls ih =>
    obtain ⟨hc, hcalls⟩ := List.forall_mem_cons.mp hc
    obtain ⟨h₁, hstep, hrest, hwalked⟩ := step_of_staysInRange hF hW hc hrange
    obtain ⟨h', hrun, hposition⟩ := ih (step_tracked hF hW hc hstep) hcalls hrest
    refine ⟨h', ?_, hposition.trans hwalked⟩
    rw [run_cons, hstep]
    exact hrun

/-- After calls that stay in range, whatever the readings of the clock as long as no time overflows,
the wheel is positioned at the number of steps walked. No call of `insert_event` wraps around, those
of `walk` included. -/
theorem wheel_positioned (hfits : Fits t₀ calls) (hrange : StaysInRange t₀ 0 calls) :
    (∃ h, run step (new t₀) calls = some h ∧ Positioned (walked t₀ calls) h.wheel) ∧
      ∀ w e, ¬ Wheel.Wraps w e := by
  have hstart : StaysInRange (new t₀).wheel.now (new t₀).wheel.position calls := by
    have hzero : (new t₀).wheel.position = 0 := position_new t₀
    rw [hzero]
    exact hrange
  obtain ⟨h, hrun, hposition⟩ := run_of_staysInRange hfits (h := new t₀)
    (tracked_new (mem_readings t₀ calls)) (fun _ hc => among_of_mem hc) hstart
  refine ⟨⟨h, hrun, ?_⟩, not_wraps⟩
  have hwalked : h.wheel.position = walked t₀ calls := by
    rw [hposition]
    show (Wheel.new t₀).position + walked t₀ calls = _
    rw [position_new, Nat.zero_add]
  rw [← hwalked]
  exact positioned_of_ahead (run_ahead hrun)

/-- More than a millisecond is lost, and two milliseconds are walked. -/
theorem wheel_positioned_run :
    ∃ h, run step (new 0) [.insertEvent ⟨0, 61000⟩, .expire 900, .expire 3500,
        .insertEvent ⟨1, 3605000⟩] = some h ∧ Positioned 2 h.wheel := by
  have hrange : StaysInRange 0 0 [.insertEvent ⟨0, 61000⟩, .expire 900, .expire 3500,
      .insertEvent ⟨1, 3605000⟩] := by
    simp only [StaysInRange, range_eq]
    decide
  have hwalked : walked 0 [.insertEvent ⟨0, 61000⟩, .expire 900, .expire 3500,
      .insertEvent ⟨1, 3605000⟩] = 2 := by decide
  rw [← hwalked]
  exact (wheel_positioned (by decide) hrange).1

/-- An event that was due a microsecond more than a `duration` can hold before the wheel was
constructed adds nothing to the steps, but `insert_event` throws. -/
theorem wheel_not_positioned_after_overflow :
    StaysInRange 1 0 [.insertEvent ⟨0, minTime⟩] ∧ walked 1 [.insertEvent ⟨0, minTime⟩] = 0 ∧
      run step (new 1) [.insertEvent ⟨0, minTime⟩] = none := by
  refine ⟨?_, rfl, Option.isNone_iff_eq_none.mp (by decide +kernel)⟩
  simp only [StaysInRange, range_eq]
  decide

end History

end Xyco.Time
