import Xyco.Time.History
import Xyco.Time.Proofs.WalkProofs

/-!
# Proofs: the invariant of the wheel

`Ahead` holds of every wheel that a run reaches without an exception, whatever the readings of the
clock and the expire times. `Inv` says in addition that a slot is never passed before its events are
due, for which the time that is left for an event has to fit in 64 bits. `OnTime` is the other side,
how long an event may be kept: it depends on how much time the calls of `expire` have lost.
-/

namespace Xyco.Time

open Level (slotNum)
open Radix

/-! ## Milliseconds -/

theorem toNat_millis (d : Int) : ((millis d).toNat : Int) = max 0 (d / ticksPerMs) := by
  unfold millis ticksPerMs
  rcases le_or_gt 0 d with hd | hd
  · rw [Int.tdiv_eq_ediv_of_nonneg hd]
    omega
  · have hpos : 0 ≤ (-d).tdiv 1000 := Int.tdiv_nonneg (by omega) (by norm_num)
    rw [Int.neg_tdiv] at hpos
    omega

theorem toInt64_eq {d : Int} (h : InTicks d) : toInt64 d = d := by
  obtain ⟨hlow, hhigh⟩ := h
  exact Int.bmod_eq_of_le (by omega) (by omega)

theorem toInt32_lt (n : Int) : toInt32 n < 2 ^ 31 := by
  have := Int.bmod_lt (x := n) (m := 2 ^ 32) (by decide)
  unfold toInt32
  omega

theorem toInt32_le {n : Int} (h : 0 ≤ n) : toInt32 n ≤ n := by
  have hdef := Int.bmod_def n (2 ^ 32)
  unfold toInt32
  omega

theorem gapSteps_of_inTicks {gap : Int} (hgap : 0 ≤ gap) (h : InTicks gap) :
    gapSteps gap = toInt32 (gap / ticksPerMs) := by
  unfold gapSteps millis Wheel.intervalMs
  rw [toInt64_eq h, Int.tdiv_one, Int.tdiv_eq_ediv_of_nonneg hgap]

/-- A gap that does not fit in 64 bits is longer than any number of steps that an `int` can hold. -/
theorem gapSteps_mul_le {gap : Int} (hgap : 0 ≤ gap) :
    ticksPerMs * (gapSteps gap).toNat ≤ gap := by
  by_cases hlong : gap < 2 ^ 63
  · have hle := toInt32_le (Int.ediv_nonneg hgap (show 0 ≤ ticksPerMs by decide))
    rw [gapSteps_of_inTicks hgap ⟨by omega, hlong⟩]
    unfold ticksPerMs at *
    omega
  · have hlt : gapSteps gap < 2 ^ 31 := toInt32_lt _
    unfold ticksPerMs at *
    omega

theorem range_eq : Wheel.range = 777600000 := by unfold Wheel.range; decide

/-- Within the range the cast to `int` does not change the number of steps. -/
theorem gapSteps_eq {gap : Int} (hgap : 0 ≤ gap) (hlt : gap / ticksPerMs < Wheel.range) :
    gapSteps gap = gap / ticksPerMs := by
  have hrange := range_eq
  have hnonneg : 0 ≤ gap / ticksPerMs := Int.ediv_nonneg hgap (by decide)
  rw [gapSteps_of_inTicks hgap ⟨by omega, by unfold ticksPerMs at *; omega⟩]
  exact Int.bmod_eq_of_le (by omega) (by omega)

theorem lost_nonneg {gap : Int} (hgap : 0 ≤ gap) : 0 ≤ lost gap := by
  have := gapSteps_mul_le hgap
  unfold lost
  omega

namespace Wheel

variable {w w' : Wheel} {e : Event} {r : Int} {new : List Event}

theorem delay_of_inTicks (h : InTicks (e.expireTime - w.now)) :
    w.delay e = (millis (e.expireTime - w.now)).toNat := by
  rw [delay, toInt64_eq h]

theorem delay_eq (h : InTicks (e.expireTime - w.now)) :
    (w.delay e : Int) = max 0 ((e.expireTime - w.now) / ticksPerMs) := by
  rw [delay_of_inTicks h]
  exact toNat_millis _

theorem lt_delay_succ (h : InTicks (e.expireTime - w.now)) :
    e.expireTime - w.now < (w.delay e + 1) * ticksPerMs := by
  have := delay_eq h
  unfold ticksPerMs at *
  omega

theorem delay_mul_le (h : InTicks (e.expireTime - w.now)) (hpos : 0 < w.delay e) :
    w.delay e * ticksPerMs ≤ e.expireTime - w.now := by
  have := delay_eq h
  unfold ticksPerMs at *
  omega

/-- Time that passes takes at least as much off a delay as the wheel walks. -/
theorem delay_later {n : ℕ} (hn : ticksPerMs * n ≤ w'.now - w.now)
    (h : InTicks (e.expireTime - w.now)) (h' : InTicks (e.expireTime - w'.now)) :
    w'.delay e = 0 ∨ n + w'.delay e ≤ w.delay e := by
  have h := delay_eq h
  have h' := delay_eq h'
  unfold ticksPerMs at *
  omega

theorem Placed.start_le {P : ℕ} {L : Fin levelNum} {s : Fin slotNum} (h : w.Placed P L s) :
    slotStart slotNum w.position L s ≤ P := by
  rw [h.slot]
  exact slotStart_digit_le h.level.same

theorem Placed.lt_end {P : ℕ} {L : Fin levelNum} {s : Fin slotNum} (h : w.Placed P L s) :
    P < slotStart slotNum w.position L (s + 1) := by
  rw [h.slot]
  exact lt_slotStart_digit_succ slotNum_pos h.level.same

/-! ## The invariant -/

/-- At the reading `t`, the time that is left for every stored event fits in 64 bits. -/
def FitsAt (w : Wheel) (t : Int) : Prop := ∀ e ∈ w.stored, InTicks (e.expireTime - t)

/-- What holds of every wheel that has not thrown, as long as no time overflows. -/
structure Inv (w : Wheel) : Prop where
  ahead : w.Ahead
  fits : ∀ e ∈ w.stored, w.position + w.delay e < range
  notEarly : ∀ L s e, e ∈ w.slot L s →
    e.expireTime - w.now < ((slotStart slotNum w.position L (s + 1) : ℤ) - w.position) * ticksPerMs

theorem slot_new (t₀ : Int) (L : Fin levelNum) (s : Fin slotNum) : (Wheel.new t₀).slot L s = [] := rfl

theorem stored_new (t₀ : Int) : (Wheel.new t₀).stored = 0 := by
  refine Multiset.eq_zero_of_forall_notMem fun e he => ?_
  obtain ⟨L, s, hes⟩ := mem_stored.mp he
  rw [slot_new] at hes
  exact absurd hes List.not_mem_nil

theorem position_new (t₀ : Int) : (Wheel.new t₀).position = 0 := by
  simp [position, Wheel.new, Level.new]

theorem ahead_new (t₀ : Int) : (Wheel.new t₀).Ahead := fun _ _ _ he => absurd he List.not_mem_nil

theorem inv_new (t₀ : Int) : Inv (Wheel.new t₀) := by
  refine ⟨ahead_new t₀, fun e he => ?_, fun L s e he => ?_⟩
  · rw [stored_new] at he
    exact absurd he (Multiset.notMem_zero e)
  · exact absurd he List.not_mem_nil

/-- An event put where `insert_event` puts it meets the clauses of the invariant. -/
theorem Placed.notEarly {L : Fin levelNum} {s : Fin slotNum}
    (h : w.Placed (w.position + w.delay e) L s) (hticks : InTicks (e.expireTime - w.now)) :
    e.expireTime - w.now < ((slotStart slotNum w.position L (s + 1) : ℤ) - w.position) * ticksPerMs := by
  have hend := h.lt_end
  have hlt := lt_delay_succ hticks
  unfold ticksPerMs at *
  omega

theorem Ahead.push (hA : w.Ahead) {L : Fin levelNum} {s : Fin slotNum}
    (hp : w.Placed (w.position + w.delay e) L s) : (w.push L s e).Ahead := by
  intro L' s' e' he'
  rw [push_position]
  rcases mem_push he' with he' | ⟨rfl, rfl, rfl⟩
  · exact hA L' s' e' he'
  · exact hp.ahead (Nat.le_add_right _ _)

theorem Inv.push (hI : Inv w) {L : Fin levelNum} {s : Fin slotNum}
    (hfit : w.position + w.delay e < range) (hp : w.Placed (w.position + w.delay e) L s)
    (hticks : InTicks (e.expireTime - w.now)) : Inv (w.push L s e) := by
  have hpos := w.push_position L s e
  have hdelay : ∀ e', (w.push L s e).delay e' = w.delay e' := delay_congr rfl
  refine ⟨hI.ahead.push hp, fun e' he' => ?_, fun L' s' e' he' => ?_⟩
  · rw [hpos, hdelay]
    rw [push_stored, Multiset.mem_add, Multiset.mem_singleton] at he'
    rcases he' with he' | rfl
    · exact hI.fits e' he'
    · exact hfit
  · rw [hpos]
    rcases mem_push he' with he' | ⟨rfl, rfl, rfl⟩
    · exact hI.notEarly L' s' e' he'
    · exact hp.notEarly hticks

/-! ## `expire` -/

/-- What a call of `expire` with a later reading does. -/
structure ReadingRes (w : Wheel) (r : Int) (w' : Wheel) (new : List Event) : Prop where
  now : w'.now = r
  position : w'.position = w.position + (gapSteps (r - w.now)).toNat
  stored : w'.stored + new = w.stored
  slot : ∀ L s e, e ∈ w'.slot L s → digit slotNum w'.position L < s.val ∧
    ((e ∈ w.slot L s ∧ SameBlock slotNum (L + 1) w.position w'.position) ∨
      (e ∈ w.stored ∧ w'.Placed (w'.position + w'.delay e) L s))
  out : ∀ e ∈ new, (∃ L s, e ∈ w.slot L s ∧ slotStart slotNum w.position L (s + 1) ≤ w'.position) ∨
    w'.delay e = 0

theorem stored_setNow (w : Wheel) (r : Int) : ({ w with now := r } : Wheel).stored = w.stored := by
  unfold stored; rfl

theorem expire_res (hA : w.Ahead) (hr : w.now < r) {events out : List Event}
    (h : w.expire r events = some (w', out)) : ∃ new, out = events ++ new ∧ ReadingRes w r w' new := by
  set w₀ : Wheel := { w with now := r } with hw₀
  have hstored₀ : w₀.stored = w.stored := w.stored_setNow r
  rw [expire, if_pos hr] at h
  obtain ⟨new, rfl, hres⟩ := walk_cases (w := w₀) hA h
  have hdelay : ∀ e, w'.delay e = w₀.delay e := delay_congr hres.now
  have hpos : w'.position = w.position + (gapSteps (r - w.now)).toNat := hres.position
  refine ⟨new, rfl, hres.now, hpos, ?_, fun L s e he => ?_, fun e he => ?_⟩
  · rw [hres.stored, hstored₀]
  · obtain ⟨hlt, hcases⟩ := hres.slot L s e he
    rw [hpos]
    refine ⟨hlt, ?_⟩
    rcases hcases with hkept | ⟨hes, hp⟩
    · exact Or.inl hkept
    · rw [hdelay]
      exact Or.inr ⟨hstored₀ ▸ hes, hp⟩
  · rw [hdelay, hpos]
    exact (hres.out e he).imp_right And.right

/-- `expire` throws nothing if the wheel stays within the range: what it re-inserts has come nearer
by at least the steps walked. -/
theorem expire_fits (hI : Inv w) (hr : w.now < r) (events : List Event)
    (hT : w.position + (gapSteps (r - w.now)).toNat < range) (hnow : w.FitsAt w.now)
    (hreading : w.FitsAt r) : (w.expire r events).isSome = true := by
  set w₀ : Wheel := { w with now := r } with hw₀
  have hgap : ticksPerMs * (gapSteps (r - w.now)).toNat ≤ w₀.now - w.now :=
    gapSteps_mul_le (by omega)
  have hwalk := walk_fits (w := w₀) events hT fun e he => by
    rw [hw₀, w.stored_setNow] at he
    have hfit := hI.fits e he
    have hpos₀ : w₀.position = w.position := rfl
    rw [hpos₀]
    rcases delay_later hgap (hnow e he) (hreading e he) with h0 | hle
    · rw [h0]
      exact hT
    · omega
  rw [expire, if_pos hr]
  exact hwalk

/-- Nothing is taken early. -/
theorem ReadingRes.due (h : ReadingRes w r w' new) (hI : Inv w) (hr : w.now < r)
    (hreading : w.FitsAt r) : ∀ e ∈ new, e.expireTime - r < ticksPerMs := by
  intro e he
  have hticks : InTicks (e.expireTime - w'.now) := by
    rw [h.now]
    refine hreading e ?_
    rw [← h.stored]
    exact Multiset.mem_add.mpr (Or.inr he)
  have hgap : ticksPerMs * (gapSteps (r - w.now)).toNat ≤ r - w.now := gapSteps_mul_le (by omega)
  rcases h.out e he with ⟨L, s, hes, hend⟩ | hzero
  · have hearly := hI.notEarly L s e hes
    have hcast : ((slotStart slotNum w.position L (s + 1) : ℕ) : ℤ) ≤
        w.position + (gapSteps (r - w.now)).toNat := by
      rw [h.position] at hend
      exact_mod_cast hend
    unfold ticksPerMs at *
    omega
  · have hlt := lt_delay_succ hticks
    rw [hzero, h.now] at hlt
    simpa using hlt

theorem expire_none (hr : w.now < r) (events : List Event)
    (hT : range ≤ w.position + (gapSteps (r - w.now)).toNat) : w.expire r events = none := by
  rw [expire, if_pos hr]
  exact walk_none (w := { w with now := r }) events hT

theorem expire_of_le (hr : ¬ w.now < r) (events : List Event) :
    w.expire r events = some (w, events) := if_neg hr

/-- The time that a wheel and the clock drift apart in a call of `expire`. -/
theorem ReadingRes.origin (h : ReadingRes w r w' new) : w'.origin = w.origin + lost (r - w.now) := by
  unfold Wheel.origin lost
  rw [h.now, h.position]
  push_cast
  ring

theorem ReadingRes.ahead (h : ReadingRes w r w' new) : w'.Ahead := by
  intro L s e he
  obtain ⟨hlt, -⟩ := h.slot L s e he
  exact ⟨hlt.le, fun _ => hlt⟩

theorem ReadingRes.inv (h : ReadingRes w r w' new) (hI : Inv w) (hr : w.now < r)
    (hfits : w.FitsAt w.now) (hreading : w.FitsAt r) : Inv w' := by
  have hgap : ticksPerMs * (gapSteps (r - w.now)).toNat ≤ r - w.now := gapSteps_mul_le (by omega)
  have hnow := h.now
  have hpos := h.position
  refine ⟨h.ahead, fun e he => ?_, fun L s e he => ?_⟩
  · have hes : e ∈ w.stored := by
      rw [← h.stored, Multiset.mem_add]
      exact Or.inl he
    have hfit := hI.fits e hes
    have hgap' : ticksPerMs * (gapSteps (r - w.now)).toNat ≤ w'.now - w.now := by
      rw [h.now]
      exact hgap
    rcases delay_later hgap' (hfits e hes) (h.now ▸ hreading e hes) with h0 | hle
    · rw [h0, Nat.add_zero]
      exact w'.position_lt
    · omega
  · obtain ⟨-, ⟨hes, hsame⟩ | ⟨hes, hp⟩⟩ := h.slot L s e he
    · have hearly := hI.notEarly L s e hes
      rw [← slotStart_congr hsame, hnow, hpos]
      push_cast
      unfold ticksPerMs at *
      omega
    · exact hp.notEarly (h.now ▸ hreading e hes)

/-! ## How long an event may be kept -/

/-- An event that does not wait in the current slot of level 0 waits in a slot that starts no later
than the event is due, for a wheel whose position 0 is at the time `o e`. -/
structure OnTime (o : Event → Int) (w : Wheel) : Prop where
  bound : ∀ e ∈ w.stored, o e ≤ w.origin
  start : ∀ L s e, e ∈ w.slot L s → w.position < slotStart slotNum w.position L s →
    ticksPerMs * slotStart slotNum w.position L s + o e ≤ e.expireTime

theorem onTime_new (o : Event → Int) (t₀ : Int) : OnTime o (Wheel.new t₀) := by
  constructor
  · intro e he
    rw [stored_new] at he
    exact absurd he (Multiset.notMem_zero e)
  · intro L s e he
    exact absurd he List.not_mem_nil

theorem Placed.onTime {o : Event → Int} {L : Fin levelNum} {s : Fin slotNum}
    (h : w.Placed (w.position + w.delay e) L s) (hticks : InTicks (e.expireTime - w.now))
    (ho : o e ≤ w.origin) (hlt : w.position < slotStart slotNum w.position L s) :
    ticksPerMs * slotStart slotNum w.position L s + o e ≤ e.expireTime := by
  have hstart := h.start_le
  have hdelay := delay_mul_le hticks (by omega)
  unfold origin at ho
  unfold ticksPerMs at *
  omega

theorem push_origin (w : Wheel) (L : Fin levelNum) (s : Fin slotNum) (e : Event) :
    (w.push L s e).origin = w.origin := by
  unfold origin
  rw [push_position]
  rfl

theorem OnTime.push {o : Event → Int} (h : OnTime o w) {L : Fin levelNum} {s : Fin slotNum}
    (hp : w.Placed (w.position + w.delay e) L s) (hticks : InTicks (e.expireTime - w.now))
    (ho : o e ≤ w.origin) : OnTime o (w.push L s e) := by
  constructor
  · intro e' he'
    rw [push_origin]
    rw [push_stored, Multiset.mem_add, Multiset.mem_singleton] at he'
    rcases he' with he' | rfl
    · exact h.bound e' he'
    · exact ho
  · intro L' s' e' he' hlt
    rw [push_position] at hlt ⊢
    rcases mem_push he' with he' | ⟨rfl, rfl, rfl⟩
    · exact h.start L' s' e' he' hlt
    · exact hp.onTime hticks ho hlt

theorem ReadingRes.onTime {o : Event → Int} (h : ReadingRes w r w' new) (ho : OnTime o w)
    (hr : w.now < r) (hreading : w.FitsAt r) : OnTime o w' := by
  have horigin : w.origin ≤ w'.origin := by
    have := lost_nonneg (show 0 ≤ r - w.now by omega)
    rw [h.origin]
    omega
  have hbound : ∀ e ∈ w.stored, o e ≤ w'.origin := fun e he => (ho.bound e he).trans horigin
  constructor
  · intro e he
    apply hbound
    rw [← h.stored, Multiset.mem_add]
    exact Or.inl he
  · intro L s e he hlt
    obtain ⟨-, ⟨hes, hsame⟩ | ⟨hes, hp⟩⟩ := h.slot L s e he
    · have hle : w.position ≤ w'.position := by rw [h.position]; omega
      rw [← slotStart_congr hsame] at hlt ⊢
      exact ho.start L s e hes (by omega)
    · exact hp.onTime (h.now ▸ hreading e hes) (hbound e hes) hlt

/-- What is left after a call of `expire` is due later than the wheel has got. -/
theorem ReadingRes.left {o : Event → Int} (h : ReadingRes w r w' new) (ho : OnTime o w')
    (he : e ∈ w'.stored) : ticksPerMs * (w'.position + 1) + o e ≤ e.expireTime := by
  obtain ⟨L, s, hes⟩ := mem_stored.mp he
  have hlt := lt_slotStart slotNum_pos (h.slot L s e hes).1
  have hstart := ho.start L s e hes hlt
  unfold ticksPerMs at *
  omega

end Wheel

end Xyco.Time
