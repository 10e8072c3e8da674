import Xyco.Machine.Run
import Xyco.Time.Layout

/-!
# Runs of the wheel

A run is a list of calls of `insert_event` and `expire`, which the lock of `TimeRegistryImpl` puts in
one order. `Register` passes its event to `insert_event`; `select` passes a vector to `expire`, which
appends to it.
-/

namespace Xyco.Time

open Level (slotNum)

/-- A call on the wheel. `expire` comes with the reading of the clock it takes. -/
inductive Call where
  | insertEvent (event : Event)
  | expire (reading : Int)
deriving DecidableEq, Repr

/-- A wheel, the events inserted into it so far, and for every call the events it delivered. -/
structure History where
  wheel : Wheel
  inserted : List Event
  delivered : List (List Event)

namespace History

/-- A fresh wheel, constructed when the clock reads `t₀`. -/
def new (t₀ : Int) : History := ⟨Wheel.new t₀, [], []⟩

/-- One call; `none` is a call that throws. -/
def step (h : History) : Call → Option History
  | .insertEvent e =>
    (h.wheel.insertEvent e).map fun w => ⟨w, h.inserted ++ [e], h.delivered ++ [[]]⟩
  | .expire r =>
    (h.wheel.expire r []).map fun p => ⟨p.1, h.inserted, h.delivered ++ [p.2]⟩

end History

/-! ## Time -/

/-- A time between two time points that a `duration` of 64 bits can hold. -/
def InTicks (d : Int) : Prop := -2 ^ 63 ≤ d ∧ d < 2 ^ 63

instance : DecidablePred InTicks := fun d => inferInstanceAs (Decidable (-2 ^ 63 ≤ d ∧ d < 2 ^ 63))

def Call.reading? : Call → Option Int
  | .expire r => some r
  | .insertEvent _ => none

def Call.event? : Call → Option Event
  | .insertEvent e => some e
  | .expire _ => none

/-- The readings of a wheel constructed at `t₀` and of calls on it. -/
def readings (t₀ : Int) (calls : List Call) : List Int := t₀ :: calls.filterMap Call.reading?

/-- The events of calls of `insert_event`. -/
def insertions (calls : List Call) : List Event := calls.filterMap Call.event?

/-- At each of the readings `R`, the time that is left for each of the events `E` fits in 64 bits. -/
def FitAll (R : Int → Prop) (E : Event → Prop) : Prop :=
  ∀ t, R t → ∀ e, E e → InTicks (e.expireTime - t)

/-- No difference between an expire time and a reading of the clock overflows, in a run of calls on a
wheel constructed at `t₀`. -/
def Fits (t₀ : Int) (calls : List Call) : Prop :=
  FitAll (· ∈ readings t₀ calls) (· ∈ insertions calls)

instance (t₀ : Int) (calls : List Call) : Decidable (Fits t₀ calls) :=
  inferInstanceAs (Decidable (∀ t ∈ readings t₀ calls, ∀ e ∈ insertions calls,
    InTicks (e.expireTime - t)))

/-- The steps that `expire` walks when its reading is `gap` ticks after the previous one. -/
def gapSteps (gap : Int) : Int := toInt32 ((millis (toInt64 gap)).tdiv Wheel.intervalMs)

/-- The steps that a list of calls walks, on a wheel whose last reading is `now`. -/
def walked : Int → List Call → ℕ
  | _, [] => 0
  | now, .insertEvent _ :: calls => walked now calls
  | now, .expire r :: calls =>
    if now < r then (gapSteps (r - now)).toNat + walked r calls else walked now calls

/-- The steps walked, `T` of them before the calls, stay below `60 ^ 5`, also with the time that is
left for an inserted event. -/
def StaysInRange : Int → ℕ → List Call → Prop
  | _, _, [] => True
  | now, T, .insertEvent e :: calls =>
    T + (millis (e.expireTime - now)).toNat < Wheel.range ∧ StaysInRange now T calls
  | now, T, .expire r :: calls =>
    if now < r then
      T + (gapSteps (r - now)).toNat < Wheel.range ∧
        StaysInRange r (T + (gapSteps (r - now)).toNat) calls
    else StaysInRange now T calls

/-- The part of a gap that `expire` does not walk: what is over a whole number of milliseconds. -/
def lost (gap : Int) : Int := gap - ticksPerMs * (gapSteps gap).toNat

/-- The time that a list of calls loses, on a wheel whose last reading is `now`. -/
def truncated : Int → List Call → Int
  | _, [] => 0
  | now, .insertEvent _ :: calls => truncated now calls
  | now, .expire r :: calls =>
    if now < r then lost (r - now) + truncated r calls else truncated now calls

/-- The last reading that counts, `now_`, after a list of calls. -/
def nowAfter : Int → List Call → Int
  | now, [] => now
  | now, .insertEvent _ :: calls => nowAfter now calls
  | now, .expire r :: calls => nowAfter (max now r) calls

/-- The time point that the wheel takes for position 0. It stays where it is as long as no time is
lost. -/
def Wheel.origin (w : Wheel) : Int := w.now - ticksPerMs * w.position

/-- Successive readings of the clock, from `last` on, are whole milliseconds apart. -/
def WholeGaps : Int → List Call → Prop
  | _, [] => True
  | last, .insertEvent _ :: calls => WholeGaps last calls
  | last, .expire r :: calls => ticksPerMs ∣ r - last ∧ WholeGaps r calls

/-- A call within the range of a wheel constructed at `t₀`: the time since then, and with it the time
that is left for an inserted event, stays below `60 ^ 5` milliseconds. -/
def WithinRange (t₀ : Int) : Call → Prop
  | .insertEvent e => e.expireTime - t₀ < ticksPerMs * Wheel.range
  | .expire r => r - t₀ < ticksPerMs * Wheel.range

end Xyco.Time
