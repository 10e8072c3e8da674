import Mathlib.Algebra.Order.Ring.Nat
import Mathlib.Data.Fin.Basic
import Mathlib.Logic.Function.Basic

/-!
# The hierarchical timer wheel

`xyco::time::Wheel`: five levels of sixty slots each. A slot of level `L` covers `60 ^ L`
milliseconds, every level has a cursor (`current_it_`), and an event waits in a slot until `walk`
moves the cursor over it. `insert_event` picks level and slot from the time left and the cursors;
`expire` reads the clock and walks as many steps as whole milliseconds have passed.

`std::array::at` is the only operation that can throw. A function that uses it returns an `Option`,
and `none` is `std::out_of_range`.
-/

namespace Xyco.Time

/-- Ticks of `std::chrono::system_clock` in a millisecond: libc++, which the build selects, counts
microseconds. A time point is its number of ticks since the epoch. -/
def ticksPerMs : Int := 1000

/-- `std::chrono::duration_cast<std::chrono::milliseconds>(d).count()`, which rounds toward zero. -/
def millis (d : Int) : Int := d.tdiv ticksPerMs

/-- `static_cast<int>` of a wider integer. -/
def toInt32 (n : Int) : Int := n.bmod (2 ^ 32)

/-- The count of a `duration` or a time point, a signed integer of 64 bits. A result that does not fit
wraps around. -/
def toInt64 (n : Int) : Int := n.bmod (2 ^ 64)

/-- `std::chrono::time_point<std::chrono::system_clock>::min()`, the default of `expire_time_`. -/
def minTime : Int := -2 ^ 63

/-- A `runtime::Event` of the time registry: the future it wakes, and the `expire_time_` of its
`TimeExtra`. -/
structure Event where
  future : Nat
  expireTime : Int
deriving DecidableEq, Repr

/-! ## Levels -/

/-- `Level::slot_num_`. -/
def Level.slotNum : Nat := 60

instance : NeZero Level.slotNum := ⟨by decide⟩

/-- `xyco::time::Level`. The iterator `current_it_` is the index of its slot; it is never
`events_.end()`. -/
structure Level where
  events : Fin Level.slotNum → List Event
  currentIt : Fin Level.slotNum

namespace Level

/-- The constructor of `Level`. -/
def new : Level := ⟨fun _ => [], 0⟩

/-- `std::distance(it, events_.end())`. -/
def distance (it : Fin slotNum) : Nat := slotNum - it

/-- `std::advance(it, 1)`, and `events_.begin()` in place of `events_.end()`. -/
def next (it : Fin slotNum) : Fin slotNum :=
  if h : it.val + 1 < slotNum then ⟨it.val + 1, h⟩ else 0

/-- `std::advance(it, steps)`, with `slot_num_` taken off `steps` when it reaches the end. -/
def advance (it steps : Fin slotNum) : Fin slotNum :=
  if h : distance it ≤ steps.val then ⟨it.val + steps.val - slotNum, by omega⟩
  else ⟨it.val + steps.val, by unfold distance at h; omega⟩

/-- `it->clear()`. -/
def clear (l : Level) (it : Fin slotNum) : Level :=
  { l with events := Function.update l.events it [] }

/-- `it->push_back(event)`. -/
def pushBack (l : Level) (it : Fin slotNum) (event : Event) : Level :=
  { l with events := Function.update l.events it (l.events it ++ [event]) }

/-- The loops of `walk` that expire slots: `n` times, append the events of the slot at `it` to
`events`, clear the slot and step to the next one. The last component is the iterator reached. -/
def takeSlots : Nat → Level → Fin slotNum → List Event → Level × List Event × Fin slotNum
  | 0, l, it, events => (l, events, it)
  | n + 1, l, it, events => takeSlots n (l.clear it) (next it) (events ++ l.events it)

end Level

open Level (slotNum)

/-! ## The wheel -/

/-- `Wheel::level_num_`. -/
def Wheel.levelNum : Nat := 5

instance : NeZero Wheel.levelNum := ⟨by decide⟩

/-- `Wheel::interval_ms_`. -/
def Wheel.intervalMs : Int := 1

/-- `xyco::time::Wheel`. -/
structure Wheel where
  levels : Fin Wheel.levelNum → Level
  now : Int

namespace Wheel

/-- The constructor of `Wheel`, with the reading of the clock that it takes. -/
def new (now : Int) : Wheel := ⟨fun _ => Level.new, now⟩

/-- The bounds check of `levels_.at(level)`. -/
def at? (level : Nat) : Option (Fin levelNum) := if h : level < levelNum then some ⟨level, h⟩ else none

/-- The wheel with another level in place of level `i`. -/
def setLevel (w : Wheel) (i : Fin levelNum) (l : Level) : Wheel :=
  { w with levels := Function.update w.levels i l }

/-- The cursors `levels_[0].current_it_`, `levels_[1].current_it_`, ... -/
def cursors (w : Wheel) : List (Fin slotNum) := List.ofFn fun i => (w.levels i).currentIt

/-- The loop over the levels at the head of `insert_event` and of `walk`, on the cursors from the
current level on. The result has the `steps` of every iteration, so its length is the final value of
`level`; the list running out is `levels_.at(level)` throwing. -/
def levelLoop (its : List (Fin slotNum)) (totalSteps : Nat) : Option (List (Fin slotNum)) :=
  if totalSteps = 0 then some []
  else
    match its with
    | [] => none
    | it :: its =>
      let steps : Fin slotNum := ⟨totalSteps % slotNum, Nat.mod_lt _ (by decide)⟩
      let anotherCycle := if Level.distance it ≤ steps.val then 1 else 0
      (levelLoop its (totalSteps / slotNum + anotherCycle)).map (steps :: ·)

/-- `Wheel::insert_event`. -/
def insertEvent (w : Wheel) (event : Event) : Option Wheel := do
  let totalSteps := millis (toInt64 (event.expireTime - w.now))
  let levelSteps ← levelLoop w.cursors totalSteps.toNat
  let level ← at? (levelSteps.length - 1)
  let slotIt := Level.advance (w.levels level).currentIt (levelSteps.getLastD 0)
  return w.setLevel level ((w.levels level).pushBack slotIt event)

/-- The first `for` loop of `walk`: the levels below `i` are emptied, all sixty slots from the
cursor round, and their cursors moved. -/
def expireLevels (levelSteps : List (Fin slotNum)) :
    Nat → Wheel → List Event → Option (Wheel × List Event)
  | 0, w, events => some (w, events)
  | i + 1, w, events => do
    let (w, events) ← expireLevels levelSteps i w events
    let level ← at? i
    let (l, events, slotIt) := (w.levels level).takeSlots slotNum (w.levels level).currentIt events
    return (w.setLevel level { l with currentIt := Level.advance slotIt (levelSteps.getD i 0) }, events)

/-- The second `for` loop of `walk`: on the last level, `n` slots from the cursor on. -/
def expireSlots (w : Wheel) (level : Fin levelNum) (n : Nat) (events : List Event) :
    Wheel × List Event :=
  let (l, events, slotIt) := (w.levels level).takeSlots n (w.levels level).currentIt events
  (w.setLevel level { l with currentIt := slotIt }, events)

/-- Copy a slot, clear it, and insert its events again. -/
def reinsert (w : Wheel) (level : Fin levelNum) (slotIt : Fin slotNum) : Option Wheel :=
  ((w.levels level).events slotIt).foldlM insertEvent
    (w.setLevel level ((w.levels level).clear slotIt))

/-- The end of `walk`: the events at `levels_[0].current_it_` are taken. -/
def takeCurrent (w : Wheel) (events : List Event) : Wheel × List Event :=
  let slotIt := (w.levels 0).currentIt
  (w.setLevel 0 ((w.levels 0).clear slotIt), events ++ (w.levels 0).events slotIt)

/-- `Wheel::walk`. -/
def walk (w : Wheel) (steps : Int) (events : List Event) : Option (Wheel × List Event) := do
  let levelSteps ← levelLoop w.cursors steps.toNat
  let (w, events) ← expireLevels levelSteps (levelSteps.length - 1) w events
  let level ← at? (levelSteps.length - 1)
  let (w, events) := w.expireSlots level (levelSteps.getD level 0) events
  -- the current and the next slot of the last level go to lower levels
  let slotIt := (w.levels level).currentIt
  let w ← w.reinsert level slotIt
  let w ← w.reinsert level (Level.next slotIt)
  return w.takeCurrent events

/-- `Wheel::expire`, with the reading of the clock that it takes. -/
def expire (w : Wheel) (now : Int) (events : List Event) : Option (Wheel × List Event) :=
  if w.now < now then
    let steps := (millis (toInt64 (now - w.now))).tdiv intervalMs
    walk { w with now := now } (toInt32 steps) events
  else some (w, events)

end Wheel

end Xyco.Time
