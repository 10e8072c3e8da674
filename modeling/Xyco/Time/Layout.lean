import Mathlib.Algebra.BigOperators.Fin
import Xyco.Radix.Level
import Xyco.Time.Wheel

/-!
# The wheel as a number and a bag of events

What the five cursors and the three hundred slots stand for: the cursors are the base-60 digits of
one number, the `position`, which counts the steps walked so far, and the slots together hold the
bag of `stored` events. The invariants of the wheel are stated in these terms.
-/

namespace Xyco.Time

open Level (slotNum)
open Radix

/-- The events in the slots of a level. -/
@[irreducible] def Level.stored (l : Level) : Multiset Event := ∑ s, (l.events s : Multiset Event)

namespace Wheel

/-- The number of milliseconds that the wheel covers: `60 ^ 5`, nine days. -/
@[irreducible] def range : ℕ := slotNum ^ levelNum

/-- The events in slot `s` of level `L`. -/
def slot (w : Wheel) (L : Fin levelNum) (s : Fin slotNum) : List Event := (w.levels L).events s

/-- The events in all slots of all levels. -/
@[irreducible] def stored (w : Wheel) : Multiset Event := ∑ L, (w.levels L).stored

/-- The number whose base-60 digits are the cursors. -/
def position (w : Wheel) : ℕ := ∑ L : Fin levelNum, (w.levels L).currentIt.val * slotNum ^ L.val

/-- The whole milliseconds left until an event expires, 0 once it is late, as `insert_event` computes
them. -/
def delay (w : Wheel) (e : Event) : ℕ := (millis (toInt64 (e.expireTime - w.now))).toNat

/-- `insert_event` puts an event that is due at number `P` into slot `s` of level `L`: the highest
level at which `P` lies in another block than the position, and there the slot of `P`. -/
structure Placed (w : Wheel) (P : ℕ) (L : Fin levelNum) (s : Fin slotNum) : Prop where
  level : TopLevel slotNum w.position P L
  slot : s.val = digit slotNum P L

/-- `insert_event` takes `slot_num_` off the steps on the last level. -/
def Wraps (w : Wheel) (e : Event) : Prop :=
  ∃ levelSteps level, levelLoop w.cursors (w.delay e) = some levelSteps ∧
    at? (levelSteps.length - 1) = some level ∧
    Level.distance (w.levels level).currentIt ≤ (levelSteps.getLastD 0).val

/-- No event waits in a slot that the cursor of its level has passed, and on the levels above 0 none
waits in the slot of the cursor itself. -/
def Ahead (w : Wheel) : Prop := ∀ L s e, e ∈ w.slot L s →
  digit slotNum w.position L ≤ s.val ∧ (L ≠ 0 → digit slotNum w.position L < s.val)

end Wheel

end Xyco.Time
