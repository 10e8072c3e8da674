import Xyco.Time.History

/-!
# A flat list of timers

What the wheel is for: a bag of pending timers, of which a reading of the clock takes those that are
due. Order and position play no part.
-/

namespace Xyco.Time

/-- A timer is due at a reading when less than a millisecond of it is left. -/
def Due (reading : Int) (e : Event) : Prop := e.expireTime - reading < ticksPerMs

instance (reading : Int) : DecidablePred (Due reading) :=
  fun e => inferInstanceAs (Decidable (e.expireTime - reading < ticksPerMs))

/-- The pending timers, the last reading, and for every call the timers it delivered. -/
structure FlatTimers where
  now : Int
  pending : Multiset Event
  delivered : List (Multiset Event)

namespace FlatTimers

def new (t₀ : Int) : FlatTimers := ⟨t₀, 0, []⟩

/-- A reading that is not later than the last one has no effect. -/
def step (f : FlatTimers) : Call → FlatTimers
  | .insertEvent e => ⟨f.now, f.pending + {e}, f.delivered ++ [0]⟩
  | .expire r =>
    if f.now < r then
      ⟨r, f.pending.filter (¬ Due r ·), f.delivered ++ [f.pending.filter (Due r)]⟩
    else ⟨f.now, f.pending, f.delivered ++ [0]⟩

def run : FlatTimers → List Call → FlatTimers := List.foldl step

end FlatTimers

end Xyco.Time
