import Mathlib.Data.List.Perm.Basic
import Xyco.Net.EpollSocket

/-!
# Proofs: calls of the epoll registry that fail

A call of `Register` or `reregister` whose `epoll_ctl` fails takes the event out of
`registered_events_` again. `Register` has set the flag `Registered` before, and leaves it set, so the
next poll takes the event for registered.
-/

namespace Xyco.Io.EpollRegistry

open Machine Net

variable {fd : ℕ → ℕ} {s s' : EpollRegistry} {k event : ℕ} {ok : Bool} {call : EpollAction}

/-- `registered_events_` up to order, the flags of every event and the branch of every poll are those
from before. -/
def Unchanged (s s' : EpollRegistry) : Prop :=
  s'.registeredEvents.Perm s.registeredEvents ∧ s'.state = s.state ∧
    ∀ event kind res, decision kind (s'.state event) res = decision kind (s.state event) res

/-- A call after its first section, up to the return with an error. -/
theorem failed_tail (hpoint : s.threads[k]? = some (.adding event) ∨
      s.threads[k]? = some (.modifying event))
    (hrun : run (step fd) s [.ctl k ok, .undo k] = some s') :
    s'.registeredEvents = s.registeredEvents.erase event ∧ s'.state = s.state := by
  have hk : k < s.threads.length := by
    rcases hpoint with h | h
    · exact (List.getElem?_eq_some_iff.mp h).1
    · exact (List.getElem?_eq_some_iff.mp h).1
  obtain ⟨t, hctl, hundo⟩ := Option.bind_eq_some_iff.mp hrun
  have hundo' : t.undo k = some s' := by simpa [step] using hundo
  have hcases : t = s.watch fd k event ∨ t = s.goTo k (.undoing event) := by
    rcases hpoint with h | h
    · simp only [step, ctl, h] at hctl
      exact (eq_of_branch hctl).imp And.right And.right
    · simp only [step, ctl, h] at hctl
      exact (eq_of_branch hctl).imp And.right And.right
  rcases hcases with rfl | rfl
  · -- the call has returned without an error
    have hidle : (s.watch fd k event).threads[k]? = some .idle := List.getElem?_set_self hk
    rw [undo, hidle] at hundo'
    cases hundo'
  · have hundoing : (s.goTo k (.undoing event)).threads[k]? = some (.undoing event) :=
      List.getElem?_set_self hk
    rw [undo, hundoing] at hundo'
    obtain rfl := Option.some.inj hundo'
    exact ⟨rfl, rfl⟩

/-- What was pushed is erased. -/
theorem erase_pushed (l : List ℕ) (event : ℕ) : ((l ++ [event]).erase event).Perm l := by
  have hperm := (List.perm_append_singleton event l).erase event
  rwa [List.erase_cons_head] at hperm

theorem register_failed (hrun : run (step fd) s [.register k event, .ctl k ok, .undo k] = some s') :
    s'.registeredEvents.Perm s.registeredEvents ∧
      s'.state = Function.update s.state event { s.state event with registered := true } := by
  obtain ⟨t, hregister, htail⟩ := Option.bind_eq_some_iff.mp hrun
  obtain ⟨hidle, rfl⟩ := eq_of_guard hregister
  have hk := (List.getElem?_eq_some_iff.mp hidle).1
  obtain ⟨hevents, hstate⟩ := failed_tail (Or.inl (List.getElem?_set_self hk)) htail
  exact ⟨hevents ▸ erase_pushed _ event, hstate⟩

theorem reregister_failed
    (hrun : run (step fd) s [.reregister k event, .ctl k ok, .undo k] = some s') :
    s'.registeredEvents.Perm s.registeredEvents ∧ s'.state = s.state := by
  obtain ⟨t, hreregister, htail⟩ := Option.bind_eq_some_iff.mp hrun
  obtain ⟨hidle, rfl⟩ := eq_of_guard hreregister
  have hk := (List.getElem?_eq_some_iff.mp hidle).1
  obtain ⟨hevents, hstate⟩ := failed_tail (Or.inr (List.getElem?_set_self hk)) htail
  exact ⟨hevents ▸ erase_pushed _ event, hstate⟩

theorem unchanged_of_state (hevents : s'.registeredEvents.Perm s.registeredEvents)
    (hstate : s'.state = s.state) : Unchanged s s' :=
  ⟨hevents, hstate, fun event kind res => by rw [hstate]⟩

/-- A call that fails changes nothing exactly if it is `reregister`, or if `Registered` was set
before. -/
theorem failed_call_unchanged_iff (hcall : call = .register k event ∨ call = .reregister k event)
    (hrun : run (step fd) s [call, .ctl k ok, .undo k] = some s') :
    Unchanged s s' ↔ call = .reregister k event ∨ (s.state event).registered = true := by
  rcases hcall with rfl | rfl
  · obtain ⟨hevents, hstate⟩ := register_failed hrun
    constructor
    · rintro ⟨-, hsame, -⟩
      right
      rw [← hsame, hstate, Function.update_self]
    · rintro (hne | hset)
      · cases hne
      · refine unchanged_of_state hevents ?_
        rw [hstate, ← hset]
        exact Function.update_eq_self event s.state
  · obtain ⟨hevents, hstate⟩ := reregister_failed hrun
    exact ⟨fun _ => Or.inl rfl, fun _ => unchanged_of_state hevents hstate⟩

/-- `reregister` of a descriptor that has no entry. -/
theorem failed_call_unchanged_reregister :
    ∃ s', run (step id) (init 1) [.reregister 0 5, .ctl 0 true, .undo 0] = some s' ∧
      Unchanged (init 1) s' := by
  have hcalls : ∃ s', run (step id) (init 1) [.reregister 0 5, .ctl 0 true, .undo 0] = some s' ∧
      s'.registeredEvents = [] := exists_run (by decide)
  obtain ⟨s', hrun, -⟩ := hcalls
  exact ⟨s', hrun, (failed_call_unchanged_iff (Or.inr rfl) hrun).mpr (Or.inl rfl)⟩

/-- `Register` fails, and the next `read` goes to `reregister`. -/
theorem failed_register_flag :
    ∃ s', run (step id) (init 1) [.register 0 5, .ctl 0 false, .undo 0] = some s' ∧
      s'.registeredEvents = [] ∧ decision .read ((init 1).state 5) .again = .register ∧
      decision .read (s'.state 5) .again = .reregister :=
  exists_run (by decide)

end Xyco.Io.EpollRegistry
