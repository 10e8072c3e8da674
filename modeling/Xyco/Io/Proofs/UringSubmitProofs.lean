import Xyco.Io.Proofs.UringRegistryProofs

/-!
# Proofs: the requests of the io_uring registry

`Register` reserves one entry of the ring, at the second attempt if the ring was full. `deregister`
goes to the ring twice in any case, so it reserves an entry that it does not write, unless the ring
was full.
-/

namespace Xyco.Io.UringRegistry

open Machine

variable {s t : UringRegistry} {event i : ℕ}

/-- `io_uring_submit` hands over what was reserved. -/
theorem handed_submit (s : UringRegistry) : s.submit.handed = s.handed := by
  have hpending : s.submit.ring.pending = [] := Ring.pending_of_unused rfl
  rw [handed, hpending, List.append_nil]
  rfl

theorem registerWith_issues (h : s.getSqe = some (i, t)) (event : ℕ) :
    (t.registerWith i event).inFlight = s.handed ++ [s.request event] ∧
      (t.registerWith i event).ring.used = 0 := by
  obtain ⟨ring, extra, hused, -, heq⟩ := registerWith_eq h event
  rw [heq, handed, List.append_assoc]
  exact ⟨rfl, hused⟩

theorem register_issues (s : UringRegistry) (event : ℕ) :
    s.Issues (s.request event) (s.register event) := by
  rw [register]
  rcases hget : s.getSqe with _ | ⟨i, t⟩
  · rcases hget' : s.submit.getSqe with _ | ⟨i, t⟩
    · exact handed_submit s
    · have hissues := registerWith_issues hget' event
      rw [handed_submit] at hissues
      exact hissues
  · exact registerWith_issues hget event

theorem deregisterWith_issues (h : s.getSqe = some (i, t)) (event : ℕ) :
    (t.deregisterWith i event).inFlight = s.handed ++ [cancelRequest event] ∧
      (t.deregisterWith i event).ring.used = 0 := by
  obtain ⟨r, hr, rfl⟩ := getSqe_cases h
  rw [deregisterWith, erase_eq, handed, List.append_assoc, ← Ring.pending_write hr]
  exact ⟨rfl, rfl⟩

/-- The first `io_uring_get_sqe` finds an entry, which is then handed over as it is. -/
theorem deregister_not_issues (hfree : s.ring.used < s.ring.slots.length) :
    ¬ s.Issues (cancelRequest event) (s.deregister event) := by
  obtain ⟨r, stale, hdiscard, -, -, hstale⟩ := discardSqe_of_free hfree
  have hhanded : s.discardSqe.handed = s.handed ++ [stale] := by
    rw [hdiscard, handed, handed, List.append_assoc, ← hstale]
  rw [deregister]
  rcases hget : s.discardSqe.getSqe with _ | ⟨i, t⟩
  · intro hissues
    have heq : s.discardSqe.handed = s.handed := hissues
    rw [hhanded] at heq
    simp at heq
  · intro hissues
    have heq := hissues.1
    rw [(deregisterWith_issues hget event).1, hhanded] at heq
    simp at heq

theorem deregister_issues (hfull : s.ring.used = s.ring.slots.length) :
    s.Issues (cancelRequest event) (s.deregister event) := by
  have hdiscard : s.discardSqe = s.submit := by
    rw [discardSqe, getSqe_eq_none_iff.mpr hfull]
  rw [deregister, hdiscard]
  rcases hget : s.submit.getSqe with _ | ⟨i, t⟩
  · exact handed_submit s
  · have hissues := deregisterWith_issues hget event
    rw [handed_submit] at hissues
    exact hissues

/-- `Register` issues the request of its event in any state of the ring. `deregister` issues the
request to cancel, and nothing else, exactly if no entry of the ring is free. -/
theorem calls_issue_request (s : UringRegistry) (event : ℕ) :
    s.Issues (s.request event) (s.register event) ∧
    (s.Issues (cancelRequest event) (s.deregister event) ↔ s.ring.used = s.ring.slots.length) := by
  refine ⟨register_issues s event, fun hissues => ?_, deregister_issues⟩
  by_contra hfree
  exact deregister_not_issues (lt_of_le_of_ne s.ring.fits hfree) hissues

/-- A ring of two entries after two calls of `Register`: the next entry still has the first
request. -/
theorem deregister_repeats_write :
    ∃ s, run step (init [⟨.nop, none⟩, ⟨.nop, none⟩]) [.setArgs 0 (.write 7 3 0) 5, .register 0,
        .setArgs 1 (.read 8 3 0) 6, .register 1] = some s ∧
      s.inFlight = [s.request 0, s.request 1] ∧ (s.deregister 1).1 = true ∧
      (s.deregister 1).2.inFlight = s.inFlight ++ [s.request 0, cancelRequest 1] ∧
      s.ring.used < s.ring.slots.length :=
  exists_run (by decide)

end Xyco.Io.UringRegistry
