import Mathlib.Data.List.Perm.Basic
import Xyco.Io.UringRegistry

/-!
# Proofs: the io_uring registry

As long as each event has one request at a time and none is cancelled, `Register` adds one request and
one entry of `registered_events_`, and `select` consumes one and erases one. A second `Register` of an
event adds a request only; `deregister` erases an entry whose request is still to be completed.
-/

namespace Xyco.Io.UringRegistry

open Machine Table

variable {s t : UringRegistry} {a : UringAction} {event i k : ℕ} {res : ℤ}

/-! ## The calls -/

theorem getSqe_cases (h : s.getSqe = some (i, t)) :
    ∃ r, s.ring.reserve = some (i, r) ∧ t = { s with ring := r } := by
  obtain ⟨⟨j, r⟩, hr, hp⟩ := Option.map_eq_some_iff.mp h
  obtain ⟨rfl, rfl⟩ := Prod.mk.inj hp
  exact ⟨r, hr, rfl⟩

theorem getSqe_eq_none_iff : s.getSqe = none ↔ s.ring.used = s.ring.slots.length := by
  rw [getSqe, Option.map_eq_none_iff, Ring.reserve_eq_none_iff]

theorem exists_getSqe (hfree : s.ring.used < s.ring.slots.length) :
    ∃ i r, s.getSqe = some (i, { s with ring := r }) ∧ s.ring.reserve = some (i, r) := by
  obtain ⟨⟨i, t⟩, hget⟩ : ∃ p, s.getSqe = some p := by
    rw [← Option.ne_none_iff_exists', ne_eq, getSqe_eq_none_iff]
    omega
  obtain ⟨r, hr, rfl⟩ := getSqe_cases hget
  exact ⟨i, r, hget, hr⟩

/-- Where an entry is free, `deregister` reserves one and does not write it. -/
theorem discardSqe_of_free (hfree : s.ring.used < s.ring.slots.length) :
    ∃ r stale, s.discardSqe = { s with ring := r } ∧ r.slots = s.ring.slots ∧
      r.used = s.ring.used + 1 ∧ r.pending = s.ring.pending ++ [stale] := by
  obtain ⟨i, r, hget, hr⟩ := exists_getSqe hfree
  obtain ⟨-, -, hslots, -, hused⟩ := Ring.reserve_cases hr
  obtain ⟨stale, -, hstale⟩ := Ring.pending_reserve hr
  refine ⟨r, stale, ?_, hslots, hused, hstale⟩
  rw [discardSqe, hget]

theorem enlist_eq (s : UringRegistry) (event : ℕ) :
    ∃ extra, s.enlist event = { s with
      extra := extra
      registeredEvents :=
        if (s.extra event).registered then s.registeredEvents
        else s.registeredEvents ++ [event] } := by
  unfold enlist
  split
  · exact ⟨s.extra, rfl⟩
  · exact ⟨_, rfl⟩

/-- The kernel gets what was reserved before, and the request of the event. -/
theorem registerWith_eq (h : s.getSqe = some (i, t)) (event : ℕ) :
    ∃ ring extra, ring.used = 0 ∧ ring.slots.length = s.ring.slots.length ∧
      t.registerWith i event = { s with
        ring := ring
        extra := extra
        inFlight := s.inFlight ++ (s.ring.pending ++ [s.request event])
        registeredEvents :=
          if (s.extra event).registered then s.registeredEvents
          else s.registeredEvents ++ [event] } := by
  obtain ⟨r, hr, rfl⟩ := getSqe_cases h
  obtain ⟨-, -, hslots, -, -⟩ := Ring.reserve_cases hr
  obtain ⟨extra, hextra⟩ := enlist_eq { s with ring := r } event
  refine ⟨(r.write i (s.request event)).handOver, extra, rfl, ?_, ?_⟩
  · exact (Ring.length_write r i _).trans (congrArg List.length hslots)
  · rw [registerWith, hextra, ← Ring.pending_write hr]
    rfl

theorem erase_eq (s : UringRegistry) (event : ℕ) :
    s.erase event = { s with
      registeredEvents := s.registeredEvents.erase event
      failedLookup := s.failedLookup || decide (event ∉ s.registeredEvents) } := by
  unfold erase
  by_cases hmem : event ∈ s.registeredEvents
  · rw [if_pos hmem, decide_eq_false (not_not.mpr hmem), Bool.or_false]
  · rw [if_neg hmem, decide_eq_true hmem, Bool.or_true, List.erase_of_not_mem hmem]

/-- The kernel gets what was reserved before, the entry that was not written, and the request to
cancel. -/
theorem deregister_eq (hsize : s.ring.used + 2 ≤ s.ring.slots.length) (event : ℕ) :
    ∃ ring extra stale, (s.deregister event).2 = { s with
      ring := ring
      extra := extra
      inFlight := s.inFlight ++ (s.ring.pending ++ [stale] ++ [cancelRequest event])
      registeredEvents := s.registeredEvents.erase event
      failedLookup := s.failedLookup || decide (event ∉ s.registeredEvents) } := by
  obtain ⟨r, stale, hdiscard, hslots, hused, hstale⟩ := discardSqe_of_free (s := s) (by omega)
  have hfree : r.used < r.slots.length := by
    rw [hslots]
    omega
  obtain ⟨i, r', hget, hr⟩ := exists_getSqe (s := { s with ring := r }) hfree
  have hpending : (r'.write i (cancelRequest event)).pending =
      s.ring.pending ++ [stale] ++ [cancelRequest event] := by
    rw [Ring.pending_write hr, hstale]
  refine ⟨(r'.write i (cancelRequest event)).handOver,
    Function.update s.extra event { s.extra event with registered := false }, stale, ?_⟩
  rw [deregister, hdiscard, hget, ← hpending]
  show deregisterWith _ i event = _
  rw [deregisterWith, erase_eq]
  rfl

/-! ## The account -/

/-- The requests of an event, those with the kernel and those among the completions `cqes`. -/
def Balanced (s : UringRegistry) (cqes : List Cqe) : Prop :=
  s.failedLookup = false ∧ ∀ event, (s.inFlight.map Sqe.userData).count (some event) +
    (cqes.map Cqe.userData).count (some event) = s.registeredEvents.count event

/-- `select` consumes a completion and erases an entry. -/
theorem handle_balanced {cqe : Cqe} {cqes : List Cqe} (hs : Balanced s (cqe :: cqes)) :
    Balanced (s.handle cqe) cqes := by
  obtain ⟨hfailed, hcount⟩ := hs
  unfold handle
  split
  · rename_i hnone
    refine ⟨hfailed, fun event => ?_⟩
    rw [← hcount event, List.map_cons, hnone, List.count_cons_of_ne (by exact nofun)]
  · rename_i event hdata
    have hmem : event ∈ s.registeredEvents := by
      have := hcount event
      rw [List.map_cons, hdata, List.count_cons_self] at this
      exact List.count_pos_iff.mp (by omega)
    rw [if_pos hmem]
    refine ⟨hfailed, fun e => ?_⟩
    have he := hcount e
    have herase : (s.registeredEvents.erase event).count e =
        s.registeredEvents.count e - if event = e then 1 else 0 := by
      rw [List.count_erase]
      simp only [beq_iff_eq]
    rw [List.map_cons, hdata, List.count_cons] at he
    simp only [beq_iff_eq, Option.some.injEq] at he
    show _ + _ = (s.registeredEvents.erase event).count e
    rw [herase]
    show (s.inFlight.map Sqe.userData).count (some e) + _ = _
    omega

/-- All completions are consumed, one after the other. -/
theorem foldl_balanced (cqes : List Cqe) (hs : Balanced s cqes) :
    Balanced (cqes.foldl handle s) [] := by
  induction cqes generalizing s with
  | nil => exact hs
  | cons cqe cqes ih => exact ih (handle_balanced hs)

theorem handle_frame (s : UringRegistry) (cqe : Cqe) :
    (s.handle cqe).ring = s.ring ∧ (s.handle cqe).completions = s.completions := by
  unfold handle
  split
  · exact ⟨rfl, rfl⟩
  · split <;> exact ⟨rfl, rfl⟩

theorem foldl_frame (cqes : List Cqe) (s : UringRegistry) :
    (cqes.foldl handle s).ring = s.ring ∧ (cqes.foldl handle s).completions = s.completions := by
  induction cqes generalizing s with
  | nil => exact ⟨rfl, rfl⟩
  | cons cqe cqes ih =>
    obtain ⟨hring, hcompletions⟩ := ih (s.handle cqe)
    obtain ⟨hring', hcompletions'⟩ := handle_frame s cqe
    exact ⟨hring.trans hring', hcompletions.trans hcompletions'⟩

theorem matched_iff : s.Matched ↔ Balanced s s.completions := Iff.rfl

/-- Between two calls no entry of the ring is reserved. -/
structure Idle (slots : ℕ) (s : UringRegistry) : Prop where
  matched : s.Matched
  unused : s.ring.used = 0
  size : s.ring.slots.length = slots

variable {slots : ℕ}

theorem Idle.select (hs : Idle slots s) : Idle slots s.select := by
  obtain ⟨hring, hcompletions⟩ := foldl_frame s.completions { s with completions := [] }
  refine ⟨?_, ?_, ?_⟩
  · rw [matched_iff, UringRegistry.select, hcompletions]
    exact foldl_balanced _ (s := { s with completions := [] }) hs.matched
  · rw [UringRegistry.select, hring]
    exact hs.unused
  · rw [UringRegistry.select, hring]
    exact hs.size

theorem Idle.complete (hs : Idle slots s) (hstep : s.complete k res = some t) : Idle slots t := by
  unfold UringRegistry.complete at hstep
  split at hstep
  · cases hstep
  · rename_i sqe hk
    obtain rfl := Option.some.inj hstep
    obtain ⟨hlt, rfl⟩ := List.getElem?_eq_some_iff.mp hk
    refine ⟨⟨hs.matched.1, fun event => ?_⟩, hs.unused, hs.size⟩
    have hperm := ((List.getElem_cons_eraseIdx_perm hlt).map Sqe.userData).count_eq (some event)
    have hevent := hs.matched.2 event
    rw [List.map_cons, List.count_cons] at hperm
    show ((s.inFlight.eraseIdx k).map Sqe.userData).count (some event) +
      ((s.completions ++ [_]).map Cqe.userData).count (some event) = s.registeredEvents.count event
    rw [List.map_append, List.count_append, List.map_singleton, List.count_singleton]
    unfold outstanding at hevent
    dsimp only
    omega

/-- Without a reserved entry, `Register` issues its own request and nothing else. -/
theorem register_cases (hunused : s.ring.used = 0) (event : ℕ) :
    s.ring.slots.length = 0 ∧ (s.register event).2 = s.submit ∨
    ∃ ring extra, ring.used = 0 ∧ ring.slots.length = s.ring.slots.length ∧
      (s.register event).2 = { s with
        ring := ring
        extra := extra
        inFlight := s.inFlight ++ [s.request event]
        registeredEvents :=
          if (s.extra event).registered then s.registeredEvents
          else s.registeredEvents ++ [event] } := by
  unfold register
  cases hget : s.getSqe with
  | some p =>
    obtain ⟨i, t⟩ := p
    obtain ⟨ring, extra, hring, hsize, heq⟩ := registerWith_eq hget event
    rw [Ring.pending_of_unused hunused, List.nil_append] at heq
    exact Or.inr ⟨ring, extra, hring, hsize, heq⟩
  | none =>
    have hempty : s.ring.slots.length = 0 := (getSqe_eq_none_iff.mp hget).symm.trans hunused
    have hget' : s.submit.getSqe = none := getSqe_eq_none_iff.mpr hempty.symm
    refine Or.inl ⟨hempty, ?_⟩
    simp only [hget']

theorem outstanding_request (hin : t.inFlight = s.inFlight ++ [s.request event])
    (hcompletions : t.completions = s.completions) (e : ℕ) :
    t.outstanding e = s.outstanding e + if event = e then 1 else 0 := by
  simp only [outstanding, hin, hcompletions, List.map_append, List.count_append, List.map_singleton,
    List.count_singleton, request, beq_iff_eq, Option.some.injEq]
  omega

theorem Idle.register (hs : Idle slots s) (halone : (s.extra event).registered = false) :
    Idle slots (s.register event).2 := by
  rcases register_cases hs.unused event with ⟨hempty, heq⟩ | ⟨ring, extra, hunused, hsize, heq⟩
  · rw [heq]
    refine ⟨⟨hs.matched.1, fun e => ?_⟩, rfl, hs.size⟩
    show ((s.inFlight ++ s.ring.pending).map Sqe.userData).count (some e) + _ = _
    rw [Ring.pending_of_unused hs.unused, List.append_nil]
    exact hs.matched.2 e
  · rw [heq]
    refine ⟨⟨hs.matched.1, fun e => ?_⟩, hunused, hsize.trans hs.size⟩
    refine (outstanding_request (s := s) (by rfl) (by rfl) e).trans ?_
    rw [hs.matched.2 e, halone]
    exact (count_concat s.registeredEvents e event).symm

/-- A second request of an event is not in `registered_events_`. -/
theorem register_unmatched (hs : Idle slots s) (hslots : 0 < slots)
    (hregistered : (s.extra event).registered = true) : ¬ (s.register event).2.Matched := by
  rcases register_cases hs.unused event with ⟨hempty, -⟩ | ⟨ring, extra, -, -, heq⟩
  · have := hs.size
    omega
  · rw [heq]
    intro hmatched
    have hold := hs.matched.2 event
    have hnew := (outstanding_request (s := s) (by rfl) (by rfl) event).symm.trans (hmatched.2 event)
    simp only [hregistered, if_true] at hnew
    omega

/-- `deregister` erases the entry of a request that is not completed, or looks for one that is not
there. -/
theorem deregister_unmatched (hs : Idle slots s) (hslots : 2 ≤ slots) :
    ¬ (s.deregister event).2.Matched := by
  have hsize : s.ring.used + 2 ≤ s.ring.slots.length := by
    rw [hs.unused, hs.size]
    omega
  obtain ⟨ring, extra, stale, heq⟩ := deregister_eq hsize event
  rw [heq]
  rintro ⟨hfailed, hcount⟩
  have hmem : event ∈ s.registeredEvents := by
    by_contra hmem
    rw [decide_eq_true hmem, Bool.or_true] at hfailed
    cases hfailed
  have hnew := hcount event
  have hold := hs.matched.2 event
  have hpos := List.count_pos_iff.mpr hmem
  rw [List.count_erase_self] at hnew
  simp only [outstanding, List.map_append, List.count_append] at hnew hold
  omega

theorem idle_init (slots : List Sqe) : Idle slots.length (init slots) :=
  ⟨⟨rfl, fun _ => rfl⟩, rfl, rfl⟩

theorem step_idle (hs : Idle slots s) (halone : s.Alone a) (hstep : s.step a = some t) :
    Idle slots t := by
  cases a with
  | register event =>
    obtain rfl := Option.some.inj hstep
    exact hs.register halone
  | deregister event => exact halone.elim
  | select =>
    obtain rfl := Option.some.inj hstep
    exact hs.select
  | complete k res => exact hs.complete hstep
  | setArgs event args fd =>
    obtain rfl := Option.some.inj hstep
    exact ⟨hs.matched, hs.unused, hs.size⟩
  | take event =>
    obtain rfl := Option.some.inj hstep
    exact ⟨hs.matched, hs.unused, hs.size⟩

theorem step_unmatched (hs : Idle slots s) (hslots : 2 ≤ slots) (halone : ¬ s.Alone a)
    (hstep : s.step a = some t) : ¬ t.Matched := by
  cases a with
  | register event =>
    obtain rfl := Option.some.inj hstep
    exact register_unmatched hs (by omega) (Bool.not_eq_false _ ▸ halone)
  | deregister event =>
    obtain rfl := Option.some.inj hstep
    exact deregister_unmatched hs hslots
  | select => exact absurd trivial halone
  | complete k res => exact absurd trivial halone
  | setArgs event args fd => exact absurd trivial halone
  | take event => exact absurd trivial halone

/-- For every run from a ring with any contents: if an event is registered only without a request in
flight and `deregister` is not called, `registered_events_` has each event as often as it has
requests, at every point. For a ring of two entries or more this is exactly the condition: a second
`Register`, and every `deregister`, breaks the account at once. -/
theorem registered_matches_requests (ring : List Sqe) (as : List UringAction) :
    (Along step Alone (init ring) as → Always step Matched (init ring) as) ∧
    (2 ≤ ring.length → Always step Matched (init ring) as → Along step Alone (init ring) as) := by
  have hinit := idle_init ring
  constructor
  · exact always_of_along (fun _ hs => hs.matched) (fun _ _ _ => step_idle) hinit
  · intro hslots
    exact along_of_always (fun _ _ _ => step_idle) (fun _ _ _ hs => step_unmatched hs hslots) hinit

/-- Two events, completed in the other order; the first is registered again. -/
theorem registered_matches_requests_two_events :
    ∃ as s, run step (init [⟨.nop, none⟩, ⟨.nop, none⟩]) as = some s ∧
      Along step Alone (init [⟨.nop, none⟩, ⟨.nop, none⟩]) as ∧ s.selected = [1, 0] ∧
      s.registeredEvents = [0] ∧ Always step Matched (init [⟨.nop, none⟩, ⟨.nop, none⟩]) as := by
  have hrun : ∃ as s, run step (init [⟨.nop, none⟩, ⟨.nop, none⟩]) as = some s ∧
      Along step Alone (init [⟨.nop, none⟩, ⟨.nop, none⟩]) as ∧ s.selected = [1, 0] ∧
      s.registeredEvents = [0] := by
    refine ⟨[.register 0, .register 1, .complete 1 5, .complete 0 7, .select, .take 0, .register 0],
      ?_⟩
    exact exists_run (by decide)
  obtain ⟨as, s, hrun, halone, hselected, hregistered⟩ := hrun
  exact ⟨as, s, hrun, halone, hselected, hregistered, (registered_matches_requests _ as).1 halone⟩

/-- An event is registered twice while its first request is in flight: two requests and one entry, and
`select` looks in vain for the second. An event is deregistered while its request is in flight: the
completion of the request is still to come, and the kernel is also given the unused entry of the
ring. -/
theorem requests_without_entry :
    (∃ s, run step (init [⟨.nop, none⟩, ⟨.nop, none⟩]) [.register 0, .register 0] = some s ∧
      s.outstanding 0 = 2 ∧ s.registeredEvents = [0]) ∧
    (∃ s, run step (init [⟨.nop, none⟩, ⟨.nop, none⟩])
      [.register 0, .register 0, .complete 0 5, .complete 0 7, .select] = some s ∧
      s.failedLookup = true) ∧
    ∃ s, run step (init [⟨.nop, none⟩, ⟨.nop, none⟩]) [.register 0, .deregister 0] = some s ∧
      s.outstanding 0 = 1 ∧ s.registeredEvents = [] ∧ s.inFlight.length = 3 :=
  ⟨exists_run (by decide), exists_run (by decide), exists_run (by decide)⟩

end Xyco.Io.UringRegistry
