import Mathlib.Algebra.BigOperators.Group.List.Basic
import Mathlib.Data.List.Nodup
import Xyco.Io.EpollRegistry

/-!
# Proofs: the epoll registry

For each event four numbers are kept in balance: how often it is in `registered_events_`, whether it
is armed, how many calls count on it being there, and how many calls are about to remove it. A step
changes these numbers for one event, except `epoll_wait`, after which `select` counts on all the
events that were armed before.
-/

namespace Xyco.Io.EpollRegistry

open Machine Table

variable {fd : ℕ → ℕ} {s s' : EpollRegistry} {k event e : ℕ} {p q : CallPoint} {a : EpollAction}

/-! ## The numbers -/

def armedCount (fd : ℕ → ℕ) (s : EpollRegistry) (event : ℕ) : ℕ := if s.Armed fd event then 1 else 0

theorem armedCount_le_one : s.armedCount fd e ≤ 1 := by
  unfold armedCount
  split
  · exact Nat.le_refl 1
  · exact Nat.zero_le 1

theorem armedCount_mono (h : s'.Armed fd e → s.Armed fd e) :
    s'.armedCount fd e ≤ s.armedCount fd e := by
  unfold armedCount
  by_cases hs' : s'.Armed fd e
  · rw [if_pos hs', if_pos (h hs')]
  · rw [if_neg hs']
    exact Nat.zero_le _

theorem armedCount_of_epoll (h : s'.epoll = s.epoll) : s'.armedCount fd e ≤ s.armedCount fd e :=
  armedCount_mono fun harmed => (congrFun h (fd e)).symm.trans harmed

/-- A thread goes on to another point of its call. -/
theorem counts_set (hk : s.threads[k]? = some p) (hthreads : s'.threads = s.threads.set k q)
    (e : ℕ) : s'.held e + p.holds e = s.held e + q.holds e ∧
      s'.removing e + p.removes e = s.removing e + q.removes e := by
  unfold held removing
  rw [hthreads]
  exact ⟨sum_map_set hk _ q, sum_map_set hk _ q⟩

structure Balanced (fd : ℕ → ℕ) (s : EpollRegistry) (e : ℕ) : Prop where
  once : s.registeredEvents.count e ≤ 1
  covered : s.armedCount fd e + s.held e ≤ s.registeredEvents.count e
  removed : 0 < s.removing e → s.armedCount fd e + s.held e = 0
  gone : s.deregistered e = true → s.registeredEvents.count e = s.held e

/-- An event whose numbers a step does not change. -/
theorem Balanced.same (h : Balanced fd s e)
    (hcount : s'.registeredEvents.count e = s.registeredEvents.count e)
    (harmed : s'.armedCount fd e ≤ s.armedCount fd e) (hheld : s'.held e = s.held e)
    (hremoving : s'.removing e = s.removing e)
    (hgone : s'.deregistered e = true → s.deregistered e = true) : Balanced fd s' e := by
  obtain ⟨honce, hcovered, hremoved, hgone'⟩ := h
  refine ⟨by omega, by omega, fun hpos => ?_, fun hd => ?_⟩
  · have := hremoved (by omega)
    omega
  · have := hgone' (hgone hd)
    omega

theorem count_erase_eq (l : List ℕ) (event e : ℕ) :
    (l.erase event).count e = l.count e - if event = e then 1 else 0 := by
  rw [List.count_erase]
  simp only [beq_iff_eq]

/-! ## The steps -/

/-- `Register` or `reregister` pushes an event. -/
theorem push_balanced (h : ∀ e, Balanced fd s e) (hk : s.threads[k]? = some .idle)
    (hnew : event ∉ s.registeredEvents) (hremoving : s.removing event = 0)
    (hq : ∀ e, q.holds e = if event = e then 1 else 0) (hq' : ∀ e, q.removes e = 0)
    (hevents : s'.registeredEvents = s.registeredEvents ++ [event]) (hepoll : s'.epoll = s.epoll)
    (hthreads : s'.threads = s.threads.set k q) (hgone : s'.deregistered = s.deregistered) (e : ℕ) :
    Balanced fd s' e := by
  obtain ⟨hheld, hremove⟩ := counts_set hk hthreads e
  have hcount := count_concat s.registeredEvents e event
  have harmed : s'.armedCount fd e ≤ s.armedCount fd e := armedCount_of_epoll hepoll
  rw [← hevents] at hcount
  rw [hq] at hheld
  rw [hq'] at hremove
  simp only [CallPoint.holds, CallPoint.removes] at hheld hremove
  by_cases he : event = e
  · subst he
    obtain ⟨honce, hcovered, hremoved, hgone'⟩ := h event
    have hzero := List.count_eq_zero.mpr hnew
    simp only [if_true] at hheld hcount
    refine ⟨by omega, by omega, by omega, fun hd => ?_⟩
    have := hgone' (hgone ▸ hd)
    omega
  · simp only [if_neg he] at hheld hcount
    exact (h e).same hcount harmed (by omega) (by omega) (fun hd => hgone ▸ hd)

theorem register_balanced (h : ∀ e, Balanced fd s e) (hG : s.Disciplined (.register k event))
    (hstep : s.register k event = some s') (e : ℕ) : Balanced fd s' e := by
  obtain ⟨hk, rfl⟩ := eq_of_guard hstep
  exact push_balanced h hk hG.1 hG.2 (q := .adding event) (fun _ => by rfl) (fun _ => by rfl)
    (by rfl) (by rfl) (by rfl) (by rfl) e

theorem reregister_balanced (h : ∀ e, Balanced fd s e) (hG : s.Disciplined (.reregister k event))
    (hstep : s.reregister k event = some s') (e : ℕ) : Balanced fd s' e := by
  obtain ⟨hk, rfl⟩ := eq_of_guard hstep
  exact push_balanced h hk hG.1 hG.2 (q := .modifying event) (fun _ => by rfl) (fun _ => by rfl)
    (by rfl) (by rfl) (by rfl) (by rfl) e

/-- An event that a call counts on is in `registered_events_` once, and not armed. -/
theorem Balanced.of_holds (h : Balanced fd s e) (hk : s.threads[k]? = some p)
    (hp : 0 < p.holds e) :
    s.registeredEvents.count e = 1 ∧ s.armedCount fd e = 0 ∧ s.held e = 1 ∧ s.removing e = 0 := by
  have hset : (s.goTo k .idle).threads = s.threads.set k .idle := rfl
  have hheld := (counts_set hk hset e).1
  have hidle : CallPoint.idle.holds e = 0 := rfl
  obtain ⟨honce, hcovered, hremoved, -⟩ := h
  have : ¬ 0 < s.removing e := fun hpos => by
    have := hremoved hpos
    omega
  omega

theorem watch_balanced (h : ∀ e, Balanced fd s e) (hk : s.threads[k]? = some p)
    (hp : ∀ e, p.holds e = if event = e then 1 else 0) (hp' : ∀ e, p.removes e = 0) (e : ℕ) :
    Balanced fd (s.watch fd k event) e := by
  have hset : (s.watch fd k event).threads = s.threads.set k .idle := rfl
  obtain ⟨hheld, hremove⟩ := counts_set hk hset e
  rw [hp] at hheld
  rw [hp'] at hremove
  simp only [CallPoint.holds, CallPoint.removes] at hheld hremove
  by_cases he : event = e
  · subst he
    obtain ⟨hcount, -, hone, hzero⟩ := (h event).of_holds hk (by rw [hp, if_pos rfl]; exact Nat.one_pos)
    have hcount' : (s.watch fd k event).registeredEvents.count event = 1 := hcount
    have harmed : (s.watch fd k event).armedCount fd event ≤ 1 := armedCount_le_one
    rw [if_pos rfl] at hheld
    refine ⟨by omega, by omega, by omega, fun hd => ?_⟩
    have hfalse : (s.watch fd k event).deregistered event = false := Function.update_self ..
    rw [hfalse] at hd
    cases hd
  · rw [if_neg he] at hheld
    have hgone : (s.watch fd k event).deregistered e = s.deregistered e :=
      Function.update_of_ne (Ne.symm he) _ _
    refine (h e).same rfl (armedCount_mono fun harmed => ?_) hheld hremove (fun hd => hgone ▸ hd)
    have hentry : Function.update s.epoll (fd event) (some ⟨event, true⟩) (fd e) = some ⟨e, true⟩ :=
      harmed
    by_cases hfd : fd e = fd event
    · rw [hfd, Function.update_self] at hentry
      cases hentry
      exact absurd rfl he
    · rw [Function.update_of_ne hfd] at hentry
      exact hentry

theorem ctl_cases {ok : Bool} (h : s.ctl fd k ok = some s') :
    ∃ p event, s.threads[k]? = some p ∧ (∀ e, p.holds e = if event = e then 1 else 0) ∧
      (∀ e, p.removes e = 0) ∧ (s' = s.watch fd k event ∨ s' = s.goTo k (.undoing event)) := by
  unfold ctl at h
  split at h
  · rename_i event hk
    exact ⟨_, event, hk, fun _ => rfl, fun _ => rfl, (eq_of_branch h).imp And.right And.right⟩
  · rename_i event hk
    exact ⟨_, event, hk, fun _ => rfl, fun _ => rfl, (eq_of_branch h).imp And.right And.right⟩
  · cases h

theorem ctl_balanced {ok : Bool} (h : ∀ e, Balanced fd s e) (hstep : s.ctl fd k ok = some s')
    (e : ℕ) : Balanced fd s' e := by
  obtain ⟨p, event, hk, hp, hp', rfl | rfl⟩ := ctl_cases hstep
  · exact watch_balanced h hk hp hp' e
  · have hset : (s.goTo k (.undoing event)).threads = s.threads.set k (.undoing event) := rfl
    obtain ⟨hheld, hremove⟩ := counts_set hk hset e
    rw [hp] at hheld
    rw [hp'] at hremove
    simp only [CallPoint.holds, CallPoint.removes] at hheld hremove
    exact (h e).same rfl (armedCount_of_epoll rfl) (by omega) (by omega) id

/-- An event that a call counts on is taken out of `registered_events_`, and the call is done with
it. -/
theorem pop_balanced (h : ∀ e, Balanced fd s e) (hk : s.threads[k]? = some p)
    (hp : ∀ e, p.holds e = q.holds e + if event = e then 1 else 0)
    (hp' : ∀ e, p.removes e = q.removes e)
    (hevents : s'.registeredEvents = s.registeredEvents.erase event) (hepoll : s'.epoll = s.epoll)
    (hthreads : s'.threads = s.threads.set k q)
    (hgone : ∀ e, s'.deregistered e = true → s.deregistered e = true) (e : ℕ) :
    Balanced fd s' e := by
  obtain ⟨hheld, hremove⟩ := counts_set hk hthreads e
  have hcount := count_erase_eq s.registeredEvents event e
  have harmed : s'.armedCount fd e ≤ s.armedCount fd e := armedCount_of_epoll hepoll
  rw [← hevents] at hcount
  have hpe := hp e
  have hpe' := hp' e
  by_cases he : event = e
  · subst he
    rw [if_pos rfl] at hcount hpe
    obtain ⟨hone, hzero, hheld', hremove'⟩ := (h event).of_holds hk (by omega)
    exact ⟨by omega, by omega, by omega, fun _ => by omega⟩
  · rw [if_neg he] at hcount hpe
    exact (h e).same hcount harmed (by omega) (by omega) (hgone e)

theorem mem_of_holds (h : Balanced fd s event) (hk : s.threads[k]? = some p)
    (hp : 0 < p.holds event) : event ∈ s.registeredEvents := by
  obtain ⟨hone, -⟩ := h.of_holds hk hp
  exact List.count_pos_iff.mp (by omega)

theorem undo_balanced (h : ∀ e, Balanced fd s e) (hstep : s.undo k = some s') :
    (∀ e, Balanced fd s' e) ∧ s'.failedLookup = s.failedLookup := by
  unfold undo at hstep
  split at hstep
  · rename_i event hk
    obtain rfl := Option.some.inj hstep
    have hholds : ∀ e, (CallPoint.undoing event).holds e =
        CallPoint.idle.holds e + if event = e then 1 else 0 := fun e => (Nat.zero_add _).symm
    refine ⟨pop_balanced h hk hholds (fun _ => by rfl) (by rfl) (by rfl) (by rfl)
      fun e hd => ?_, ?_⟩
    · have hd' : Function.update s.deregistered event false e = true := hd
      by_cases he : e = event
      · rw [he, Function.update_self] at hd'
        cases hd'
      · rwa [Function.update_of_ne he] at hd'
    · have hmem := mem_of_holds (h event) hk (by simp [CallPoint.holds])
      show (s.failedLookup || !s.registeredEvents.contains event) = s.failedLookup
      simp [hmem]
  · cases hstep

theorem handle_balanced (h : ∀ e, Balanced fd s e) (hstep : s.handle k = some s') :
    (∀ e, Balanced fd s' e) ∧ s'.failedLookup = s.failedLookup := by
  unfold handle at hstep
  split at hstep
  · rename_i hk
    obtain rfl := Option.some.inj hstep
    refine ⟨fun e => ?_, rfl⟩
    have hset : (s.goTo k .idle).threads = s.threads.set k .idle := rfl
    obtain ⟨hheld, hremove⟩ := counts_set hk hset e
    simp only [CallPoint.holds, CallPoint.removes, List.map_nil, List.count_nil] at hheld hremove
    exact (h e).same rfl (armedCount_of_epoll rfl) (by omega) (by omega) id
  · rename_i r rest hk
    have hholds : ∀ e, (CallPoint.handling (r :: rest)).holds e =
        (CallPoint.handling rest).holds e + if r.event = e then 1 else 0 := by
      intro e
      simp only [CallPoint.holds, List.map_cons, List.count_cons, beq_iff_eq]
    have hmem := mem_of_holds (h r.event) hk (by rw [hholds, if_pos rfl]; omega)
    rw [if_pos (List.contains_iff_mem.mpr hmem)] at hstep
    obtain rfl := Option.some.inj hstep
    exact ⟨pop_balanced h hk hholds (fun _ => by rfl) (by rfl) (by rfl) (by rfl) (fun _ => id), rfl⟩
  · cases hstep

theorem deregister_balanced (h : ∀ e, Balanced fd s e) (hG : s.Disciplined (.deregister k event))
    (hstep : s.deregister fd k event = some s') (e : ℕ) : Balanced fd s' e := by
  obtain ⟨hk, hs'⟩ := eq_of_guard hstep
  have hthreads : s'.threads = s.threads.set k (.removing event) := by rw [hs']; rfl
  have hevents : s'.registeredEvents = s.registeredEvents := by rw [hs']; rfl
  have hgone : s'.deregistered = s.deregistered := by rw [hs']; rfl
  have hentry : ∀ e, s'.Armed fd e → fd e ≠ fd event ∧ s.Armed fd e := by
    intro e harmed
    have hentry : Function.update s.epoll (fd event) none (fd e) = some ⟨e, true⟩ := by
      rw [hs'] at harmed
      exact harmed
    by_cases hfd : fd e = fd event
    · rw [hfd, Function.update_self] at hentry
      cases hentry
    · rw [Function.update_of_ne hfd] at hentry
      exact ⟨hfd, hentry⟩
  obtain ⟨hheld, hremove⟩ := counts_set hk hthreads e
  simp only [CallPoint.holds, CallPoint.removes] at hheld hremove
  by_cases he : event = e
  · subst he
    have harmed : s'.armedCount fd event = 0 := if_neg fun harmed => (hentry event harmed).1 rfl
    obtain ⟨honce, hcovered, -, hgone'⟩ := h event
    have hzero : s.held event = 0 := hG
    rw [← hevents] at honce hcovered hgone'
    refine ⟨honce, by omega, fun _ => by omega, fun hd => ?_⟩
    have := hgone' (hgone ▸ hd)
    omega
  · rw [if_neg he] at hremove
    exact (h e).same (by rw [hevents]) (armedCount_mono fun harmed => (hentry e harmed).2)
      (by omega) (by omega) (fun hd => hgone ▸ hd)

theorem remove_balanced (h : ∀ e, Balanced fd s e) (hstep : s.remove k = some s') (e : ℕ) :
    Balanced fd s' e := by
  unfold remove at hstep
  split at hstep
  · rename_i event hk
    have hs' := (Option.some.inj hstep).symm
    have hthreads : s'.threads = s.threads.set k .idle := by rw [hs']; rfl
    have hepoll : s'.epoll = s.epoll := by rw [hs']; rfl
    have hgone : s'.deregistered = Function.update s.deregistered event true := by rw [hs']; rfl
    have hevents : s'.registeredEvents = s.registeredEvents.erase event := by rw [hs']; rfl
    have hcount := count_erase_eq s.registeredEvents event e
    rw [← hevents] at hcount
    have harmed : s'.armedCount fd e ≤ s.armedCount fd e := armedCount_of_epoll hepoll
    obtain ⟨hheld, hremove⟩ := counts_set hk hthreads e
    simp only [CallPoint.holds, CallPoint.removes] at hheld hremove
    by_cases he : event = e
    · subst he
      obtain ⟨honce, hcovered, hremoved, -⟩ := h event
      rw [if_pos rfl] at hcount hremove
      have hzero := hremoved (by omega)
      exact ⟨by omega, by omega, fun _ => by omega, fun _ => by omega⟩
    · rw [if_neg he] at hcount hremove
      refine (h e).same hcount harmed (by omega) (by omega) fun hd => ?_
      rwa [hgone, Function.update_of_ne (Ne.symm he)] at hd
  · cases hstep

/-- What `epoll_wait` reports was armed, and no longer is. -/
theorem wait_armedCount {ready : List ReadyEvent} (hnodup : (ready.map ReadyEvent.event).Nodup)
    (harmed : ∀ r ∈ ready, s.Armed fd r.event)
    (hepoll : ∀ d, s'.epoll d =
      if ready.any (fun r => fd r.event == d) then (s.epoll d).map Watch.disarm else s.epoll d)
    (e : ℕ) :
    s'.armedCount fd e + (ready.map ReadyEvent.event).count e ≤ s.armedCount fd e := by
  -- no entry of a descriptor that was reported is armed
  have hdisarmed : ∀ r ∈ ready, fd r.event = fd e → ¬ s'.Armed fd e := by
    intro r hr hfd harmed'
    have hany : ready.any (fun r => fd r.event == fd e) = true :=
      List.any_eq_true.mpr ⟨r, hr, beq_iff_eq.mpr hfd⟩
    have hentry : s.epoll (fd e) = some ⟨r.event, true⟩ := hfd ▸ harmed r hr
    rw [Armed, hepoll, if_pos hany, hentry] at harmed'
    cases harmed'
  by_cases hmem : e ∈ ready.map ReadyEvent.event
  · obtain ⟨r, hr, rfl⟩ := List.mem_map.mp hmem
    have hone := List.nodup_iff_count_le_one.mp hnodup r.event
    rw [armedCount, armedCount, if_neg (hdisarmed r hr rfl), if_pos (harmed r hr)]
    omega
  · rw [List.count_eq_zero.mpr hmem]
    apply armedCount_mono
    intro harmed'
    by_cases hany : ready.any (fun r => fd r.event == fd e) = true
    · obtain ⟨r, hr, hfd⟩ := List.any_eq_true.mp hany
      exact absurd harmed' (hdisarmed r hr (beq_iff_eq.mp hfd))
    · rw [Armed, hepoll, if_neg hany] at harmed'
      exact harmed'

theorem wait_balanced {ready : List ReadyEvent} (h : ∀ e, Balanced fd s e)
    (hstep : s.wait fd k ready = some s') (e : ℕ) : Balanced fd s' e := by
  obtain ⟨⟨hk, -, -, hnodup, harmed⟩, hs'⟩ := eq_of_guard hstep
  have hthreads : s'.threads = s.threads.set k (.handling ready) := by rw [hs']; rfl
  have hevents : s'.registeredEvents = s.registeredEvents := by rw [hs']; rfl
  have hgone : s'.deregistered = s.deregistered := by rw [hs']; rfl
  obtain ⟨hheld, hremove⟩ := counts_set hk hthreads e
  simp only [CallPoint.holds, CallPoint.removes] at hheld hremove
  have hepoll : ∀ d, s'.epoll d = if ready.any (fun r => fd r.event == d) then
      (s.epoll d).map Watch.disarm else s.epoll d := fun d => by rw [hs']; rfl
  have hmoved := wait_armedCount hnodup harmed hepoll e
  obtain ⟨honce, hcovered, hremoved, hgone'⟩ := h e
  rw [← hevents] at honce hcovered hgone'
  refine ⟨honce, by omega, fun hpos => ?_, fun hd => ?_⟩
  · have := hremoved (by omega)
    omega
  · have := hgone' (hgone ▸ hd)
    omega

/-! ## Runs -/

theorem step_balanced (hG : s.Disciplined a) (h : ∀ e, Balanced fd s e)
    (hstep : s.step fd a = some s') :
    (∀ e, Balanced fd s' e) ∧ s'.failedLookup = s.failedLookup := by
  cases a with
  | register k event =>
    refine ⟨register_balanced h hG hstep, ?_⟩
    obtain ⟨-, rfl⟩ := eq_of_guard hstep
    rfl
  | reregister k event =>
    refine ⟨reregister_balanced h hG hstep, ?_⟩
    obtain ⟨-, rfl⟩ := eq_of_guard hstep
    rfl
  | deregister k event =>
    refine ⟨deregister_balanced h hG hstep, ?_⟩
    obtain ⟨-, rfl⟩ := eq_of_guard hstep
    rfl
  | ctl k ok =>
    refine ⟨ctl_balanced h hstep, ?_⟩
    obtain ⟨p, event, -, -, -, rfl | rfl⟩ := ctl_cases hstep
    · rfl
    · rfl
  | undo k => exact undo_balanced h hstep
  | remove k =>
    refine ⟨remove_balanced h hstep, ?_⟩
    have hstep : s.remove k = some s' := hstep
    unfold remove at hstep
    split at hstep
    · obtain rfl := Option.some.inj hstep
      rfl
    · cases hstep
  | wait k ready =>
    refine ⟨wait_balanced h hstep, ?_⟩
    obtain ⟨-, rfl⟩ := eq_of_guard hstep
    rfl
  | handle k => exact handle_balanced h hstep

theorem held_of_idle (h : ∀ p ∈ s.threads, p = .idle) (e : ℕ) : s.held e = 0 := by
  apply List.sum_eq_zero
  intro x hx
  obtain ⟨p, hp, rfl⟩ := List.mem_map.mp hx
  rw [h p hp]
  rfl

theorem init_balanced (n e : ℕ) : Balanced fd (init n) e := by
  have hidle : ∀ p ∈ (init n).threads, p = .idle := fun p hp => (List.mem_replicate.mp hp).2
  have hheld := held_of_idle hidle e
  have hremoving : (init n).removing e = 0 := by
    apply List.sum_eq_zero
    intro x hx
    obtain ⟨p, hp, rfl⟩ := List.mem_map.mp hx
    rw [hidle p hp]
    rfl
  have harmed : (init n).armedCount fd e = 0 := if_neg fun harmed => by cases harmed
  have hcount : (init n).registeredEvents.count e = 0 := rfl
  exact ⟨by omega, by omega, fun _ => by omega, fun _ => by omega⟩

/-- No lookup fails, and whenever no call is in progress `registered_events_` has every event once at
most, every event that is armed, and no event that was deregistered by the last call on it. -/
theorem registry_matches_epoll {n : ℕ} {as : List EpollAction}
    (hG : Along (step fd) Disciplined (init n) as) (hrun : run (step fd) (init n) as = some s) :
    s.failedLookup = false ∧ ((∀ p ∈ s.threads, p = .idle) →
      s.registeredEvents.Nodup ∧ (∀ e, s.Armed fd e → e ∈ s.registeredEvents) ∧
      ∀ e, s.deregistered e = true → e ∉ s.registeredEvents) := by
  obtain ⟨hbalanced, hlookup⟩ := run_invariant_along
    (I := fun s => (∀ e, Balanced fd s e) ∧ s.failedLookup = false)
    (fun s a s' h hG hstep =>
      have hnext := step_balanced hG h.1 hstep
      ⟨hnext.1, hnext.2.trans h.2⟩)
    ⟨init_balanced n, rfl⟩ hG hrun
  refine ⟨hlookup, fun hidle => ⟨?_, fun e harmed => ?_, fun e hgone hmem => ?_⟩⟩
  · exact List.nodup_iff_count_le_one.mpr fun e => (hbalanced e).once
  · have hcovered := (hbalanced e).covered
    rw [armedCount, if_pos harmed] at hcovered
    exact List.count_pos_iff.mp (by omega)
  · have hcount := (hbalanced e).gone hgone
    rw [held_of_idle hidle] at hcount
    exact List.count_eq_zero.mp hcount hmem

/-- The descriptor is readable. -/
def pollinOnly : EpollMask := ⟨true, false, false, false, false, false⟩

/-- An event is registered, selected, registered again without success, and deregistered. -/
def oneEventCalls : List EpollAction :=
  [.register 0 5, .ctl 0 true, .wait 1 [⟨5, pollinOnly⟩], .handle 1, .handle 1, .reregister 0 5,
    .ctl 0 false, .undo 0, .register 1 6, .ctl 1 true, .deregister 0 5, .remove 0]

theorem registry_matches_epoll_calls :
    ∃ s, run (step id) (init 2) oneEventCalls = some s ∧ s.registeredEvents = [6] ∧
      s.failedLookup = false ∧ s.registeredEvents.Nodup ∧
      (∀ e, s.Armed id e → e ∈ s.registeredEvents) ∧
      ∀ e, s.deregistered e = true → e ∉ s.registeredEvents := by
  have hcalls : ∃ s, run (step id) (init 2) oneEventCalls = some s ∧ s.registeredEvents = [6] ∧
      ∀ p ∈ s.threads, p = .idle := exists_run (by decide)
  obtain ⟨s, hrun, hevents, hidle⟩ := hcalls
  obtain ⟨hlookup, hquiet⟩ := registry_matches_epoll (by decide) hrun
  exact ⟨s, hrun, hevents, hlookup, hquiet hidle⟩

/-- An event that is in `registered_events_` is registered again and is there twice. An event is
deregistered between `epoll_wait` and its round in the loop of `select`, and the lookup fails. -/
theorem registry_differs_from_epoll :
    (∃ s, run (step id) (init 1) [.register 0 5, .ctl 0 true, .reregister 0 5, .ctl 0 true] = some s ∧
      (∀ p ∈ s.threads, p = .idle) ∧ s.registeredEvents = [5, 5]) ∧
    ∃ s, run (step id) (init 2) [.register 0 5, .ctl 0 true, .wait 0 [⟨5, pollinOnly⟩],
        .deregister 1 5, .remove 1, .handle 0] = some s ∧ s.failedLookup = true :=
  ⟨exists_run (by decide), exists_run (by decide)⟩

end Xyco.Io.EpollRegistry
