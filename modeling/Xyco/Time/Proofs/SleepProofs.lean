import Xyco.Runtime.Proofs.RunQueueStepProofs
import Xyco.Time.Proofs.HistoryProofs
import Xyco.Time.Sleep

/-!
# Proofs: `sleep`

The future of a `sleep` is at one place at a time: its event in the wheel or in the vector of a
worker, or the future itself in a queue, with a worker, or done with. Every step takes it from one
place to the next, or leaves it where it is. `future_` of the event is set until `wake` has come to
it.
-/

namespace Xyco.Time.Sleeps

open Machine Table Xyco.Runtime Xyco.Runtime.RunQueue

variable {handleOf : ℕ → ℕ} {s s' : Sleeps} {w f : ℕ} {ok : Bool} {reading : Int}

/-! ## The queues -/

section Queue

variable {r t : RunQueue} {x y : LoopWorker} {h h' : Handles} {entry : QueueEntry} {q : ℕ}

theorem queued_set (hq : r.queues[q]? = some h) (hqueues : t.queues = r.queues.set q h') (f : ℕ) :
    queued t f + h.entries.countP (fun e => e.future = some f) =
      queued r f + h'.entries.countP fun e => e.future = some f := by
  unfold queued
  rw [hqueues]
  exact sum_map_set hq (fun h => h.entries.countP fun e => e.future = some f) h'

theorem queued_same (hq : r.queues[q]? = some h) (hqueues : t.queues = r.queues.set q h')
    (hentries : h'.entries = h.entries) (f : ℕ) : queued t f = queued r f := by
  have := queued_set hq hqueues f
  rw [hentries] at this
  omega

theorem held_set (hx : r.workers[w]? = some x) (hworkers : t.workers = r.workers.set w y) (f : ℕ) :
    held t f + polledAt f x.point = held r f + polledAt f y.point := by
  unfold held
  rw [hworkers]
  exact sum_map_set hx (fun x => polledAt f x.point) y

theorem polledAt_of_quiet {p : LoopPoint} (hp : p.quiet = true) : polledAt f p = 0 := by
  cases p <;> first | rfl | cases hp

theorem enqueue_places (hstep : r.enqueue q entry = some t) (f : ℕ) :
    queued t f = queued r f + (if entry.future = some f then 1 else 0) ∧ held t f = held r f := by
  obtain ⟨h, hq, -, rfl⟩ := enqueue_cases hstep
  refine ⟨?_, rfl⟩
  have := queued_set (r := r) hq (t := r.setQueue q
    { h with entries := entry :: h.entries, enqueued := h.enqueued ++ [entry] }) rfl f
  simp only [List.countP_cons, decide_eq_true_eq] at this
  omega

theorem places_of_worker (hx : r.workers[w]? = some x) (hworkers : t.workers = r.workers.set w y)
    (hqueued : queued t f + polledAt f y.point = queued r f) :
    queued t f + held t f + polledAt f x.point = queued r f + held r f := by
  have := held_set hx hworkers f
  omega

/-- A worker takes an entry from a queue, or polls the one it has. -/
theorem turn_places (hf : Fifo r) (hx : r.workers[w]? = some x) (hturn : Turn r w x ok t) (f : ℕ) :
    queued t f + held t f + polledAt f x.point = queued r f + held r f := by
  cases hturn with
  | move _ hpy _ => exact places_of_worker hx rfl (congrArg (queued r f + ·) (polledAt_of_quiet hpy))
  | lock _ hq _ => exact places_of_worker hx rfl (queued_same hq rfl (by rfl) f)
  | read _ _ _ => exact places_of_worker hx rfl rfl
  | unlock _ hq => exact places_of_worker hx rfl (queued_same hq rfl (by rfl) f)
  | take hpx hq =>
    rename_i q h entry
    apply places_of_worker hx rfl
    have hlast : h.entries.getLast? = some entry := by
      rw [← entriesOf_eq hq]
      exact hf.last w x hx q entry hpx
    -- the last entry of the queue is with the worker now
    have hcount : h.entries.countP (fun e => e.future = some f) =
        h.entries.dropLast.countP (fun e => e.future = some f) +
          if entry.future = some f then 1 else 0 := by
      nth_rewrite 1 [← List.dropLast_append_getLast? entry hlast]
      rw [List.countP_append, List.countP_singleton]
      simp only [decide_eq_true_eq]
    have hset := queued_set (r := r) hq (t := (r.setQueue q
      { h with
        entries := h.entries.dropLast
        lock := none
        taken := h.taken ++ [(w, entry)] }).goTo w x (.poll q h.taken.length entry)) rfl f
    simp only at hset
    simp only [polledAt]
    omega
  | resume _ _ => exact places_of_worker hx rfl rfl
  | refuse _ _ => exact places_of_worker hx rfl rfl

/-- What other parts of the runtime do does not concern a future that they do not wake. -/
theorem step_places {a : QueueAction} (hstep : r.step handleOf a = some t) (hw : isWorker a = false)
    (ha : ¬ (a = .registerFuture f ∨ a = .wake f ∨ ∃ v, a = .wakeLocal v f)) :
    queued t f = queued r f ∧ held t f = held r f := by
  cases step_outside hstep hw with
  | nothing => exact ⟨rfl, rfl⟩
  | enqueue henqueue hfuture =>
    obtain ⟨hqueued, hheld⟩ := enqueue_places henqueue f
    rw [if_neg fun heq => ha (hfuture f heq)] at hqueued
    exact ⟨hqueued, hheld⟩
  | suspend hx =>
    rename_i v x
    exact ⟨rfl, Nat.add_right_cancel (held_set (y := { x with suspendFlag := true }) hx rfl f)⟩
  | start hx hp =>
    rename_i v x
    have := held_set (r := r) hx (t := r.goTo v x .head) rfl f
    rw [hp] at this
    exact ⟨rfl, this⟩

end Queue

/-! ## The wheel -/

section Wheel

variable {h h' : History} {e : Event}

theorem insertEvent_stored (hA : h.wheel.Ahead) (hstep : h.step (.insertEvent e) = some h') :
    h'.wheel.stored = h.wheel.stored + {e} := by
  rcases History.step_cases hA hstep with ⟨e', L, i, he, -, -, rfl⟩ | ⟨r, he, -⟩ | ⟨r, w, new, he, -⟩
  · obtain rfl := Call.insertEvent.inj he
    exact Wheel.push_stored _ _ _ _
  · cases he
  · cases he

theorem expire_stored (hA : h.wheel.Ahead) (hstep : h.step (.expire reading) = some h') :
    h'.wheel.stored + (h'.delivered.getLastD [] : Multiset Event) = h.wheel.stored := by
  rcases History.step_cases hA hstep with ⟨e', L, i, he, -⟩ | ⟨r, he, -, rfl⟩ |
    ⟨r, w, new, he, -, hres, rfl⟩
  · cases he
  · simp
  · simp only [List.getLastD_concat]
    exact hres.stored

theorem expire_due {R : Int → Prop} {E : Event → Prop} (hF : FitAll R E)
    (hW : History.Tracked R E h.wheel) (hreading : R reading)
    (hstep : h.step (.expire reading) = some h') :
    ∀ e ∈ h'.delivered.getLastD [], e.expireTime - reading < ticksPerMs := by
  rcases History.step_cases hW.inv.ahead hstep with ⟨e', L, i, he, -⟩ | ⟨r, he, -, rfl⟩ |
    ⟨r, w, new, he, hr, hres, rfl⟩
  · cases he
  · simp
  · obtain rfl := Call.expire.inj he
    simp only [List.getLastD_concat]
    exact hres.due hW.inv hr (hW.fitsAt hF hreading)

end Wheel

/-! ## The places of a future -/

def total (s : Sleeps) (f : ℕ) : ℕ :=
  s.stored f + s.collected f + (queued s.queue f + held s.queue f) + s.finished.count f

/-- What is known of the future `f` of a `sleep`. -/
structure Settled (s : Sleeps) (f : ℕ) (x : SleepFuture) : Prop where
  ready : x.ready = true
  once : s.total f = 1
  bound : x.eventFuture = if s.stored f + s.collected f = 0 then none else some f
  fired : s.stored f = 0 → ∃ r, (r, ⟨f, x.expireTime⟩) ∈ s.expired

/-- The event is in the wheel or in the vector of a worker. -/
def Pending (s : Sleeps) (e : Event) : Prop :=
  e ∈ s.history.wheel.stored ∨ ∃ events ∈ s.events, e ∈ events

structure Inv (s : Sleeps) : Prop where
  ahead : s.history.wheel.Ahead
  guarded : Guarded s.queue
  fifo : Fifo s.queue
  settled : ∀ f x, s.objects[f]? = some (.sleep x) → s.Settled f x
  absent : ∀ f, s.objects[f]? = none ∨ s.objects[f]? = some .thrown → s.total f = 0
  pending : ∀ e, s.Pending e →
    ∃ x, s.objects[e.future]? = some (.sleep x) ∧ x.expireTime = e.expireTime

theorem inv_init (n : ℕ) (t₀ : Int) : Inv (init n t₀) where
  ahead := Wheel.ahead_new t₀
  guarded := guarded_init
  fifo := fifo_init
  settled := nofun
  absent := by
    intro f _
    have hstored : (init n t₀).stored f = 0 := by
      unfold stored
      rw [show (init n t₀).history.wheel.stored = 0 from Wheel.stored_new t₀]
      rfl
    rw [total, hstored]
    simp [collected, queued, held, init, RunQueue.init, polledAt]
  pending := by
    rintro e (he | ⟨events, hmem, he⟩)
    · rw [show (init n t₀).history.wheel.stored = 0 from Wheel.stored_new t₀] at he
      exact absurd he (Multiset.notMem_zero e)
    · rw [List.eq_of_mem_replicate hmem] at he
      cases he

theorem getElem?_concat_of_some {α : Type*} {l : List α} {i : ℕ} {a : α} (h : l[i]? = some a) (b : α) :
    (l ++ [b])[i]? = some a :=
  (List.getElem?_append_left (List.getElem?_eq_some_iff.mp h).1).trans h

/-- A place that is empty, or whose object is gone, after an object was added. -/
theorem absent_of_concat {objects : List AwaitedObject} {b : AwaitedObject}
    (h : (objects ++ [b])[f]? = none ∨ (objects ++ [b])[f]? = some .thrown) :
    (f ≠ objects.length ∨ b = .thrown) ∧ (objects[f]? = none ∨ objects[f]? = some .thrown) := by
  rw [get_concat] at h
  split at h
  · rename_i hf
    refine ⟨Or.inr ?_, Or.inl (List.getElem?_eq_none hf.ge)⟩
    rcases h with h | h
    · cases h
    · exact Option.some.inj h
  · rename_i hf
    exact ⟨Or.inl hf, h⟩

/-- An event still leads to the object of its `sleep` when another object is added. -/
theorem Inv.pending_concat (hs : Inv s) {e : Event} (he : s.Pending e) (b : AwaitedObject) :
    ∃ x, (s.objects ++ [b])[e.future]? = some (.sleep x) ∧ x.expireTime = e.expireTime := by
  obtain ⟨x, hx, htime⟩ := hs.pending e he
  exact ⟨x, getElem?_concat_of_some hx b, htime⟩

/-- An object of another kind is added, or one that is already gone. -/
theorem Inv.concat (hs : Inv s) {b : AwaitedObject} (hb : ∀ x, b ≠ .sleep x) :
    Inv { s with objects := s.objects ++ [b] } := by
  have hsettled : ∀ f a, (s.objects ++ [b])[f]? = some a → ∀ x, a = .sleep x → s.Settled f x :=
    forall_concat (fun f a ha x hx => hs.settled f x (hx ▸ ha)) fun x hx => absurd hx (hb x)
  refine ⟨hs.ahead, hs.guarded, hs.fifo, fun f x hx => ?_, fun f hf => ?_, fun e he => ?_⟩
  · obtain ⟨hready, honce, hbound, hfired⟩ := hsettled f _ hx x rfl
    exact ⟨hready, honce, hbound, hfired⟩
  · exact hs.absent f (absent_of_concat hf).2
  · exact hs.pending_concat he b

theorem Settled.keep {x : SleepFuture} (h : s.Settled f x) (htotal : s'.total f = s.total f)
    (hpending : s'.stored f + s'.collected f = s.stored f + s.collected f)
    (hfired : s'.stored f = 0 → ∃ r, (r, ⟨f, x.expireTime⟩) ∈ s'.expired) : s'.Settled f x :=
  ⟨h.ready, htotal.trans h.once, by rw [hpending]; exact h.bound, hfired⟩

theorem sleep_cases {duration : Int} (hstep : s.sleep w duration reading = some s') :
    ∃ x, x = (SleepFuture.new duration).polled s.objects.length reading ∧
      ((∃ history, s.history.step (.insertEvent ⟨s.objects.length, x.expireTime⟩) = some history ∧
          s' = { s with history := history, objects := s.objects ++ [.sleep x] }) ∨
        s' = { s with objects := s.objects ++ [.thrown] }) := by
  refine ⟨_, rfl, ?_⟩
  have hready : (SleepFuture.new duration).ready = false := rfl
  unfold Sleeps.sleep at hstep
  split at hstep
  · simp only [poll, hready, Bool.false_eq_true, if_false] at hstep
    cases hinsert : s.history.step (.insertEvent ⟨s.objects.length,
        ((SleepFuture.new duration).polled s.objects.length reading).expireTime⟩) with
    | some history =>
      rw [hinsert] at hstep
      obtain rfl := Option.some.inj hstep
      exact Or.inl ⟨history, rfl, by simp⟩
    | none =>
      rw [hinsert] at hstep
      obtain rfl := Option.some.inj hstep
      exact Or.inr (by simp)
  · cases hstep

theorem stored_insert {time : Int}
    (hstored : s'.history.wheel.stored = s.history.wheel.stored + {⟨f, time⟩}) (g : ℕ) :
    s'.stored g = s.stored g + if f = g then 1 else 0 := by
  rw [stored, hstored, Multiset.countP_add, ← Multiset.cons_zero, Multiset.countP_cons,
    Multiset.countP_zero]
  simp [stored]

/-- A future of `sleep` with its event in the wheel. -/
theorem Inv.insert (hs : Inv s) {x : SleepFuture} {history : History} (hready : x.ready = true)
    (hbound : x.eventFuture = some s.objects.length)
    (hhistory : s.history.step (.insertEvent ⟨s.objects.length, x.expireTime⟩) = some history)
    (hs' : s' = { s with history := history, objects := s.objects ++ [.sleep x] }) : Inv s' := by
  have hstored : s'.history.wheel.stored =
      s.history.wheel.stored + {⟨s.objects.length, x.expireTime⟩} := by
    rw [hs']
    exact insertEvent_stored hs.ahead hhistory
  have hcount := stored_insert hstored
  have hcollected : ∀ g, s'.collected g = s.collected g := fun g => by rw [hs']; rfl
  have htotal : ∀ g, s'.total g = s.total g + if s.objects.length = g then 1 else 0 := by
    intro g
    have hrest : s'.total g + s.stored g = s.total g + s'.stored g := by
      simp only [total, hcollected]
      subst hs'
      simp only
      omega
    have := hcount g
    omega
  have hzero : s.total s.objects.length = 0 :=
    hs.absent _ (Or.inl (List.getElem?_eq_none (Nat.le_refl _)))
  have hsettled : ∀ f a, s'.objects[f]? = some a → ∀ x, a = .sleep x → s'.Settled f x := by
    rw [hs']
    refine forall_concat (fun f a ha x hx => ?_) fun x hx => ?_
    · have hlt : f < s.objects.length := (List.getElem?_eq_some_iff.mp ha).1
      have hold := hs.settled f x (hx ▸ ha)
      have hsame := hcount f
      have htotal' := htotal f
      rw [if_neg (by omega)] at hsame htotal'
      rw [← hs']
      refine hold.keep htotal' (by rw [hsame, hcollected]; rfl) fun hnone => ?_
      rw [hs']
      exact hold.fired (by omega)
    · obtain rfl := AwaitedObject.sleep.inj hx
      have hnew := hcount s.objects.length
      have htotal' := htotal s.objects.length
      rw [if_pos rfl] at hnew htotal'
      rw [← hs']
      refine ⟨hready, by omega, ?_, fun hnone => by omega⟩
      rw [if_neg (by omega)]
      exact hbound
  refine ⟨?_, ?_, ?_, fun f x hx => hsettled f _ hx x rfl, ?_, ?_⟩
  · rw [hs']
    exact History.step_ahead hs.ahead hhistory
  · rw [hs']
    exact hs.guarded
  · rw [hs']
    exact hs.fifo
  · intro f hf
    rw [hs'] at hf
    obtain ⟨hlen, hold⟩ := absent_of_concat hf
    rw [htotal, if_neg (Ne.symm (hlen.resolve_right nofun)), hs.absent f hold]
  · have hobjects : s'.objects = s.objects ++ [.sleep x] := by rw [hs']
    rintro e (he | ⟨events, hmem, he⟩)
    · rw [hobjects]
      rw [hstored, Multiset.mem_add, Multiset.mem_singleton] at he
      rcases he with he | rfl
      · exact hs.pending_concat (Or.inl he) _
      · exact ⟨x, by simp only [get_concat, if_true], rfl⟩
    · rw [hobjects]
      rw [hs'] at hmem
      exact hs.pending_concat (Or.inr ⟨events, hmem, he⟩) _

theorem Inv.sleep (hs : Inv s) {duration : Int} (hstep : s.sleep w duration reading = some s') :
    Inv s' := by
  obtain ⟨x, rfl, ⟨history, hhistory, hs'⟩ | rfl⟩ := sleep_cases hstep
  · exact hs.insert rfl rfl hhistory hs'
  · exact hs.concat nofun

/-- A step that leaves the objects alone and moves futures from one place to another. -/
theorem Inv.keep (hs : Inv s) (hobjects : s'.objects = s.objects)
    (hahead : s'.history.wheel.Ahead) (hqueue : Guarded s'.queue ∧ Fifo s'.queue)
    (htotal : ∀ f, s.objects[f]? ≠ some .other → s'.total f = s.total f)
    (hpending : ∀ f, s'.stored f + s'.collected f = s.stored f + s.collected f)
    (hevents : ∀ e, s'.Pending e → s.Pending e)
    (hfired : ∀ f x, s.objects[f]? = some (.sleep x) → s'.stored f = 0 →
      ∃ r, (r, ⟨f, x.expireTime⟩) ∈ s'.expired) : Inv s' where
  ahead := hahead
  guarded := hqueue.1
  fifo := hqueue.2
  settled := by
    intro f x hx
    rw [hobjects] at hx
    exact (hs.settled f x hx).keep (htotal f (by rw [hx]; nofun)) (hpending f) (hfired f x hx)
  absent := by
    intro f hf
    rw [hobjects] at hf
    rw [htotal f (by rcases hf with hf | hf <;> rw [hf] <;> nofun)]
    exact hs.absent f hf
  pending := by
    intro e he
    rw [hobjects]
    exact hs.pending e (hevents e he)

theorem select_cases (hstep : s.select w reading = some s') :
    (∃ history, s.history.step (.expire reading) = some history ∧ s.events[w]? = some [] ∧
      s' = { s with
        history := history
        events := s.events.set w (history.delivered.getLastD [])
        expired := s.expired ++ (history.delivered.getLastD []).map (reading, ·) }) ∨
    s' = { s with terminated := true } := by
  unfold Sleeps.select at hstep
  split at hstep
  · rename_i hguard
    split at hstep
    · rename_i history hhistory
      exact Or.inl ⟨history, hhistory, hguard.2, (Option.some.inj hstep).symm⟩
    · exact Or.inr (Option.some.inj hstep).symm
  · cases hstep

/-- `select` returns the events that have left the wheel. -/
theorem Inv.collect (hs : Inv s) {history : History}
    (hhistory : s.history.step (.expire reading) = some history) (hevents : s.events[w]? = some []) :
    Inv { s with
      history := history
      events := s.events.set w (history.delivered.getLastD [])
      expired := s.expired ++ (history.delivered.getLastD []).map (reading, ·) } := by
  have hstored := expire_stored hs.ahead hhistory
  set new := history.delivered.getLastD []
  set s' : Sleeps := { s with
    history := history
    events := s.events.set w new
    expired := s.expired ++ new.map (reading, ·) }
  have hcount : ∀ f, s'.stored f + new.countP (fun e => e.future = f) = s.stored f := by
    intro f
    rw [stored, stored, ← hstored, Multiset.countP_add, Multiset.coe_countP]
  have hcollected : ∀ f, s'.collected f = s.collected f + new.countP (fun e => e.future = f) :=
    fun f => sum_map_set hevents (fun events => events.countP fun e : Event => e.future = f) new
  have hsum : ∀ f, s'.stored f + s'.collected f = s.stored f + s.collected f := by
    intro f
    have := hcount f
    have := hcollected f
    omega
  refine hs.keep rfl (History.step_ahead hs.ahead hhistory) ⟨hs.guarded, hs.fifo⟩ ?_ hsum ?_ ?_
  · intro f _
    simp only [total, hsum]
    rfl
  · rintro e (he | ⟨events, hmem, he⟩)
    · exact Or.inl (Multiset.mem_of_le (hstored ▸ Multiset.le_add_right _ _) he)
    · rcases List.mem_or_eq_of_mem_set hmem with hmem | rfl
      · exact Or.inr ⟨events, hmem, he⟩
      · exact Or.inl (hstored ▸ Multiset.mem_add.mpr (Or.inr he))
  · intro f x hx hnone
    by_cases hzero : s.stored f = 0
    · obtain ⟨r, hr⟩ := (hs.settled f x hx).fired hzero
      exact ⟨r, List.mem_append_left _ hr⟩
    · have hpos : 0 < new.countP (fun e => e.future = f) := by
        have := hcount f
        omega
      obtain ⟨e, he, hef⟩ := List.countP_pos_iff.mp hpos
      have hef := of_decide_eq_true hef
      obtain ⟨y, hy, htime⟩ := hs.pending e (Or.inl (hstored ▸ Multiset.mem_add.mpr (Or.inr he)))
      rw [hef, hx] at hy
      obtain rfl := AwaitedObject.sleep.inj (Option.some.inj hy)
      refine ⟨reading, List.mem_append_right _ (List.mem_map.mpr ⟨e, he, ?_⟩)⟩
      rw [htime, ← hef]

theorem Inv.terminate (hs : Inv s) : Inv { s with terminated := true } :=
  hs.keep rfl hs.ahead ⟨hs.guarded, hs.fifo⟩ (fun _ _ => rfl) (fun _ => rfl) (fun _ he => he)
    fun f x hx => (hs.settled f x hx).fired

theorem Inv.select (hs : Inv s) (hstep : s.select w reading = some s') : Inv s' := by
  rcases select_cases hstep with ⟨history, hhistory, hevents, rfl⟩ | rfl
  · exact hs.collect hhistory hevents
  · exact hs.terminate

/-- The number of events of `f` in the vectors, when a worker is done with the first one of its. -/
theorem collected_tail {e : Event} {events : List Event} (hw : s.events[w]? = some (e :: events))
    (hevents : s'.events = s.events.set w events) (f : ℕ) :
    s'.collected f + (if e.future = f then 1 else 0) = s.collected f := by
  have := sum_map_set hw (fun events => events.countP fun e : Event => e.future = f) events
  simp only [List.countP_cons, decide_eq_true_eq] at this
  unfold collected
  rw [hevents]
  omega

theorem wake_cases (hstep : s.wake handleOf w = some s') :
    ∃ e events x g queue, s.events[w]? = some (e :: events) ∧
      s.objects[e.future]? = some (.sleep x) ∧ x.eventFuture = some g ∧
      s.queue.enqueue 0 ⟨handleOf g, some g⟩ = some queue ∧
      s' = { s with
        queue := queue
        objects := s.objects.set e.future (.sleep { x with eventFuture := none })
        events := s.events.set w events } := by
  unfold Sleeps.wake at hstep
  split at hstep
  · rename_i e events hw
    split at hstep
    · rename_i x hx
      split at hstep
      · rename_i g hg
        obtain ⟨queue, hqueue, rfl⟩ := Option.map_eq_some_iff.mp hstep
        exact ⟨e, events, x, g, queue, hw, hx, hg, hqueue, rfl⟩
      · cases hstep
    · cases hstep
  · cases hstep

/-- What is left of the events when a worker is done with the first one of its. -/
theorem Pending.of_tail {e d : Event} {events : List Event} (hd : s'.Pending d)
    (hw : s.events[w]? = some (e :: events)) (hevents : s'.events = s.events.set w events)
    (hhistory : s'.history = s.history) : s.Pending d := by
  rcases hd with hd | ⟨l, hl, hd⟩
  · exact Or.inl (hhistory ▸ hd)
  · rw [hevents] at hl
    rcases List.mem_or_eq_of_mem_set hl with hl | rfl
    · exact Or.inr ⟨l, hl, hd⟩
    · exact Or.inr ⟨_, List.mem_of_getElem? hw, List.mem_cons_of_mem _ hd⟩

/-- `wake` moves a future from the vector of a worker to the run queue. -/
theorem wake_total {e : Event} {queue : RunQueue}
    (hqueue : s.queue.enqueue 0 ⟨handleOf e.future, some e.future⟩ = some queue)
    (hs' : s'.queue = queue ∧ s'.finished = s.finished ∧ s'.history = s.history)
    (hcollected : ∀ f, s'.collected f + (if e.future = f then 1 else 0) = s.collected f) (f : ℕ) :
    s'.total f = s.total f := by
  obtain ⟨hqueue', hfinished, hhistory⟩ := hs'
  obtain ⟨hqueued, hheld⟩ := enqueue_places hqueue f
  simp only [Option.some.injEq] at hqueued
  have := hcollected f
  simp only [total, stored, hqueue', hfinished, hhistory]
  omega

theorem Inv.wake (hs : Inv s) (hstep : s.wake handleOf w = some s') : Inv s' := by
  obtain ⟨e, events, x, g, queue, hw, hx, hg, hqueue, hs'⟩ := wake_cases hstep
  have hsettled := hs.settled _ x hx
  have hcollected : ∀ f, s'.collected f + (if e.future = f then 1 else 0) = s.collected f :=
    collected_tail hw (by rw [hs'])
  have hstored : ∀ f, s'.stored f = s.stored f := fun f => by rw [hs']; rfl
  -- the event has its future, and it is the only one of it
  have hone := hcollected e.future
  rw [if_pos rfl] at hone
  have hbound := hsettled.bound
  rw [if_neg (by omega), hg] at hbound
  obtain rfl := Option.some.inj hbound
  have htotal := wake_total hqueue (by rw [hs']; exact ⟨rfl, rfl, rfl⟩) hcollected
  have hzero : s.stored e.future = 0 ∧ s'.collected e.future = 0 := by
    have := hsettled.once
    simp only [total] at this
    omega
  have hobjects : ∀ f, s'.objects[f]? =
      if f = e.future then some (.sleep { x with eventFuture := none }) else s.objects[f]? := by
    rw [hs']
    exact get_set hx _
  have hexpired : s'.expired = s.expired := by rw [hs']
  refine ⟨?_, ?_, ?_, ?_, ?_, ?_⟩
  · rw [hs']
    exact hs.ahead
  · rw [hs']
    exact enqueue_guarded hs.guarded hqueue
  · rw [hs']
    exact enqueue_fifo hs.guarded hs.fifo hqueue
  · intro f y hy
    rw [hobjects] at hy
    split at hy
    · rename_i hf
      subst hf
      obtain rfl := AwaitedObject.sleep.inj (Option.some.inj hy)
      refine ⟨hsettled.ready, (htotal _).trans hsettled.once, ?_, fun _ => ?_⟩
      · rw [if_pos (by rw [hstored]; omega)]
      · rw [hexpired]
        exact hsettled.fired hzero.1
    · rename_i hf
      have hold := hs.settled f y hy
      have hother := hcollected f
      rw [if_neg (Ne.symm hf)] at hother
      refine hold.keep (htotal f) (by rw [hstored]; omega) fun hnone => ?_
      rw [hexpired]
      exact hold.fired (by rw [← hstored]; exact hnone)
  · intro f hf
    rw [hobjects] at hf
    split at hf
    · rcases hf with hf | hf <;> cases hf
    · rw [htotal]
      exact hs.absent f hf
  · intro d hd
    obtain ⟨y, hy, htime⟩ := hs.pending d (hd.of_tail hw (by rw [hs']) (by rw [hs']))
    rw [hobjects]
    split
    · rename_i hf
      rw [hf, hx] at hy
      obtain rfl := AwaitedObject.sleep.inj (Option.some.inj hy)
      exact ⟨_, rfl, htime⟩
    · exact ⟨y, hy, htime⟩

/-! ## The workers -/

/-- A step of the run queue that a future of `sleep` has no part in, but for a move from a queue to a
worker. -/
theorem Inv.setQueue (hs : Inv s) {queue : RunQueue} (hqueue : Guarded queue ∧ Fifo queue)
    (hplaces : ∀ f, s.objects[f]? ≠ some .other →
      queued queue f + held queue f = queued s.queue f + held s.queue f) : Inv (s.setQueue queue) := by
  refine hs.keep rfl hs.ahead hqueue (fun f hf => ?_) (fun _ => rfl) (fun _ he => he)
    fun f x hx => (hs.settled f x hx).fired
  simp only [total]
  show s.stored f + s.collected f + (queued queue f + held queue f) + s.finished.count f = _
  rw [hplaces f hf]

theorem Inv.queue (hs : Inv s) {a : QueueAction} {queue : RunQueue} (ha : s.foreign a = true)
    (hstep : s.queue.step handleOf a = some queue) : Inv (s.setQueue queue) := by
  refine hs.setQueue ⟨step_guarded hs.guarded hstep, step_fifo hs.guarded hs.fifo hstep⟩ fun f hf => ?_
  have hw : isWorker a = false := by
    cases a <;> first | rfl | cases ha
  obtain ⟨hqueued, hheld⟩ := step_places (f := f) hstep hw fun hwakes => by
    rcases hwakes with rfl | rfl | ⟨v, rfl⟩ <;> exact hf (of_decide_eq_true ha)
  rw [hqueued, hheld]

theorem sleepAt_eq_some {p : LoopPoint} {x : SleepFuture} (h : s.sleepAt p = some (f, x)) :
    s.objects[f]? = some (.sleep x) ∧ ∀ g, polledAt g p = if g = f then 1 else 0 := by
  unfold sleepAt at h
  split at h
  · rename_i entry
    split at h
    · rename_i g hg
      split at h
      · rename_i y hy
        obtain ⟨rfl, rfl⟩ := Prod.mk.inj (Option.some.inj h)
        refine ⟨hy, fun k => ?_⟩
        simp only [polledAt, hg, Option.some.injEq, eq_comm]
      · cases h
    · cases h
  · cases h

theorem sleepAt_eq_none {p : LoopPoint} (h : s.sleepAt p = none) {x : SleepFuture}
    (hx : s.objects[f]? = some (.sleep x)) : polledAt f p = 0 := by
  cases p with
  | poll q i entry =>
    simp only [polledAt]
    rw [if_neg]
    intro hf
    simp [sleepAt, hf, hx] at h
  | _ => rfl

theorem worker_cases (hstep : s.worker w ok reading = some s') :
    ∃ x, s.queue.workers[w]? = some x ∧
      ((∃ f y, s.sleepAt x.point = some (f, y) ∧ s.pollTaken w f y reading = some s') ∨
       (s.sleepAt x.point = none ∧ ∃ queue, s.queue.runWorker w ok = some queue ∧
          s' = s.setQueue queue)) := by
  unfold Sleeps.worker at hstep
  split at hstep
  · rename_i x hx
    refine ⟨x, hx, ?_⟩
    split at hstep
    · rename_i f y hsleep
      exact Or.inl ⟨f, y, hsleep, hstep⟩
    · rename_i hsleep
      split at hstep
      · cases hstep
      · obtain ⟨queue, hqueue, rfl⟩ := Option.map_eq_some_iff.mp hstep
        exact Or.inr ⟨hsleep, queue, hqueue, rfl⟩
  · cases hstep

/-- The second poll of a future of `sleep` finds it ready. -/
theorem pollTaken_ready {y : SleepFuture} (hy : y.ready = true) :
    s.pollTaken w f y reading = (s.queue.runWorker w true).map fun queue =>
      { s.setQueue queue with finished := s.finished ++ [f] } := by
  have hpoll : s.poll f y reading = (s, .ready) := if_pos hy
  unfold pollTaken
  rw [hpoll]
  rfl

theorem Inv.pollTaken (hs : Inv s) {x : LoopWorker} {y : SleepFuture}
    (hx : s.queue.workers[w]? = some x) (hsleep : s.sleepAt x.point = some (f, y))
    (hstep : s.pollTaken w f y reading = some s') : Inv s' := by
  obtain ⟨hobject, hpolled⟩ := sleepAt_eq_some hsleep
  rw [pollTaken_ready (hs.settled f y hobject).ready] at hstep
  obtain ⟨queue, hqueue, rfl⟩ := Option.map_eq_some_iff.mp hstep
  obtain ⟨x', hx', hturn⟩ := runWorker_cases hqueue
  obtain rfl : x = x' := Option.some.inj (hx.symm.trans hx')
  have hqueues := And.intro (turn_guarded hs.guarded hx hturn) (turn_fifo hs.guarded hs.fifo hx hturn)
  refine hs.keep rfl hs.ahead hqueues (fun g _ => ?_) (fun _ => rfl) (fun _ he => he) fun f x hx =>
    (hs.settled f x hx).fired
  have hplaces := turn_places hs.fifo hx hturn g
  rw [hpolled] at hplaces
  have hcount : (s.finished ++ [f]).count g = s.finished.count g + if g = f then 1 else 0 := by
    rw [count_concat]
    simp only [eq_comm]
  simp only [total]
  show s.stored g + s.collected g + (queued queue g + held queue g) + (s.finished ++ [f]).count g = _
  omega

theorem Inv.worker (hs : Inv s) (hstep : s.worker w ok reading = some s') : Inv s' := by
  obtain ⟨x, hx, ⟨f, y, hsleep, hpoll⟩ | ⟨hsleep, queue, hqueue, rfl⟩⟩ := worker_cases hstep
  · exact hs.pollTaken hx hsleep hpoll
  · obtain ⟨x', hx', hturn⟩ := runWorker_cases hqueue
    obtain rfl : x = x' := Option.some.inj (hx.symm.trans hx')
    refine hs.setQueue ⟨turn_guarded hs.guarded hx hturn, turn_fifo hs.guarded hs.fifo hx hturn⟩
      fun f hf => ?_
    have hplaces := turn_places hs.fifo hx hturn f
    cases hobject : s.objects[f]? with
    | none =>
      have hzero := hs.absent f (Or.inl hobject)
      simp only [total] at hzero
      omega
    | some a =>
      cases a with
      | sleep y =>
        rw [sleepAt_eq_none hsleep hobject] at hplaces
        exact hplaces
      | thrown =>
        have hzero := hs.absent f (Or.inr hobject)
        simp only [total] at hzero
        omega
      | other => exact absurd hobject hf

theorem queue_cases {a : QueueAction} (hstep : s.act handleOf (.queue a) = some s') :
    s.foreign a = true ∧ ∃ queue, s.queue.step handleOf a = some queue ∧ s' = s.setQueue queue := by
  simp only [act] at hstep
  split at hstep
  · rename_i ha
    obtain ⟨queue, hqueue, rfl⟩ := Option.map_eq_some_iff.mp hstep
    exact ⟨ha, queue, hqueue, rfl⟩
  · cases hstep

theorem act_inv {a : SleepAction} (hs : Inv s) (hstep : s.act handleOf a = some s') : Inv s' := by
  cases a with
  | make =>
    obtain rfl := Option.some.inj hstep
    exact hs.concat nofun
  | sleep w duration reading => exact hs.sleep hstep
  | select w reading => exact hs.select hstep
  | wake w => exact hs.wake hstep
  | worker w ok reading => exact hs.worker hstep
  | queue a =>
    obtain ⟨ha, queue, hqueue, rfl⟩ := queue_cases hstep
    exact hs.queue ha hqueue

theorem act_of_step {a : SleepAction} (hstep : s.step handleOf a = some s') :
    s.act handleOf a = some s' := by
  unfold step at hstep
  split at hstep
  · cases hstep
  · exact hstep

theorem run_inv {n : ℕ} {t₀ : Int} {as : List SleepAction}
    (hrun : run (step handleOf) (init n t₀) as = some s) : Inv s :=
  run_invariant (fun _ _ _ hs hstep => act_inv hs (act_of_step hstep)) (inv_init n t₀) hrun

/-! ## The clock -/

/-- An expire time that a `sleep` can have in the range of the clock. -/
def Near (e : Event) : Prop := -2 ^ 62 ≤ e.expireTime ∧ e.expireTime < 2 ^ 63

theorem fitAll_epoch : FitAll InEpoch Near := by
  intro t ht e he
  unfold InEpoch at ht
  unfold Near at he
  unfold InTicks
  omega

/-- No timer has left the wheel early, and none is set for another time than it should. -/
structure Punctual (s : Sleeps) : Prop where
  wheel : History.Tracked InEpoch Near s.history.wheel
  due : ∀ p ∈ s.expired, p.2.expireTime - p.1 < ticksPerMs
  expireTime : ∀ x, .sleep x ∈ s.objects → x.expireTime = x.start + ticksPerMs * x.duration

theorem polled_expireTime {duration : Int} (hreading : InEpoch reading)
    (hlow : -2 ^ 62 ≤ ticksPerMs * duration) (hhigh : ticksPerMs * duration ≤ 2 ^ 62) (f : ℕ) :
    ((SleepFuture.new duration).polled f reading).expireTime = reading + ticksPerMs * duration := by
  unfold InEpoch at hreading
  exact toInt64_eq ⟨by simp only [SleepFuture.new]; omega, by simp only [SleepFuture.new]; omega⟩

theorem Punctual.concat (hs : Punctual s) {b : AwaitedObject}
    (hb : ∀ x, b = .sleep x → x.expireTime = x.start + ticksPerMs * x.duration) :
    Punctual { s with objects := s.objects ++ [b] } := by
  refine ⟨hs.wheel, hs.due, fun x hx => ?_⟩
  rcases List.mem_append.mp hx with hx | hx
  · exact hs.expireTime x hx
  · exact hb x (List.mem_singleton.mp hx).symm

theorem Punctual.sleep (hs : Punctual s) {duration : Int}
    (htimely : timely (.sleep w duration reading)) (hstep : s.sleep w duration reading = some s') :
    Punctual s' := by
  obtain ⟨hreading, hlow, hhigh⟩ := htimely
  have htime := polled_expireTime hreading hlow hhigh s.objects.length
  obtain ⟨x, hx, ⟨history, hhistory, rfl⟩ | rfl⟩ := sleep_cases hstep
  · have hnear : Near ⟨s.objects.length, x.expireTime⟩ := by
      unfold InEpoch at hreading
      unfold Near
      simp only [hx, htime]
      omega
    have hwheel := History.step_tracked fitAll_epoch hs.wheel (c := .insertEvent _) hnear hhistory
    have hobjects := hs.concat (b := .sleep x) fun y hy => by
      obtain rfl := AwaitedObject.sleep.inj hy
      rw [hx, htime]
      rfl
    exact ⟨hwheel, hs.due, hobjects.expireTime⟩
  · exact hs.concat nofun

theorem Punctual.select (hs : Punctual s) (htimely : timely (.select w reading))
    (hstep : s.select w reading = some s') : Punctual s' := by
  rcases select_cases hstep with ⟨history, hhistory, -, rfl⟩ | rfl
  · have hwheel := History.step_tracked fitAll_epoch hs.wheel (c := .expire _) htimely hhistory
    refine ⟨hwheel, fun p hp => ?_, hs.expireTime⟩
    rcases List.mem_append.mp hp with hp | hp
    · exact hs.due p hp
    · obtain ⟨e, he, rfl⟩ := List.mem_map.mp hp
      exact expire_due fitAll_epoch hs.wheel htimely hhistory e he
  · exact ⟨hs.wheel, hs.due, hs.expireTime⟩

end Xyco.Time.Sleeps
