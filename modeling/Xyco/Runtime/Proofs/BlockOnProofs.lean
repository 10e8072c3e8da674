import Xyco.Runtime.BlockOn
import Xyco.Runtime.Proofs.RunQueueStepProofs

/-!
# Proofs: `block_on`

Only the last call is in progress, and its `blocking_future` is the only one that can still write or
suspend. As long as no other exception leaves the loop, the flag of the in-place worker is set by that
coroutine alone, after it has written the result, and the worker that sees it puts it back. An
exception of its own future leaves the call or ends the process.
-/

namespace Xyco.Runtime.BlockOn

open Machine Table

variable {V E : Type*} {handleOf : ℕ → ℕ} {s s' : BlockOn V E} {w k : ℕ} {x y : LoopWorker}
variable {c : BlockOnCall V E} {p : BlockingPoint} {nested : Bool}

/-! ## The in-place worker -/

/-- What happens to the in-place worker when it is not started or suspended: it goes on, or it finds
its flag set and leaves the loop. -/
theorem queue_inPlace {r r' : RunQueue} {a : QueueAction} (ha : outside a = true)
    (hstep : r.step handleOf a = some r') (hx : r.workers[0]? = some x) :
    ∃ y, r'.workers[0]? = some y ∧
      (y.suspendFlag = x.suspendFlag ∧ (y.point = .stopped ↔ x.point = .stopped) ∨
       x.suspendFlag = true ∧ y.suspendFlag = false ∧ y.point = .stopped) := by
  cases hw : RunQueue.isWorker a with
  | true =>
    cases a <;> cases hw
    rename_i w ok
    obtain ⟨x', y, hadv⟩ := RunQueue.runWorker_advance hstep
    rw [hadv.workers]
    by_cases hw0 : w = 0
    · subst hw0
      obtain rfl : x = x' := Option.some.inj (hx.symm.trans hadv.worker)
      refine ⟨y, get_set_self hadv.worker y, ?_⟩
      by_cases hstopped : y.point = .stopped
      · exact Or.inr ⟨(hadv.stops hstopped).1, (hadv.stops hstopped).2, hstopped⟩
      · exact Or.inl ⟨hadv.flag hstopped, iff_of_false hstopped hadv.runs⟩
    · refine ⟨x, ?_, Or.inl ⟨rfl, Iff.rfl⟩⟩
      rw [get_set hadv.worker, if_neg (Ne.symm hw0)]
      exact hx
  | false =>
    cases RunQueue.step_outside hstep hw with
    | nothing => exact ⟨x, hx, Or.inl ⟨rfl, Iff.rfl⟩⟩
    | enqueue henqueue _ =>
      obtain ⟨h, -, -, rfl⟩ := RunQueue.enqueue_cases henqueue
      exact ⟨x, hx, Or.inl ⟨rfl, Iff.rfl⟩⟩
    | suspend hv | start hv _ =>
      refine ⟨x, ?_, Or.inl ⟨rfl, Iff.rfl⟩⟩
      show (List.set _ _ _)[0]? = _
      rw [get_set hv, if_neg (Ne.symm (of_decide_eq_true ha))]
      exact hx

/-! ## The calls -/

/-- A call that has ended, with what its future ended with. -/
inductive Ended (s : BlockOn V E) (k : ℕ) : BlockOnCall V E → BlockingPoint → Prop where
  | returned {v : V} {w : ℕ} {nested : Bool} (h : ⟨k, w, nested, .ok v⟩ ∈ s.ended) :
      Ended s k ⟨some v, some (.ok v)⟩ .over
  | raised {e : E} (h : ⟨k, 0, false, .error (.other e)⟩ ∈ s.ended) :
      Ended s k ⟨none, some (.error e)⟩ .over

/-- How far the last call has got, with the in-place worker `x`. -/
inductive Last (s : BlockOn V E) (x : LoopWorker) (k : ℕ) :
    BlockOnCall V E → BlockingPoint → Prop where
  | awaiting (hflag : x.suspendFlag = false) (hp : x.point ≠ .stopped)
      (h : ∀ r ∈ s.ended, r.call ≠ k) : Last s x k ⟨none, none⟩ .awaiting
  | stored {v : V} {w : ℕ} {nested : Bool} (hflag : x.suspendFlag = false) (hp : x.point ≠ .stopped)
      (h : ⟨k, w, nested, .ok v⟩ ∈ s.ended) : Last s x k ⟨some v, none⟩ .stored
  | suspended {v : V} {w : ℕ} {nested : Bool} (hflag : x.suspendFlag = true) (hp : x.point ≠ .stopped)
      (h : ⟨k, w, nested, .ok v⟩ ∈ s.ended) : Last s x k ⟨some v, none⟩ .over
  | left {v : V} {w : ℕ} {nested : Bool} (hflag : x.suspendFlag = false) (hp : x.point = .stopped)
      (h : ⟨k, w, nested, .ok v⟩ ∈ s.ended) : Last s x k ⟨some v, none⟩ .over
  | cancelled {w : ℕ} {nested : Bool} (hflag : x.suspendFlag = false) (hp : x.point ≠ .stopped)
      (h : ⟨k, w, nested, .error .cancelException⟩ ∈ s.ended) : Last s x k ⟨none, none⟩ .over
  | died {e : E} {w : ℕ} {nested : Bool} (hflag : x.suspendFlag = false) (hp : x.point ≠ .stopped)
      (h : ⟨k, w, nested, .error (.other e)⟩ ∈ s.ended) (hw : ¬ (w = 0 ∧ nested = false))
      (hdead : s.dead = true) : Last s x k ⟨none, none⟩ .over
  | ended {c : BlockOnCall V E} {p : BlockingPoint} (hflag : x.suspendFlag = false)
      (hp : x.point = .stopped) (h : Ended s k c p) : Last s x k c p

structure Sound (s : BlockOn V E) (x : LoopWorker) : Prop where
  worker : s.inPlaceWorker = some x
  size : s.coroutines.length = s.calls.length
  past : ∀ (k : ℕ) c p, s.calls[k]? = some c → s.coroutines[k]? = some p → k + 1 < s.calls.length →
    Ended s k c p
  last : ∀ (k : ℕ) c p, s.calls[k]? = some c → s.coroutines[k]? = some p → k + 1 = s.calls.length →
    Last s x k c p
  idle : s.calls = [] → x.suspendFlag = false ∧ x.point = .stopped
  known : ∀ r ∈ s.ended, r.call < s.calls.length
  once : (s.ended.map BlockOnEnd.call).Nodup
  fault : s.fault = false

theorem Ended.mono (h : Ended s k c p) (hended : ∀ r ∈ s.ended, r ∈ s'.ended) : Ended s' k c p := by
  cases h with
  | returned h => exact .returned (hended _ h)
  | raised h => exact .raised (hended _ h)

theorem sound_init (n : ℕ) : ∃ x, Sound (init n : BlockOn V E) x := by
  refine ⟨⟨false, .stopped⟩, ?_, rfl, nofun, nofun, fun _ => ⟨rfl, rfl⟩, nofun, List.nodup_nil, rfl⟩
  simp [inPlaceWorker, init, RunQueue.goTo, RunQueue.init, List.replicate_succ]

/-- The call in progress is the last one. -/
theorem current_eq_some {j : ℕ} (h : s.current = some j) :
    ∃ c, s.calls[j]? = some c ∧ c.outcome = none ∧ j + 1 = s.calls.length := by
  unfold current at h
  split at h
  · rename_i c hc
    split at h
    · rename_i hnone
      obtain rfl := Option.some.inj h
      rw [List.getLast?_eq_getElem?] at hc
      have hlt := (List.getElem?_eq_some_iff.mp hc).1
      exact ⟨c, hc, Option.isNone_iff_eq_none.mp hnone, by omega⟩
    · cases h
  · cases h

theorem current_eq_none (h : s.current = none) (hk : s.calls[k]? = some c)
    (hlast : k + 1 = s.calls.length) : c.outcome ≠ none := by
  intro hnone
  have hget : s.calls.getLast? = some c := by
    rw [List.getLast?_eq_getElem?]
    rw [← hk]
    congr 1
    omega
  simp [current, hget, hnone] at h

/-- A coroutine that is not over belongs to the last call. -/
theorem Sound.active (hs : Sound s x) (hp : s.coroutines[k]? = some p) (hover : p ≠ .over) :
    ∃ c, s.calls[k]? = some c ∧ k + 1 = s.calls.length ∧ Last s x k c p := by
  have hlt : k < s.calls.length := by
    rw [← hs.size]
    exact (List.getElem?_eq_some_iff.mp hp).1
  have hk := List.getElem?_eq_getElem hlt
  by_cases hlast : k + 1 = s.calls.length
  · exact ⟨_, hk, hlast, hs.last k _ p hk hp hlast⟩
  · have hpast := hs.past k _ p hk hp (by omega)
    generalize s.calls[k] = call at hpast
    cases hpast <;> exact absurd rfl hover

/-- Only the last call and its coroutine change. -/
theorem Sound.update (hs : Sound s x) {c' : BlockOnCall V E} {p' : BlockingPoint}
    {l : List (BlockOnEnd V E)} (hk : s.calls[k]? = some c)
    (hlast : k + 1 = s.calls.length) (hworker : s'.inPlaceWorker = some y)
    (hcalls : s'.calls = s.calls.set k c') (hcoroutines : s'.coroutines = s.coroutines.set k p')
    (hended : s'.ended = s.ended ++ l) (hlog : ∀ r ∈ l, r.call = k)
    (honce : (s'.ended.map BlockOnEnd.call).Nodup) (hfault : s'.fault = false)
    (hlast' : Last s' y k c' p') : Sound s' y where
  worker := hworker
  size := by
    rw [hcalls, hcoroutines, List.length_set, List.length_set, hs.size]
  past := by
    intro j d q hj hq hlt
    rw [hcalls] at hj hlt
    rw [hcoroutines] at hq
    rw [List.length_set] at hlt
    have hjk : k ≠ j := by omega
    rw [List.getElem?_set_ne hjk] at hj hq
    refine (hs.past j d q hj hq hlt).mono fun r hr => ?_
    rw [hended]
    exact List.mem_append_left _ hr
  last := by
    intro j d q hj hq hjlast
    rw [hcalls, List.length_set] at hjlast
    obtain rfl : k = j := by omega
    rw [hcalls, get_set_self hk] at hj
    obtain rfl := Option.some.inj hj
    have hkq : k < s.coroutines.length := by
      rw [hs.size]
      omega
    rw [hcoroutines, List.getElem?_set_self hkq] at hq
    obtain rfl := Option.some.inj hq
    exact hlast'
  idle := by
    intro hnil
    rw [hcalls] at hnil
    have := congrArg List.length hnil
    rw [List.length_set] at this
    simp only [List.length_nil] at this
    omega
  known := by
    intro r hr
    rw [hcalls, List.length_set]
    rw [hended] at hr
    rcases List.mem_append.mp hr with hr | hr
    · exact hs.known r hr
    · rw [hlog r hr]
      omega
  once := honce
  fault := hfault

/-! ## The steps -/

theorem Last.keep (h : Last s x k c p) (hended : s'.ended = s.ended)
    (hdead : s.dead = true → s'.dead = true)
    (hxy : y.suspendFlag = x.suspendFlag ∧ (y.point = .stopped ↔ x.point = .stopped) ∨
      x.suspendFlag = true ∧ y.suspendFlag = false ∧ y.point = .stopped) : Last s' y k c p := by
  rcases hxy with ⟨hflag, hstopped⟩ | ⟨hset, hflag, hstopped⟩
  · cases h with
    | awaiting hf hp h =>
      exact .awaiting (hflag.trans hf) (fun hy => hp (hstopped.mp hy)) (by rw [hended]; exact h)
    | stored hf hp h =>
      exact .stored (hflag.trans hf) (fun hy => hp (hstopped.mp hy)) (by rw [hended]; exact h)
    | suspended hf hp h =>
      exact .suspended (hflag.trans hf) (fun hy => hp (hstopped.mp hy)) (by rw [hended]; exact h)
    | left hf hp h => exact .left (hflag.trans hf) (hstopped.mpr hp) (by rw [hended]; exact h)
    | cancelled hf hp h =>
      exact .cancelled (hflag.trans hf) (fun hy => hp (hstopped.mp hy)) (by rw [hended]; exact h)
    | died hf hp h hw hd =>
      exact .died (hflag.trans hf) (fun hy => hp (hstopped.mp hy)) (by rw [hended]; exact h) hw
        (hdead hd)
    | ended hf hp h =>
      exact .ended (hflag.trans hf) (hstopped.mpr hp) (h.mono fun r hr => by rw [hended]; exact hr)
  · -- the worker has found its flag set, so the coroutine has written the result
    cases h with
    | suspended _ _ h => exact .left hflag hstopped (by rw [hended]; exact h)
    | awaiting hf | stored hf | left hf | cancelled hf | died hf | ended hf =>
      rw [hset] at hf
      cases hf

theorem Sound.queue (hs : Sound s x) {a : QueueAction} {queue : RunQueue} (ha : outside a = true)
    (hstep : s.queue.step handleOf a = some queue) : ∃ y, Sound { s with queue := queue } y := by
  obtain ⟨y, hy, hxy⟩ := queue_inPlace ha hstep hs.worker
  refine ⟨y, hy, hs.size, fun k c p hk hp hlt => (hs.past k c p hk hp hlt).mono fun _ hr => hr,
    fun k c p hk hp hlast => (hs.last k c p hk hp hlast).keep rfl id hxy, fun hnil => ?_, hs.known,
    hs.once, hs.fault⟩
  obtain ⟨hflag, hstopped⟩ := hs.idle hnil
  rcases hxy with ⟨hflag', hstopped'⟩ | ⟨hset, -⟩
  · exact ⟨hflag'.trans hflag, hstopped'.mpr hstopped⟩
  · rw [hflag] at hset
    cases hset

theorem Sound.suspend (hs : Sound s x) (hstep : s.suspend w k = some s') : ∃ y, Sound s' y := by
  unfold BlockOn.suspend at hstep
  split at hstep
  · rename_i hguard
    obtain ⟨c, hk, hlast, hL⟩ := hs.active hguard.2 nofun
    obtain ⟨queue, hqueue, rfl⟩ := Option.map_eq_some_iff.mp hstep
    have hworker : s.queue.workers[0]? = some x := hs.worker
    simp only [RunQueue.suspend, hworker, Option.some.injEq] at hqueue
    subst hqueue
    refine ⟨{ x with suspendFlag := true }, ?_⟩
    cases hL with
    | stored _ hp h =>
      exact hs.update (l := []) hk hlast (get_set_self hworker _) (set_same hk).symm rfl
        (List.append_nil _).symm nofun hs.once hs.fault (.suspended rfl hp h)
    | ended _ _ h => cases h
  · cases hstep

theorem Sound.returns (hs : Sound s x) (hstep : s.returns = some s') : Sound s' x := by
  unfold BlockOn.returns at hstep
  split at hstep
  · rename_i x' j hx' hj
    obtain rfl : x = x' := Option.some.inj (hs.worker.symm.trans hx')
    obtain ⟨c, hk, hnone, hlast⟩ := current_eq_some hj
    split at hstep
    · rename_i hstopped
      have hp : j < s.coroutines.length := by
        rw [hs.size]
        omega
      have hpj := List.getElem?_eq_getElem hp
      have hL := hs.last j c _ hk hpj hlast
      generalize s.coroutines[j] = p at hpj hL
      rw [hk, Option.bind_some] at hstep
      cases hL with
      | left hflag _ h =>
        obtain rfl := Option.some.inj hstep
        exact hs.update (l := []) hk hlast hs.worker (modify_eq_set hk _) (set_same hpj).symm
          (List.append_nil _).symm nofun hs.once hs.fault (.ended hflag hstopped (.returned h))
      | awaiting _ hne | stored _ hne | suspended _ hne | cancelled _ hne | died _ hne =>
        exact absurd hstopped hne
      | ended _ _ h => cases h <;> cases hnone
    · cases hstep
  · cases hstep

theorem nodup_ended (hs : Sound s x) (hnone : ∀ r ∈ s.ended, r.call ≠ k) (r : BlockOnEnd V E)
    (hr : r.call = k) : ((s.ended ++ [r]).map BlockOnEnd.call).Nodup := by
  rw [List.map_append]
  refine List.Nodup.append hs.once (List.nodup_singleton _) ?_
  intro i hi hk
  obtain rfl := List.mem_singleton.mp hk
  obtain ⟨q, hq, hqr⟩ := List.mem_map.mp hi
  exact hnone q hq (hqr.trans hr)

theorem escape_cases {e : E} (hstep : s.escape w nested e = some s') :
    (w = 0 ∧ nested = false ∧ ∃ x j, s.inPlaceWorker = some x ∧ s.current = some j ∧
      s' = { s with
        queue := s.queue.goTo 0 x .stopped
        calls := s.calls.modify j fun call => { call with outcome := some (.error e) } }) ∨
    ¬ (w = 0 ∧ nested = false) ∧ s' = { s with dead := true } := by
  unfold escape at hstep
  split at hstep
  · rename_i hw
    refine Or.inl ⟨hw.1, hw.2, ?_⟩
    split at hstep
    · rename_i x j hx hj
      exact ⟨x, j, hx, hj, (Option.some.inj hstep).symm⟩
    · cases hstep
  · rename_i hw
    exact Or.inr ⟨hw, (Option.some.inj hstep).symm⟩

theorem Sound.complete (hs : Sound s x) {r : Except (Thrown E) V}
    (hstep : s.complete w k nested r = some s') : ∃ y, Sound s' y := by
  unfold BlockOn.complete at hstep
  split at hstep
  · rename_i hguard
    obtain ⟨c, hk, hlast, hL⟩ := hs.active hguard.2 nofun
    cases hL with
    | ended _ _ h => cases h
    | awaiting hflag hp hnone =>
      have honce := nodup_ended hs hnone ⟨k, w, nested, r⟩ rfl
      have hmem : ⟨k, w, nested, r⟩ ∈ s.ended ++ [⟨k, w, nested, r⟩] :=
        List.mem_append_right _ (List.mem_singleton_self _)
      have hlog : ∀ q ∈ [(⟨k, w, nested, r⟩ : BlockOnEnd V E)], q.call = k := by simp
      match r with
      | .ok v =>
        obtain rfl := Option.some.inj hstep
        refine ⟨x, hs.update hk hlast hs.worker (modify_eq_set hk _) rfl rfl hlog honce ?_
          (.stored hflag hp hmem)⟩
        simp [store, hs.fault, hk]
      | .error .cancelException =>
        obtain rfl := Option.some.inj hstep
        exact ⟨x, hs.update hk hlast hs.worker (set_same hk).symm rfl rfl hlog honce hs.fault
          (.cancelled hflag hp hmem)⟩
      | .error (.other e) =>
        rcases escape_cases hstep with ⟨rfl, rfl, x', j, hx', hj, rfl⟩ | ⟨hw, rfl⟩
        · -- the exception leaves the call that is in progress, and that is the one of the future
          obtain rfl : x = x' := Option.some.inj (hs.worker.symm.trans hx')
          obtain ⟨-, -, -, hj⟩ := current_eq_some hj
          obtain rfl : k = j := by
            simp only at hj
            omega
          exact ⟨{ x with point := .stopped }, hs.update hk hlast (get_set_self hs.worker _)
            (modify_eq_set hk _) rfl rfl hlog honce hs.fault (.ended hflag rfl (.raised hmem))⟩
        · exact ⟨x, hs.update hk hlast hs.worker (set_same hk).symm rfl rfl hlog honce hs.fault
            (.died hflag hp hmem hw rfl)⟩
  · cases hstep

/-- When no call is in progress, all calls have ended and the in-place worker is out of its loop. -/
theorem Sound.free (hs : Sound s x) (hcurrent : s.current = none) :
    (x.suspendFlag = false ∧ x.point = .stopped) ∧
      ∀ (k : ℕ) c p, s.calls[k]? = some c → s.coroutines[k]? = some p → Ended s k c p := by
  have hlast : ∀ (k : ℕ) c p, s.calls[k]? = some c → s.coroutines[k]? = some p →
      k + 1 = s.calls.length → (x.suspendFlag = false ∧ x.point = .stopped) ∧ Ended s k c p := by
    intro k c p hk hp hlast
    have hover := current_eq_none hcurrent hk hlast
    cases hs.last k c p hk hp hlast with
    | ended hflag hstopped h => exact ⟨⟨hflag, hstopped⟩, h⟩
    | awaiting | stored | suspended | left | cancelled | died => exact absurd rfl hover
  constructor
  · cases hcalls : s.calls with
    | nil => exact hs.idle hcalls
    | cons call calls =>
      have hlen : calls.length < s.calls.length := by
        rw [hcalls]
        exact Nat.lt_succ_self _
      have hk := List.getElem?_eq_getElem hlen
      have hp := List.getElem?_eq_getElem (hs.size.symm ▸ hlen : calls.length < s.coroutines.length)
      exact (hlast _ _ _ hk hp (by rw [hcalls]; rfl)).1
  · intro k c p hk hp
    by_cases hkl : k + 1 = s.calls.length
    · exact (hlast k c p hk hp hkl).2
    · have := (List.getElem?_eq_some_iff.mp hk).1
      exact hs.past k c p hk hp (by omega)

theorem blockOn_cases (hs : s.inPlaceWorker = some x) (hstep : s.blockOn = some s') :
    s.current = none ∧ ∃ queue, queue.workers[0]? = some { x with point := .head } ∧
      s' = { s with
        queue := queue
        calls := s.calls ++ [⟨none, none⟩]
        coroutines := s.coroutines ++ [.awaiting] } := by
  unfold BlockOn.blockOn at hstep
  split at hstep
  · rename_i hcurrent
    refine ⟨hcurrent, ?_⟩
    split at hstep
    · rename_i queue hspawn
      obtain ⟨queue', hstart, rfl⟩ := Option.map_eq_some_iff.mp hstep
      refine ⟨queue', ?_, rfl⟩
      have hworker : queue.workers[0]? = some x := by
        obtain ⟨h, -, -, rfl⟩ := RunQueue.enqueue_cases hspawn
        exact hs
      simp only [RunQueue.start, hworker] at hstart
      obtain ⟨-, rfl⟩ := eq_of_guard hstart
      exact get_set_self hworker _
    · cases hstep
  · cases hstep

theorem Sound.blockOn (hs : Sound s x) (hstep : s.blockOn = some s') : ∃ y, Sound s' y := by
  obtain ⟨hcurrent, queue, hworker, rfl⟩ := blockOn_cases hs.worker hstep
  obtain ⟨⟨hflag, hstopped⟩, hended⟩ := hs.free hcurrent
  refine ⟨{ x with point := .head }, hworker, ?_, ?_, ?_, ?_, ?_, hs.once, hs.fault⟩
  · simp [hs.size]
  · intro k c p hk hp hlt
    have hlt' : k < s.calls.length := by
      rw [List.length_append] at hlt
      exact Nat.lt_of_succ_lt_succ hlt
    rw [List.getElem?_append_left hlt'] at hk
    rw [List.getElem?_append_left (hs.size.symm ▸ hlt')] at hp
    exact (hended k c p hk hp).mono fun _ hr => hr
  · intro k c p hk hp hlast
    obtain rfl : k = s.calls.length := by
      rw [List.length_append] at hlast
      exact Nat.succ.inj hlast
    have hp' : (s.coroutines ++ [BlockingPoint.awaiting])[s.coroutines.length]? = some p :=
      hs.size.symm ▸ hp
    rw [List.getElem?_concat_length] at hk hp'
    obtain rfl := Option.some.inj hk
    obtain rfl := Option.some.inj hp'
    exact .awaiting hflag nofun fun r hr => Nat.ne_of_lt (hs.known r hr)
  · intro hnil
    simp at hnil
  · intro r hr
    have := hs.known r hr
    simp only [List.length_append]
    omega

/-- The process ends with an exception of another coroutine. -/
theorem Sound.die (hs : Sound s x) : Sound { s with dead := true } x where
  worker := hs.worker
  size := hs.size
  past k c p hk hp hlt := (hs.past k c p hk hp hlt).mono fun _ hr => hr
  last k c p hk hp hlast :=
    (hs.last k c p hk hp hlast).keep rfl (fun _ => rfl) (Or.inl ⟨rfl, Iff.rfl⟩)
  idle := hs.idle
  known := hs.known
  once := hs.once
  fault := hs.fault

theorem act_sound {a : BlockOnAction V E} (hs : Sound s x) (ha : calm a = true)
    (hstep : s.act handleOf a = some s') : ∃ x, Sound s' x := by
  cases a with
  | blockOn => exact hs.blockOn hstep
  | complete w k nested r => exact hs.complete hstep
  | suspend w k => exact hs.suspend hstep
  | returns => exact ⟨x, hs.returns hstep⟩
  | throws w nested e =>
    have hthrows : s.throws w nested e = some s' := hstep
    unfold BlockOn.throws at hthrows
    split at hthrows
    · rcases escape_cases hthrows with ⟨rfl, rfl, -⟩ | ⟨-, rfl⟩
      · cases ha
      · exact ⟨x, hs.die⟩
    · cases hthrows
  | queue a =>
    have hqueue : (if outside a then (s.queue.step handleOf a).map fun queue =>
        { s with queue := queue } else none) = some s' := hstep
    split at hqueue
    · rename_i hout
      obtain ⟨queue, hq, rfl⟩ := Option.map_eq_some_iff.mp hqueue
      exact hs.queue hout hq
    · cases hqueue

theorem step_sound {a : BlockOnAction V E} (hs : ∃ x, Sound s x) (ha : calm a = true)
    (hstep : s.step handleOf a = some s') : ∃ x, Sound s' x := by
  obtain ⟨x, hs⟩ := hs
  unfold step at hstep
  split at hstep
  · cases hstep
  · exact act_sound hs ha hstep

theorem Sound.call (hs : Sound s x) (hk : s.calls[k]? = some c) :
    ∃ p, s.coroutines[k]? = some p ∧ (Ended s k c p ∨ Last s x k c p) := by
  have hlt := (List.getElem?_eq_some_iff.mp hk).1
  have hp := List.getElem?_eq_getElem (hs.size.symm ▸ hlt : k < s.coroutines.length)
  refine ⟨_, hp, ?_⟩
  by_cases hlast : k + 1 = s.calls.length
  · exact Or.inr (hs.last k c _ hk hp hlast)
  · exact Or.inl (hs.past k c _ hk hp (by omega))

/-! ## The result of a call -/

/-- The way from the value `v` to the end of its call: `blocking_future` is about to call `suspend`,
or the flag is set, or the loop has ended with the value in place. -/
def OnItsWay (s : BlockOn V E) (k : ℕ) (c : BlockOnCall V E) (v : V) : Prop :=
  s.coroutines[k]? = some .stored ∨
  ∃ x, s.inPlaceWorker = some x ∧ (x.suspendFlag = true ∨ x.point = .stopped ∧ c.result = some v)

/-- What the end of a future means for the call `c` that awaits it. -/
def Answers (s : BlockOn V E) (c : BlockOnCall V E) (r : BlockOnEnd V E) : Prop :=
  match r.result with
  | .ok v => c.outcome = some (.ok v) ∨ c.outcome = none ∧ s.OnItsWay r.call c v
  | .error .cancelException => c.outcome = none
  | .error (.other e) =>
    if r.worker = 0 ∧ r.nested = false then c.outcome = some (.error e)
    else c.outcome = none ∧ s.dead = true

/-- A future ends once. -/
theorem Sound.unique (hs : Sound s x) {q r : BlockOnEnd V E} (hq : q ∈ s.ended) (hr : r ∈ s.ended)
    (hcall : q.call = r.call) : q = r :=
  List.inj_on_of_nodup_map hs.once hq hr hcall

theorem Ended.answers (hs : Sound s x) {r : BlockOnEnd V E} (hr : r ∈ s.ended)
    (h : Ended s r.call c p) : s.Answers c r := by
  generalize hk : r.call = k at h
  cases h with
  | returned h =>
    obtain rfl := hs.unique h hr hk.symm
    exact Or.inl rfl
  | raised h =>
    obtain rfl := hs.unique h hr hk.symm
    simp only [Answers, true_and, if_true]

theorem Last.answers (hs : Sound s x) {r : BlockOnEnd V E} (hr : r ∈ s.ended)
    (hp : s.coroutines[r.call]? = some p) (h : Last s x r.call c p) : s.Answers c r := by
  generalize hk : r.call = k at h hp
  cases h with
  | awaiting _ _ h => exact absurd hk (h r hr)
  | stored _ _ h =>
    obtain rfl := hs.unique h hr hk.symm
    exact Or.inr ⟨rfl, Or.inl hp⟩
  | suspended hflag _ h =>
    obtain rfl := hs.unique h hr hk.symm
    exact Or.inr ⟨rfl, Or.inr ⟨x, hs.worker, Or.inl hflag⟩⟩
  | left _ hstopped h =>
    obtain rfl := hs.unique h hr hk.symm
    exact Or.inr ⟨rfl, Or.inr ⟨x, hs.worker, Or.inr ⟨hstopped, rfl⟩⟩⟩
  | cancelled _ _ h =>
    obtain rfl := hs.unique h hr hk.symm
    rfl
  | died _ _ h hw hdead =>
    obtain rfl := hs.unique h hr hk.symm
    simp only [Answers, if_neg hw]
    exact ⟨trivial, hdead⟩
  | ended _ _ h =>
    subst hk
    exact h.answers hs hr

theorem Ended.answered (h : Ended s k c p) : ∃ r ∈ s.ended, r.call = k := by
  cases h with
  | returned h | raised h => exact ⟨_, h, rfl⟩

theorem Last.answered (h : Last s x k c p) (hover : c.outcome ≠ none) :
    ∃ r ∈ s.ended, r.call = k := by
  cases h with
  | ended _ _ h => exact h.answered
  | awaiting | stored | suspended | left | cancelled | died => exact absurd rfl hover

/-- `block_on`, as long as no exception of another coroutine leaves it. No call reads an empty
`result`, and none is written after its call. A call ends only after its own future. If that one ends
with a value, the call returns it, or the way there is still open. If it was cancelled, the call does
not end. If it ends with another exception, the call throws it, provided the future has ended on the
in-place worker and with no `await_suspend` on the stack; in every other turn the process ends. -/
theorem block_on_own_result (handleOf : ℕ → ℕ) (n : ℕ) (as : List (BlockOnAction V E))
    (s : BlockOn V E) (hcalm : ∀ a ∈ as, calm a = true)
    (hrun : run (step handleOf) (init n) as = some s) :
    s.fault = false ∧
    (∀ (k : ℕ) c, s.calls[k]? = some c → c.outcome ≠ none → ∃ r ∈ s.ended, r.call = k) ∧
    ∀ r ∈ s.ended, ∃ c, s.calls[r.call]? = some c ∧ s.Answers c r := by
  have halong : Along (step handleOf) (fun _ a => calm a = true) (init n) as := along_of_actions hcalm
  obtain ⟨x, hs⟩ : ∃ x, Sound s x :=
    run_invariant_along (I := fun s => ∃ x, Sound s x) (G := fun _ a => calm a = true)
      (fun _ _ _ hs ha hstep => step_sound hs ha hstep) (sound_init n) halong hrun
  refine ⟨hs.fault, fun k c hk hover => ?_, fun r hr => ?_⟩
  · obtain ⟨p, -, h | h⟩ := hs.call hk
    · exact h.answered
    · exact h.answered hover
  · have hk := List.getElem?_eq_getElem (hs.known r hr)
    refine ⟨_, hk, ?_⟩
    obtain ⟨p, hp, h | h⟩ := hs.call hk
    · exact h.answers hs hr
    · exact h.answers hs hr hp

/-- The other worker runs `blocking_future`, and the in-place worker finds its flag set. -/
theorem block_on_own_result_run :
    ∃ s : BlockOn ℕ ℕ, run (step id) (init 1)
      ([.blockOn] ++ List.replicate 8 (.queue (.worker 1 true)) ++
        [.complete 1 0 true (.ok 5), .suspend 1 0, .queue (.worker 0 true), .returns]) = some s ∧
      s.calls = [⟨some 5, some (.ok 5)⟩] ∧ ∃ r ∈ s.ended, r.call = 0 := by
  obtain ⟨s, hrun, hcalls⟩ : ∃ s : BlockOn ℕ ℕ, run (step id) (init 1)
      ([.blockOn] ++ List.replicate 8 (.queue (.worker 1 true)) ++
        [.complete 1 0 true (.ok 5), .suspend 1 0, .queue (.worker 0 true), .returns]) = some s ∧
      s.calls = [⟨some 5, some (.ok 5)⟩] := exists_run (by decide)
  refine ⟨s, hrun, hcalls, ?_⟩
  exact (block_on_own_result id 1 _ s (by decide) hrun).2.1 0 ⟨some 5, some (.ok 5)⟩
    (by rw [hcalls]; rfl) nofun

/-- The future throws before it has suspended, and the process ends in the loop of `block_on`. -/
example : ∃ s : BlockOn ℕ ℕ, run (step id) (init 0)
    ([.blockOn] ++ List.replicate 8 (.queue (.worker 0 true)) ++
      [.complete 0 0 true (.error (.other 3))]) = some s ∧
    s.calls = [⟨none, none⟩] ∧ s.dead = true :=
  exists_run (by decide)

/-- `Driver::poll` throws in the loop of the first call of `block_on`. Its future ends in the loop of
the second call, and `blocking_future` writes to a variable that is not there any more. -/
example : ∃ s : BlockOn ℕ ℕ, run (step id) (init 0)
    ([.blockOn] ++ List.replicate 12 (.queue (.worker 0 true)) ++
      [.throws 0 false 3, .queue (.wake 9), .blockOn] ++
      List.replicate 8 (.queue (.worker 0 true)) ++ [.complete 0 0 false (.ok 5)]) = some s ∧
    s.fault = true :=
  exists_run (by decide)

end Xyco.Runtime.BlockOn
