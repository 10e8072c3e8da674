import Mathlib.Algebra.BigOperators.Group.List.Basic
import Xyco.Runtime.Proofs.RunQueueOrderProofs

/-!
# Proofs: the run queue

An entry that was taken is with one worker until it is resumed or refused. Together with the order of
the entries this says what the queue is for.
-/

namespace Xyco.Runtime.RunQueue

open Machine Table

variable {handleOf : ℕ → ℕ} {s s' : RunQueue} {a : QueueAction} {w q i n : ℕ} {ok : Bool}
variable {x y : LoopWorker} {h h' : Handles} {entry : QueueEntry}

/-- What was taken out of the queue `q`. -/
def takenOf (s : RunQueue) (q : ℕ) : List (ℕ × QueueEntry) := s.queues[q]?.elim [] Handles.taken

/-- How many workers have the entry number `i` of the queue `q` before them. -/
def polling (s : RunQueue) (q i : ℕ) : ℕ := (s.workers.map fun x => x.point.polls q i).sum

structure Accounted (s : RunQueue) : Prop where
  once : ∀ q i, s.polling q i + s.resumed.count (q, i) + s.refused.count (q, i) =
    if i < (s.takenOf q).length then 1 else 0
  own : ∀ (w : ℕ) x, s.workers[w]? = some x → ∀ q i entry, x.point = .poll q i entry →
    (s.takenOf q)[i]? = some (w, entry)

theorem takenOf_set (hq : s.queues[q]? = some h) (hqueues : s'.queues = s.queues.set q h') (r : ℕ) :
    s'.takenOf r = if r = q then h'.taken else s.takenOf r := by
  unfold takenOf
  rw [hqueues]
  exact elim_set hq _ _ h' r

theorem takenOf_eq (hq : s.queues[q]? = some h) : s.takenOf q = h.taken := by
  rw [takenOf, hq, Option.elim_some]

/-- A change of a queue that leaves its log alone. -/
theorem takenOf_same {t : RunQueue} (hq : s.queues[q]? = some h)
    (hqueues : t.queues = s.queues.set q h') (htaken : h'.taken = h.taken) (r : ℕ) :
    t.takenOf r = s.takenOf r := by
  unfold takenOf
  rw [hqueues]
  exact elim_set_same hq htaken _ r

theorem polling_set (hx : s.workers[w]? = some x) (hworkers : s'.workers = s.workers.set w y)
    (q i : ℕ) : s'.polling q i + x.point.polls q i = s.polling q i + y.point.polls q i := by
  unfold polling
  rw [hworkers]
  exact sum_map_set hx _ y

theorem polls_of_quiet {p : LoopPoint} (hp : p.quiet = true) : p.polls q i = 0 := by
  cases p <;> first | rfl | cases hp

theorem accounted_init : Accounted (init n) := by
  have htaken : ∀ q, (init n).takenOf q = [] := by
    intro q
    unfold takenOf
    cases hq : (init n).queues[q]? with
    | none => rfl
    | some h =>
      obtain rfl := List.eq_of_mem_replicate (List.mem_of_getElem? hq)
      rfl
  constructor
  · intro q i
    rw [htaken]
    simp [polling, init, LoopPoint.polls]
  · intro w x hx q i entry hp
    obtain rfl := List.eq_of_mem_replicate (List.mem_of_getElem? hx)
    cases hp

/-- A worker moves on, and no entry is taken, resumed or refused. -/
theorem Accounted.of_worker (ha : Accounted s) (hx : s.workers[w]? = some x)
    (hworkers : s'.workers = s.workers.set w y) (htaken : ∀ q, s'.takenOf q = s.takenOf q)
    (hresumed : s'.resumed = s.resumed) (hrefused : s'.refused = s.refused)
    (hpolls : ∀ q i, y.point.polls q i = x.point.polls q i)
    (hy : ∀ q i entry, y.point = .poll q i entry → x.point = .poll q i entry) : Accounted s' := by
  constructor
  · intro q i
    have honce := ha.once q i
    have hset := polling_set hx hworkers q i
    rw [hpolls] at hset
    rw [htaken, hresumed, hrefused]
    omega
  · rw [hworkers]
    apply forall_set
    · intro v z hz q i entry hp
      rw [htaken]
      exact ha.own v z hz q i entry hp
    · intro q i entry hp
      rw [htaken]
      exact ha.own w x hx q i entry (hy q i entry hp)

theorem enqueue_accounted (ha : Accounted s) (hstep : s.enqueue q entry = some s') :
    Accounted s' := by
  obtain ⟨h, hq, -, rfl⟩ := enqueue_cases hstep
  have htaken := takenOf_same (s := s) hq (t := s.setQueue q
    { h with entries := entry :: h.entries, enqueued := h.enqueued ++ [entry] }) rfl rfl
  constructor
  · intro r i
    rw [htaken]
    exact ha.once r i
  · intro w x hx r i e hp
    rw [htaken]
    exact ha.own w x hx r i e hp

theorem take_accounted (ha : Accounted s) (hx : s.workers[w]? = some x)
    (hpx : x.point = .pop q entry) (hq : s.queues[q]? = some h)
    (hworkers : s'.workers = s.workers.set w { x with point := .poll q h.taken.length entry })
    (hqueues : s'.queues = s.queues.set q h') (htaken : h'.taken = h.taken ++ [(w, entry)])
    (hresumed : s'.resumed = s.resumed) (hrefused : s'.refused = s.refused) : Accounted s' := by
  have hlog : ∀ r, s'.takenOf r = if r = q then h.taken ++ [(w, entry)] else s.takenOf r := by
    intro r
    rw [takenOf_set hq hqueues, htaken]
  constructor
  · intro r i
    have honce := ha.once r i
    have hset := polling_set hx hworkers r i
    have hold : x.point.polls r i = 0 := by
      rw [hpx]
      rfl
    have hnew : LoopPoint.polls r i (.poll q h.taken.length entry) =
        if (q, h.taken.length) = (r, i) then 1 else 0 := rfl
    rw [hold, hnew] at hset
    rw [hresumed, hrefused, hlog]
    by_cases hrq : r = q
    · subst hrq
      rw [takenOf_eq hq] at honce
      rw [if_pos rfl, List.length_append, List.length_singleton]
      simp only [Prod.mk.injEq, true_and] at hset
      split at hset <;> split at honce <;> split <;> omega
    · rw [if_neg fun heq => hrq (Prod.mk.inj heq).1.symm] at hset
      rw [if_neg hrq]
      omega
  · intro v z hz r i e hpz
    rw [hworkers, get_set hx] at hz
    split at hz
    · rename_i hvw
      obtain rfl := Option.some.inj hz
      cases hpz
      rw [hlog, if_pos rfl, hvw, get_concat, if_pos rfl]
    · have hold := ha.own v z hz r i e hpz
      rw [hlog]
      split
      · rename_i hrq
        rw [hrq, takenOf_eq hq] at hold
        obtain ⟨hi, -⟩ := List.getElem?_eq_some_iff.mp hold
        rw [List.getElem?_append_left hi]
        exact hold
      · exact hold

/-- The entry that a worker has before it is resumed or refused. -/
theorem Accounted.settle (ha : Accounted s) (hx : s.workers[w]? = some x)
    (hpx : x.point = .poll q i entry) (hworkers : s'.workers = s.workers.set w y)
    (hy : y.point.quiet = true) (hqueues : s'.queues = s.queues)
    (hcount : ∀ p, s'.resumed.count p + s'.refused.count p =
      s.resumed.count p + s.refused.count p + if (q, i) = p then 1 else 0) : Accounted s' := by
  have htaken : ∀ r, s'.takenOf r = s.takenOf r := fun r => by rw [takenOf, takenOf, hqueues]
  constructor
  · intro r j
    have honce := ha.once r j
    have hset := polling_set hx hworkers r j
    have hpair := hcount (r, j)
    have hold : x.point.polls r j = if (q, i) = (r, j) then 1 else 0 := by
      rw [hpx]
      rfl
    rw [hold, polls_of_quiet hy] at hset
    rw [htaken]
    omega
  · rw [hworkers]
    apply forall_set
    · intro v z hz r j e hp
      rw [htaken]
      exact ha.own v z hz r j e hp
    · intro r j e hp
      rw [hp] at hy
      cases hy

theorem turn_accounted (ha : Accounted s) (hx : s.workers[w]? = some x)
    (hturn : Turn s w x ok s') : Accounted s' := by
  cases hturn with
  | move hpx hpy _ =>
    refine ha.of_worker hx rfl (fun _ => rfl) rfl rfl (fun q i => ?_) fun q i entry hp => ?_
    · rw [polls_of_quiet hpx, polls_of_quiet hpy]
    · rw [hp] at hpy
      cases hpy
  | lock hpx hq _ =>
    refine ha.of_worker hx rfl (takenOf_same hq rfl rfl) rfl rfl (fun q i => ?_) nofun
    rw [polls_of_quiet hpx]
    rfl
  | read hpx _ _ =>
    refine ha.of_worker hx rfl (fun _ => rfl) rfl rfl (fun q i => ?_) nofun
    rw [hpx]
    rfl
  | unlock hpx hq =>
    refine ha.of_worker hx rfl (takenOf_same hq rfl rfl) rfl rfl (fun q i => ?_) nofun
    rw [hpx]
    rfl
  | take hpx hq => exact take_accounted ha hx hpx hq rfl rfl rfl rfl rfl
  | resume hpx _ =>
    refine ha.settle hx hpx rfl rfl rfl fun p => ?_
    show (s.resumed ++ [_]).count p + s.refused.count p = _
    rw [count_concat]
    omega
  | refuse hpx _ =>
    refine ha.settle hx hpx rfl rfl rfl fun p => ?_
    show s.resumed.count p + (s.refused ++ [_]).count p = _
    rw [count_concat]
    omega

theorem step_accounted (ha : Accounted s) (hstep : s.step handleOf a = some s') : Accounted s' := by
  obtain rfl | ⟨q, entry, henqueue⟩ | ⟨w, x, ok, hx, hturn⟩ | ⟨w, x, y, hx, rfl, hp⟩ :=
    step_cases hstep
  · exact ha
  · exact enqueue_accounted ha henqueue
  · exact turn_accounted ha hx hturn
  · refine ha.of_worker hx rfl (fun _ => rfl) rfl rfl (fun q i => ?_) fun q i entry hpy => ?_
    · rcases hp with hp | ⟨hpx, hpy⟩
      · rw [hp]
      · rw [hpx, hpy]
        rfl
    · rcases hp with hp | ⟨-, hhead⟩
      · exact hp.symm.trans hpy
      · rw [hpy] at hhead
        cases hhead

end Xyco.Runtime.RunQueue
