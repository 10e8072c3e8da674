import Xyco.Machine.Lock
import Xyco.Runtime.RunQueue

/-!
# Proofs: the order of the run queue

The worker that holds the mutex of a queue is the only one that can change it, so the entry it has
read is still the last one when it removes it. What was put into a queue is then what was taken out
of it, followed by what is in it.
-/

namespace Xyco.Runtime

namespace LoopPoint

/-- The mutex of the queue `q` is held. -/
def holds (q : ℕ) : LoopPoint → Bool
  | .drain r | .pop r _ => decide (r = q)
  | _ => false

/-- The entry number `i` taken from the queue `q` is neither resumed nor refused yet. -/
def polls (q i : ℕ) : LoopPoint → ℕ
  | .poll r j _ => if (r, j) = (q, i) then 1 else 0
  | _ => 0

/-- The entry of the queue `q` that the worker has taken and is not done with. -/
def job (q : ℕ) : LoopPoint → Option QueueEntry
  | .poll r _ entry | .resume r entry => if r = q then some entry else none
  | _ => none

/-- The points without a mutex and without an entry that is neither resumed nor refused. -/
def quiet : LoopPoint → Bool
  | .drain _ | .pop _ _ | .poll _ _ _ => false
  | _ => true

end LoopPoint

namespace RunQueue

open Machine Table

variable {handleOf : ℕ → ℕ} {s s' : RunQueue} {a : QueueAction} {w q r n : ℕ} {ok : Bool}
variable {x y : LoopWorker} {h h' : Handles} {entry : QueueEntry}

/-! ## What one step does -/

/-- What a worker does from the point of `x`. -/
inductive Turn (s : RunQueue) (w : ℕ) (x : LoopWorker) (ok : Bool) : RunQueue → Prop where
  | move {y : LoopWorker} (hx : x.point.quiet = true) (hy : y.point.quiet = true)
      (hidle : ∀ q, y.point.job q = none) :
      Turn s w x ok { s with workers := s.workers.set w y }
  | lock {q : ℕ} {h : Handles} (hx : x.point.quiet = true) (hq : s.queues[q]? = some h)
      (hfree : h.lock = none) :
      Turn s w x ok ((s.setQueue q { h with lock := some w }).goTo w x (.drain q))
  | read {q : ℕ} {h : Handles} {entry : QueueEntry} (hx : x.point = .drain q)
      (hq : s.queues[q]? = some h) (hlast : h.entries.getLast? = some entry) :
      Turn s w x ok (s.goTo w x (.pop q entry))
  | unlock {q : ℕ} {h : Handles} (hx : x.point = .drain q) (hq : s.queues[q]? = some h) :
      Turn s w x ok ((s.setQueue q { h with lock := none }).goTo w x (.check q))
  | take {q : ℕ} {h : Handles} {entry : QueueEntry} (hx : x.point = .pop q entry)
      (hq : s.queues[q]? = some h) :
      Turn s w x ok ((s.setQueue q
        { h with
          entries := h.entries.dropLast
          lock := none
          taken := h.taken ++ [(w, entry)] }).goTo w x (.poll q h.taken.length entry))
  | resume {q i : ℕ} {entry : QueueEntry} (hx : x.point = .poll q i entry)
      (hready : entry.future = none ∨ ok = true) :
      Turn s w x ok ({ s with resumed := s.resumed ++ [(q, i)] }.goTo w x (.resume q entry))
  | refuse {q i : ℕ} {entry : QueueEntry} (hx : x.point = .poll q i entry)
      (hready : ¬ (entry.future = none ∨ ok = true)) :
      Turn s w x ok ({ s with refused := s.refused ++ [(q, i)] }.goTo w x (.relock q))

theorem runWorker_cases (hstep : s.runWorker w ok = some s') :
    ∃ x, s.workers[w]? = some x ∧ Turn s w x ok s' := by
  unfold runWorker at hstep
  split at hstep
  · cases hstep
  · rename_i x hx
    refine ⟨x, hx, ?_⟩
    split at hstep
    · rename_i hp
      split at hstep
      · obtain rfl := Option.some.inj hstep
        exact .move (by rw [hp]; rfl) rfl fun _ => rfl
      · obtain rfl := Option.some.inj hstep
        exact .move (by rw [hp]; rfl) rfl fun _ => rfl
    · rename_i q hp
      split at hstep
      · cases hstep
      · rename_i h hq
        split at hstep
        · rename_i hfree
          obtain rfl := Option.some.inj hstep
          exact .lock (by rw [hp]; rfl) hq hfree.1
        · obtain rfl := Option.some.inj hstep
          exact .move (by rw [hp]; rfl) rfl fun _ => rfl
    · rename_i q hp
      split at hstep
      · cases hstep
      · rename_i h hq
        split at hstep
        · rename_i entry hlast
          obtain rfl := Option.some.inj hstep
          exact .read hp hq hlast
        · obtain rfl := Option.some.inj hstep
          exact .unlock hp hq
    · rename_i q entry hp
      split at hstep
      · cases hstep
      · rename_i h hq
        obtain rfl := Option.some.inj hstep
        exact .take hp hq
    · rename_i q i entry hp
      split at hstep
      · rename_i hready
        obtain rfl := Option.some.inj hstep
        exact .resume hp hready
      · rename_i hready
        obtain rfl := Option.some.inj hstep
        exact .refuse hp hready
    · rename_i q entry hp
      obtain rfl := Option.some.inj hstep
      exact .move (by rw [hp]; rfl) rfl fun _ => rfl
    · rename_i q hp
      split at hstep
      · cases hstep
      · rename_i h hq
        obtain ⟨hfree, rfl⟩ := eq_of_guard hstep
        exact .lock (by rw [hp]; rfl) hq hfree
    · rename_i q hp
      have hquiet : x.point.quiet = true := by
        rw [hp]
        rfl
      split at hstep
      · obtain rfl := Option.some.inj hstep
        exact .move hquiet rfl fun _ => rfl
      · split at hstep
        · obtain rfl := Option.some.inj hstep
          exact .move hquiet rfl fun _ => rfl
        · obtain rfl := Option.some.inj hstep
          exact .move hquiet rfl fun _ => rfl
    · rename_i hp
      obtain rfl := Option.some.inj hstep
      exact .move (by rw [hp]; rfl) rfl fun _ => rfl
    · cases hstep

theorem enqueue_cases (hstep : s.enqueue q entry = some s') :
    ∃ h, s.queues[q]? = some h ∧ h.lock = none ∧ s' = s.setQueue q
      { h with entries := entry :: h.entries, enqueued := h.enqueued ++ [entry] } := by
  unfold enqueue at hstep
  split at hstep
  · cases hstep
  · rename_i h hq
    obtain ⟨hfree, rfl⟩ := eq_of_guard hstep
    exact ⟨h, hq, hfree, rfl⟩

/-- An action puts an entry into a queue, or lets a worker go on, or changes the flag or an idle point
of a worker. -/
theorem step_cases (hstep : s.step handleOf a = some s') :
    s' = s ∨ (∃ q entry, s.enqueue q entry = some s') ∨
    (∃ w x ok, s.workers[w]? = some x ∧ Turn s w x ok s') ∨
    ∃ w x y, s.workers[w]? = some x ∧ s' = { s with workers := s.workers.set w y } ∧
      (y.point = x.point ∨ x.point = .stopped ∧ y.point = .head) := by
  cases a with
  | spawnImpl handle =>
    cases handle with
    | none => exact Or.inl (Option.some.inj hstep).symm
    | some handle => exact Or.inr (Or.inl ⟨_, _, hstep⟩)
  | registerFuture f => exact Or.inr (Or.inl ⟨_, _, hstep⟩)
  | wake f => exact Or.inr (Or.inl ⟨_, _, hstep⟩)
  | wakeLocal w f => exact Or.inr (Or.inl ⟨_, _, hstep⟩)
  | worker w ok =>
    obtain ⟨x, hx, hturn⟩ := runWorker_cases hstep
    exact Or.inr (Or.inr (Or.inl ⟨w, x, ok, hx, hturn⟩))
  | suspend w =>
    have hsuspend : s.suspend w = some s' := hstep
    unfold suspend at hsuspend
    split at hsuspend
    · cases hsuspend
    · rename_i x hx
      exact Or.inr (Or.inr (Or.inr ⟨w, x, _, hx, (Option.some.inj hsuspend).symm, Or.inl rfl⟩))
  | start w =>
    have hstart : s.start w = some s' := hstep
    unfold start at hstart
    split at hstart
    · cases hstart
    · rename_i x hx
      obtain ⟨hp, rfl⟩ := eq_of_guard hstart
      exact Or.inr (Or.inr (Or.inr ⟨w, x, _, hx, rfl, Or.inr ⟨hp, rfl⟩⟩))

/-! ## The mutexes -/

/-- The worker `w` holds the mutex of the queue `q`. -/
def Holds (s : RunQueue) (q w : ℕ) : Prop := s.workers[w]?.any (fun x => x.point.holds q) = true

def Guarded (s : RunQueue) : Prop :=
  ∀ (q : ℕ) h, s.queues[q]? = some h → Guards h.lock (s.Holds q)

theorem holds_iff (hx : s.workers[w]? = some x) : s.Holds q w ↔ x.point.holds q = true := by
  unfold Holds
  rw [hx, Option.any_some]

theorem holds_self (hx : s.workers[w]? = some x) (hworkers : s'.workers = s.workers.set w y) :
    s'.Holds q w ↔ y.point.holds q = true := by
  apply holds_iff
  rw [hworkers]
  exact get_set_self hx y

theorem holds_other (hx : s.workers[w]? = some x) (hworkers : s'.workers = s.workers.set w y)
    (v : ℕ) (hv : v ≠ w) : s'.Holds q v ↔ s.Holds q v := by
  unfold Holds
  rw [hworkers, any_set hx, if_neg hv]

theorem holds_same (hx : s.workers[w]? = some x) (hworkers : s'.workers = s.workers.set w y)
    (hy : y.point.holds q = x.point.holds q) (v : ℕ) : s'.Holds q v ↔ s.Holds q v := by
  by_cases hv : v = w
  · subst hv
    rw [holds_self hx hworkers, holds_iff hx, hy]
  · exact holds_other hx hworkers v hv

theorem holds_of_quiet {p : LoopPoint} (hp : p.quiet = true) : p.holds q = false := by
  cases p <;> first | rfl | cases hp

theorem guarded_init : Guarded (init n) := by
  intro q h hq w
  obtain rfl := List.eq_of_mem_replicate (List.mem_of_getElem? hq)
  constructor
  · intro hw
    have hfalse : (init n).workers[w]?.any (fun x => x.point.holds q) = false :=
      any_replicate rfl n w
    rw [Holds, hfalse] at hw
    cases hw
  · intro hw
    cases hw

/-- A worker moves on, and the locks stay as they are. -/
theorem Guarded.of_worker (hg : Guarded s) (hx : s.workers[w]? = some x)
    (hworkers : s'.workers = s.workers.set w y) (hqueues : s'.queues = s.queues)
    (hy : ∀ q, y.point.holds q = x.point.holds q) : Guarded s' := by
  intro q h hq
  rw [hqueues] at hq
  exact (hg q h hq).keep (holds_same hx hworkers (hy q))

/-- A worker moves on, and one queue changes. -/
theorem Guarded.of_queue (hg : Guarded s) (hx : s.workers[w]? = some x)
    (hworkers : s'.workers = s.workers.set w y) (hqueues : s'.queues = s.queues.set q h')
    (hself : Guards h'.lock (s'.Holds q))
    (hother : ∀ r, q ≠ r → y.point.holds r = x.point.holds r) : Guarded s' := by
  intro r g hr
  rw [hqueues, List.getElem?_set] at hr
  split at hr
  · rename_i hqr
    subst hqr
    split at hr
    · obtain rfl := Option.some.inj hr
      exact hself
    · cases hr
  · rename_i hqr
    exact (hg r g hr).keep (holds_same hx hworkers (hother r hqr))

/-- A worker gives the mutex of `q` back. -/
theorem Guarded.release (hg : Guarded s) (hx : s.workers[w]? = some x)
    (hworkers : s'.workers = s.workers.set w y) (hq : s.queues[q]? = some h)
    (hpx : x.point.holds q = true) (hpy : y.point.holds q = false) : Guards none (s'.Holds q) := by
  apply (hg q h hq).release (i := w)
  · rw [holds_iff hx, hpx]
  · rw [holds_self hx hworkers, hpy]
    exact Bool.false_ne_true
  · exact holds_other hx hworkers

theorem turn_guarded (hg : Guarded s) (hx : s.workers[w]? = some x) (hturn : Turn s w x ok s') :
    Guarded s' := by
  cases hturn with
  | move hpx hpy _ =>
    refine hg.of_worker hx rfl rfl fun q => ?_
    rw [holds_of_quiet hpx, holds_of_quiet hpy]
  | lock hpx hq hfree =>
    rename_i q h
    refine hg.of_queue hx rfl rfl ?_ fun r hqr => ?_
    · apply (hg q h hq).acquire hfree
      · rw [holds_self hx rfl]
        exact decide_eq_true rfl
      · exact holds_other hx rfl
    · rw [holds_of_quiet hpx]
      exact decide_eq_false hqr
  | read hpx hq hlast =>
    refine hg.of_worker hx rfl rfl fun r => ?_
    rw [hpx]
    rfl
  | unlock hpx hq =>
    rename_i q h
    refine hg.of_queue hx rfl rfl ?_ fun r hqr => ?_
    · exact hg.release hx rfl hq (by rw [hpx]; exact decide_eq_true rfl) rfl
    · rw [hpx]
      exact (decide_eq_false hqr).symm
  | take hpx hq =>
    rename_i q h entry
    refine hg.of_queue hx rfl rfl ?_ fun r hqr => ?_
    · exact hg.release hx rfl hq (by rw [hpx]; exact decide_eq_true rfl) rfl
    · rw [hpx]
      exact (decide_eq_false hqr).symm
  | resume hpx _ =>
    refine hg.of_worker hx rfl rfl fun r => ?_
    rw [hpx]
    rfl
  | refuse hpx _ =>
    refine hg.of_worker hx rfl rfl fun r => ?_
    rw [hpx]
    rfl

theorem enqueue_guarded (hg : Guarded s) (hstep : s.enqueue q entry = some s') : Guarded s' := by
  obtain ⟨h, hq, -, rfl⟩ := enqueue_cases hstep
  exact forall_set hg (hg q h hq)

theorem step_guarded (hg : Guarded s) (hstep : s.step handleOf a = some s') : Guarded s' := by
  obtain rfl | ⟨q, entry, henqueue⟩ | ⟨w, x, ok, hx, hturn⟩ | ⟨w, x, y, hx, rfl, hp⟩ :=
    step_cases hstep
  · exact hg
  · exact enqueue_guarded hg henqueue
  · exact turn_guarded hg hx hturn
  · refine hg.of_worker hx rfl rfl fun q => ?_
    rcases hp with hp | ⟨hpx, hpy⟩
    · rw [hp]
    · rw [hpx, hpy]
      rfl

/-! ## The order of the entries -/

/-- What the queue `q` holds. -/
def entriesOf (s : RunQueue) (q : ℕ) : List QueueEntry := s.queues[q]?.elim [] Handles.entries

theorem entriesOf_eq (hq : s.queues[q]? = some h) : s.entriesOf q = h.entries := by
  rw [entriesOf, hq, Option.elim_some]

theorem entriesOf_set {t : RunQueue} (hq : s.queues[q]? = some h)
    (hqueues : t.queues = s.queues.set q h') (r : ℕ) :
    t.entriesOf r = if r = q then h'.entries else s.entriesOf r := by
  unfold entriesOf
  rw [hqueues]
  exact elim_set hq _ _ h' r

/-- A change of a queue that leaves its entries alone. -/
theorem entriesOf_same (hq : s.queues[q]? = some h) (hqueues : s'.queues = s.queues.set q h')
    (hentries : h'.entries = h.entries) (r : ℕ) : s'.entriesOf r = s.entriesOf r := by
  unfold entriesOf
  rw [hqueues]
  exact elim_set_same hq hentries _ r

structure Fifo (s : RunQueue) : Prop where
  last : ∀ (w : ℕ) x, s.workers[w]? = some x → ∀ q entry, x.point = .pop q entry →
    (s.entriesOf q).getLast? = some entry
  order : ∀ (q : ℕ) h, s.queues[q]? = some h →
    h.enqueued = h.taken.map Prod.snd ++ h.entries.reverse

theorem fifo_init : Fifo (init n) := by
  constructor
  · intro w x hx q entry hp
    obtain rfl := List.eq_of_mem_replicate (List.mem_of_getElem? hx)
    cases hp
  · intro q h hq
    obtain rfl := List.eq_of_mem_replicate (List.mem_of_getElem? hq)
    rfl

/-- A worker moves on, and the entries stay as they are. -/
theorem Fifo.of_worker (hf : Fifo s) (hworkers : s'.workers = s.workers.set w y)
    (hentries : ∀ q, s'.entriesOf q = s.entriesOf q)
    (horder : ∀ (q : ℕ) h, s'.queues[q]? = some h →
      h.enqueued = h.taken.map Prod.snd ++ h.entries.reverse)
    (hy : ∀ q entry, y.point = .pop q entry → (s.entriesOf q).getLast? = some entry) : Fifo s' := by
  refine ⟨?_, horder⟩
  rw [hworkers]
  apply forall_set
  · intro v z hz q entry hp
    rw [hentries]
    exact hf.last v z hz q entry hp
  · intro q entry hp
    rw [hentries]
    exact hy q entry hp

/-- What a worker has read is not changed by others. -/
theorem last_of_other (hg : Guarded s) (hf : Fifo s) (hq : s.queues[q]? = some h)
    (hlock : h.lock ≠ some w) (hx : s.workers[w]? = some x) (hp : x.point = .pop r entry) :
    r ≠ q ∧ (s.entriesOf r).getLast? = some entry := by
  refine ⟨?_, hf.last w x hx r entry hp⟩
  rintro rfl
  apply hlock
  apply (hg r h hq w).mp
  rw [holds_iff hx, hp]
  exact decide_eq_true rfl

theorem enqueue_fifo (hg : Guarded s) (hf : Fifo s) (hstep : s.enqueue q entry = some s') :
    Fifo s' := by
  obtain ⟨h, hq, hfree, rfl⟩ := enqueue_cases hstep
  constructor
  · intro w x hx r e hp
    have hne : h.lock ≠ some w := by
      rw [hfree]
      exact nofun
    obtain ⟨hrq, hback⟩ := last_of_other hg hf hq hne hx hp
    rw [entriesOf_set hq rfl, if_neg hrq]
    exact hback
  · apply forall_set hf.order
    show h.enqueued ++ [entry] = h.taken.map Prod.snd ++ (entry :: h.entries).reverse
    rw [hf.order q h hq, List.reverse_cons, List.append_assoc]

theorem take_fifo (hg : Guarded s) (hf : Fifo s) (hx : s.workers[w]? = some x)
    (hp : x.point = .pop q entry) (hq : s.queues[q]? = some h) :
    Fifo ((s.setQueue q
      { h with
        entries := h.entries.dropLast
        lock := none
        taken := h.taken ++ [(w, entry)] }).goTo w x (.poll q h.taken.length entry)) := by
  have hlast : h.entries.getLast? = some entry := by
    have := hf.last w x hx q entry hp
    rwa [entriesOf_eq hq] at this
  have hlock : h.lock = some w := by
    apply (hg q h hq w).mp
    rw [holds_iff hx, hp]
    exact decide_eq_true rfl
  constructor
  · intro v z hz r e hpz
    have hz' : (s.workers.set w { x with point := .poll q h.taken.length entry })[v]? = some z := hz
    rw [get_set hx] at hz'
    split at hz'
    · obtain rfl := Option.some.inj hz'
      cases hpz
    · rename_i hvw
      have hne : h.lock ≠ some v := by
        rw [hlock]
        exact fun heq => hvw (Option.some.inj heq).symm
      obtain ⟨hrq, hback⟩ := last_of_other hg hf hq hne hz' hpz
      rw [entriesOf_set hq rfl, if_neg hrq]
      exact hback
  · apply forall_set hf.order
    have hentries := List.dropLast_append_getLast? entry hlast
    show h.enqueued = (h.taken ++ [(w, entry)]).map Prod.snd ++ h.entries.dropLast.reverse
    calc h.enqueued = h.taken.map Prod.snd ++ h.entries.reverse := hf.order q h hq
      _ = h.taken.map Prod.snd ++ (h.entries.dropLast ++ [entry]).reverse := by rw [hentries]
      _ = (h.taken ++ [(w, entry)]).map Prod.snd ++ h.entries.dropLast.reverse := by simp

theorem turn_fifo (hg : Guarded s) (hf : Fifo s) (hx : s.workers[w]? = some x)
    (hturn : Turn s w x ok s') : Fifo s' := by
  cases hturn with
  | move _ hpy _ =>
    refine hf.of_worker rfl (fun _ => rfl) hf.order fun q entry hp => ?_
    rw [hp] at hpy
    cases hpy
  | lock _ hq _ =>
    have horder := hf.order _ _ hq
    exact hf.of_worker rfl (entriesOf_same hq rfl rfl) (forall_set hf.order horder) nofun
  | read hpx hq hlast =>
    refine hf.of_worker rfl (fun _ => rfl) hf.order fun r e hp => ?_
    cases hp
    rw [entriesOf_eq hq, hlast]
  | unlock hpx hq =>
    have horder := hf.order _ _ hq
    exact hf.of_worker rfl (entriesOf_same hq rfl rfl) (forall_set hf.order horder) nofun
  | take hpx hq => exact take_fifo hg hf hx hpx hq
  | resume _ _ => exact hf.of_worker rfl (fun _ => rfl) hf.order nofun
  | refuse _ _ => exact hf.of_worker rfl (fun _ => rfl) hf.order nofun

theorem step_fifo (hg : Guarded s) (hf : Fifo s) (hstep : s.step handleOf a = some s') :
    Fifo s' := by
  obtain rfl | ⟨q, entry, henqueue⟩ | ⟨w, x, ok, hx, hturn⟩ | ⟨w, x, y, hx, rfl, hp⟩ :=
    step_cases hstep
  · exact hf
  · exact enqueue_fifo hg hf henqueue
  · exact turn_fifo hg hf hx hturn
  · refine hf.of_worker rfl (fun _ => rfl) hf.order fun q entry hpy => ?_
    rcases hp with hp | ⟨-, hhead⟩
    · exact hf.last w x hx q entry (hp.symm.trans hpy)
    · rw [hpy] at hhead
      cases hhead

end RunQueue

end Xyco.Runtime
