import Xyco.Runtime.Lifetime

/-!
# The pointers between futures and coroutines

The fields of all objects and of all frames as functions of the address; what is not there has no
fields. The operations are those of the code, without the checks. `Sound` says how the fields fit
together as long as every object is used as its owner may, and `Step` which operations happen when.
-/

namespace Xyco.Runtime

/-- The coroutine has started and not finished. -/
def Status.active : Status → Bool
  | .running | .awaiting _ => true
  | .created | .done => false

/-- The fields of the objects and of the frames, with `handles_`. Every object has a `wrapper` and
every frame a `status`. -/
@[ext] structure Pointers where
  wrapper : ℕ → Option Bool
  void : ℕ → Option Bool
  self : ℕ → Option ℕ
  waiting : ℕ → Option ℕ
  waited : ℕ → Option ℕ
  status : ℕ → Option Status
  future : ℕ → Option ℕ
  frameVoid : ℕ → Option Bool
  handles : List ℕ
  nextObject : ℕ
  nextFrame : ℕ

namespace Pointers

/-! ## Operations -/

def setStatus (k : Pointers) (c : ℕ) (x : Status) : Pointers :=
  { k with status := fun d => if d = c ∧ k.status d ≠ none then some x else k.status d }

def setFuture (k : Pointers) (c : ℕ) (p : Option ℕ) : Pointers :=
  { k with future := fun d => if d = c ∧ k.status d ≠ none then p else k.future d }

def setWaiting (k : Pointers) (p g : ℕ) : Pointers :=
  { k with waiting := fun q => if q = p ∧ k.wrapper q ≠ none then some g else k.waiting q }

/-- `set_waited` of the promise of the coroutine `c`. -/
def setWaited (k : Pointers) (c : ℕ) (w : Option ℕ) : Pointers :=
  { k with
    waited := fun q => if k.future c = some q ∧ k.wrapper q ≠ none then w else k.waited q }

def freeFrame (k : Pointers) (c : ℕ) : Pointers :=
  { k with
    status := fun d => if d = c then none else k.status d
    future := fun d => if d = c then none else k.future d
    frameVoid := fun d => if d = c then none else k.frameVoid d }

def freeObject (k : Pointers) (p : ℕ) : Pointers :=
  { k with
    wrapper := fun q => if q = p then none else k.wrapper q
    void := fun q => if q = p then none else k.void q
    self := fun q => if q = p then none else k.self q
    waiting := fun q => if q = p then none else k.waiting q
    waited := fun q => if q = p then none else k.waited q }

def allocObject (k : Pointers) (f : FutureObject) : Pointers :=
  { k with
    wrapper := fun q => if q = k.nextObject then some f.wrapper else k.wrapper q
    void := fun q => if q = k.nextObject then some f.void else k.void q
    self := fun q => if q = k.nextObject then f.self else k.self q
    waiting := fun q => if q = k.nextObject then f.waiting else k.waiting q
    waited := fun q => if q = k.nextObject then f.waited else k.waited q
    nextObject := k.nextObject + 1 }

def allocFrame (k : Pointers) (frame : CoroutineFrame) : Pointers :=
  { k with
    status := fun d => if d = k.nextFrame then some frame.status else k.status d
    future := fun d => if d = k.nextFrame then frame.future else k.future d
    frameVoid := fun d => if d = k.nextFrame then some frame.void else k.frameVoid d
    nextFrame := k.nextFrame + 1 }

/-- `self_`, `waiting_` and `waited_` of `q` become those of `p`, which loses them. -/
def transfer (k : Pointers) (p q : ℕ) : Pointers :=
  { k with
    self := fun r => if r = p then none else if r = q then k.self p else k.self r
    waiting := fun r => if r = p then none else if r = q then k.waiting p else k.waiting r
    waited := fun r => if r = p then none else if r = q then k.waited p else k.waited r
    future := fun d =>
      if p ≠ q ∧ k.self p = some d ∧ k.status d ≠ none then some q else k.future d }

/-- A call of an async function. That of `spawn_impl` goes into `handles_`. -/
def call (k : Pointers) (void wrapper : Bool) : Pointers :=
  { (k.allocObject ⟨void, wrapper, some k.nextFrame, none, none⟩).allocFrame
      ⟨void, some k.nextObject, .created, false⟩ with
    handles := if wrapper then k.nextFrame :: k.handles else k.handles }

def moveConstruct (k : Pointers) (p : ℕ) (void : Bool) : Pointers :=
  (k.allocObject ⟨void, false, none, none, none⟩).transfer p k.nextObject

/-- The coroutine `h` goes on after a `co_await`. -/
def resume (k : Pointers) (h : ℕ) : Pointers := (k.setWaited h none).setStatus h .running

/-! ## Steps -/

/-- The object can be named, and no coroutine is suspended in a `co_await` of it. -/
structure Free (k : Pointers) (p : ℕ) : Prop where
  named : k.wrapper p = some false
  unawaited : ∀ g, k.status g ≠ some (.awaiting p)

inductive Step (k : Pointers) : LifetimeAction → Pointers → Prop where
  | call (void : Bool) : Step k (.call void) (k.call void false)
  | make (void : Bool) : Step k (.make void) (k.allocObject ⟨void, false, none, none, none⟩)
  | move {p : ℕ} {void : Bool} (hp : k.Free p) (hvoid : k.void p = some void) :
      Step k (.move p) (k.moveConstruct p void)
  | assign {p q : ℕ} (hp : k.Free p) (hq : k.Free q) (hvoid : k.void p = k.void q) :
      Step k (.assign p q) (k.transfer p q)
  | spawnImpl {p : ℕ} {void : Bool} (hp : k.Free p) (hvoid : k.void p = some void) :
      Step k (.spawnImpl p) ((k.moveConstruct p void).call true true)
  | start {c : ℕ} (hc : c ∈ k.handles) :
      Step k (.start c) { k.setStatus c .running with handles := k.handles.erase c }
  | awaitReady {g p : ℕ} (hg : k.status g = some .running) (hp : k.Free p) (hself : k.self p = none) :
      Step k (.await g p true) (((k.setWaiting p g).setWaited g none).setWaited g none)
  | awaitPending {g p : ℕ} (hg : k.status g = some .running) (hp : k.Free p)
      (hself : k.self p = none) :
      Step k (.await g p false) (((k.setWaiting p g).setWaited g none).setStatus g (.awaiting p))
  | awaitCreated {g p c : ℕ} {ready : Bool} (hg : k.status g = some .running) (hp : k.Free p)
      (hself : k.self p = some c) (hc : k.status c = some .created) :
      Step k (.await g p ready)
        ((((k.setWaiting p g).setWaited g (some c)).setStatus g (.awaiting p)).setStatus c .running)
  | awaitDone {g p c : ℕ} {r : Bool} (hg : k.status g = some .running) (hp : k.Free p)
      (hself : k.self p = some c) (hc : k.status c = some .done) :
      Step k (.await g p r) ((k.waiting p).elim k fun h => k.setWaited h none)
  | awaitGone {g p c : ℕ} {ready : Bool} (hg : k.status g = some .running) (hp : k.Free p)
      (hself : k.self p = some c) (hc : k.status c = none) : Step k (.await g p ready) k
  /-- nobody waits, and the coroutine runs off its end -/
  | finishTask {c : ℕ} {threw : Bool} (hc : k.status c = some .running)
      (hthrew : k.future c = none → threw = false)
      (hwaiting : ∀ p, k.future c = some p → k.waiting p = none) :
      Step k (.finish c threw) (k.freeFrame c)
  | throwTask {c : ℕ} (hc : k.status c = some .running) (hfuture : k.future c = none) :
      Step k (.finish c true) (k.setStatus c .done)
  | finishAwaited {c p h : ℕ} {threw : Bool} (hc : k.status c = some .running)
      (hfuture : k.future c = some p) (hwaiting : k.waiting p = some h) :
      Step k (.finish c threw) ((k.setStatus c .done).resume h)
  | complete {p g : ℕ} (hself : k.self p = none) (hwaiting : k.waiting p = some g)
      (hg : k.status g = some (.awaiting p)) : Step k (.complete p) (k.resume g)
  | cancel (p : ℕ) : Step k (.cancel p) k
  | dropObject {p : ℕ} (hp : ∀ g, k.status g ≠ some (.awaiting p)) (hself : k.self p = none) :
      Step k (.drop p) (k.freeObject p)
  /-- `~Future<void>` of an object that was not awaited -/
  | detach {p c : ℕ} (hp : ∀ g, k.status g ≠ some (.awaiting p)) (hself : k.self p = some c)
      (hvoid : k.void p = some true) (hwaiting : k.waiting p = none) :
      Step k (.drop p) ((k.setFuture c none).freeObject p)
  | destroy {p c : ℕ} (hp : ∀ g, k.status g ≠ some (.awaiting p)) (hself : k.self p = some c)
      (hused : k.void p = some true → k.waiting p ≠ none) :
      Step k (.drop p) ((k.freeFrame c).freeObject p)

/-! ## How the fields fit together -/

/-- The coroutine is there, has started and has not finished. -/
def Active (k : Pointers) (c : ℕ) : Prop := (k.status c).any Status.active = true

/-- What is not there has no fields, and the next addresses are free. -/
structure WellFormed (k : Pointers) : Prop where
  noObject : ∀ p, k.wrapper p = none → k.self p = none ∧ k.waiting p = none ∧ k.waited p = none
  noFrame : ∀ c, k.status c = none → k.future c = none
  freshObject : ∀ p, k.nextObject ≤ p → k.wrapper p = none
  freshFrame : ∀ c, k.nextFrame ≤ c → k.status c = none

/-- Some object has the coroutine in `self_`, or a worker will resume it, or it has started and not
finished. -/
def Held (k : Pointers) (c : ℕ) : Prop := (∃ p, k.self p = some c) ∨ c ∈ k.handles ∨ k.Active c

def NoneLeaked (k : Pointers) : Prop := ∀ c, k.status c ≠ none → k.Held c

/-- The steps that leave no frame behind. -/
def Keeps (k : Pointers) : LifetimeAction → Prop
  | .assign _ q => k.self q = none
  | .drop p => k.wrapper p ≠ some true → k.void p = some true → k.waiting p = none → k.self p = none
  | .finish c threw => threw = true → k.future c ≠ none
  | _ => True

structure Sound (k : Pointers) : Prop where
  /-- An object and its coroutine point at each other. Only `future_wrapper` outlives its
  coroutine. -/
  self : ∀ p c, k.self p = some c →
    (k.future c = some p ∧ k.frameVoid c = k.void p ∧
      (k.status c = some .created → k.waiting p = none ∧ (k.wrapper p = some true → c ∈ k.handles)) ∧
      (k.status c = some .done → k.waiting p ≠ none)) ∨
    (k.wrapper p = some true ∧ k.status c = none ∧ c < k.nextFrame)
  wrapper : ∀ p, k.wrapper p = some true → k.void p = some true ∧ k.waiting p = none
  /-- A coroutine that has started is a task, or another one awaits it. -/
  active : ∀ c, k.Active c → (k.future c = none → k.frameVoid c = some true) ∧
    ∀ p, k.future c = some p → k.self p = some c ∧ (k.waiting p = none → k.wrapper p = some true) ∧
      ∀ g, k.waiting p = some g → k.status g = some (.awaiting p)
  awaiting : ∀ g p, k.status g = some (.awaiting p) → k.waiting p = some g ∧
    k.wrapper p = some false ∧ ∀ c, k.self p = some c → k.Active c
  handles : ∀ c ∈ k.handles, k.status c = some .created ∧ k.frameVoid c = some true ∧
    ∀ p, k.future c = some p → k.self p = some c ∧ k.wrapper p = some true
  nodup : k.handles.Nodup
  /-- `waited_` leads to the coroutine that the own one awaits. -/
  waited : ∀ p c, k.waited p = some c →
    ∃ g q, k.self p = some g ∧ k.status g = some (.awaiting q) ∧ k.self q = some c

end Pointers

namespace Lifetimes

/-- The fields of the objects and of the frames. -/
def pointers (s : Lifetimes) : Pointers where
  wrapper := s.futures.view fun f => some f.wrapper
  void := s.futures.view fun f => some f.void
  self := s.futures.view FutureObject.self
  waiting := s.futures.view FutureObject.waiting
  waited := s.futures.view FutureObject.waited
  status := s.frames.view fun frame => some frame.status
  future := s.frames.view CoroutineFrame.future
  frameVoid := s.frames.view fun frame => some frame.void
  handles := s.handles
  nextObject := s.futures.next
  nextFrame := s.frames.next

end Lifetimes

end Xyco.Runtime
