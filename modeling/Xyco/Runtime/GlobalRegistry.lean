import Xyco.Machine.Run
import Xyco.Machine.Table

/-!
# Global registries

`GlobalRegistry<R>` keeps one registry for each runtime in a static map. The key is the address of the
`RuntimeCore`; entries are never removed. `get_instance` looks the key up under the shared lock and,
if it is missing, makes a registry and stores it under the exclusive lock. It is called by
`add_thread` only: first on the thread that constructs the runtime, and then on the workers, one at a
time under `worker_launch_mutex_`.

Runtimes are numbered in the order of their construction, over the whole process.
-/

namespace Xyco.Runtime

/-- Where a thread of a runtime is. -/
inductive CallPoint where
  /-- before `add_thread` -/
  | outside
  /-- in `add_thread`, between two calls of `get_instance` -/
  | adding
  /-- before the shared lock -/
  | checking
  /-- the key is missing -/
  | making
  /-- has made the registry `i`, before the exclusive lock -/
  | inserting (i : ℕ)
  | done
deriving DecidableEq, Repr

/-- A `RuntimeCore` at its address. Thread 0 is the constructing thread. -/
structure RuntimeObject where
  address : ℕ
  alive : Bool
  launchMutex : Option ℕ
  threads : List CallPoint
deriving DecidableEq, Repr

def RuntimeObject.goTo (o : RuntimeObject) (t : ℕ) (p : CallPoint) : RuntimeObject :=
  { o with threads := o.threads.set t p }

/-- `registries` is `per_runtime_registry_`, the last entry of a key first. `made` has for each
registry the runtime on whose behalf it was made, and `returned` the results of the calls with the
runtime they were made for. -/
structure GlobalRegistry where
  runtimes : List RuntimeObject
  registries : List (ℕ × ℕ)
  made : List ℕ
  returned : List (ℕ × ℕ)
deriving DecidableEq, Repr

inductive RegistryAction where
  /-- a `RuntimeCore` with `workers` workers is constructed at an address -/
  | construct (address workers : ℕ)
  /-- a thread goes into `add_thread` -/
  | enter (r t : ℕ)
  /-- it calls `get_instance` -/
  | call (r t : ℕ)
  /-- it goes on in `get_instance` -/
  | advance (r t : ℕ)
  | leave (r t : ℕ)
  | destroy (r : ℕ)
deriving DecidableEq, Repr

namespace GlobalRegistry

def init : GlobalRegistry := ⟨[], [], [], []⟩

/-- The registry that the map has for an address. -/
def find (s : GlobalRegistry) (address : ℕ) : Option ℕ := s.registries.lookup address

/-- A new object is not placed where another one still is. -/
def construct (s : GlobalRegistry) (address workers : ℕ) : Option GlobalRegistry :=
  if ∀ o ∈ s.runtimes, o.alive = true → o.address ≠ address then
    some { s with
      runtimes := s.runtimes ++ [⟨address, true, none, List.replicate (workers + 1) .outside⟩] }
  else none

def setRuntime (s : GlobalRegistry) (r : ℕ) (o : RuntimeObject) : GlobalRegistry :=
  { s with runtimes := s.runtimes.set r o }

/-- The workers are started by the constructor after the in-place worker has added itself. -/
def enter (s : GlobalRegistry) (r t : ℕ) : Option GlobalRegistry :=
  match s.runtimes[r]? with
  | none => none
  | some o =>
    if o.threads[t]? = some .outside then
      if t = 0 then some (s.setRuntime r (o.goTo t .adding))
      else if o.threads[0]? = some .done ∧ o.launchMutex = none then
        some (s.setRuntime r ({ o with launchMutex := some t }.goTo t .adding))
      else none
    else none

def call (s : GlobalRegistry) (r t : ℕ) : Option GlobalRegistry :=
  match s.runtimes[r]? with
  | none => none
  | some o =>
    if o.threads[t]? = some .adding then some (s.setRuntime r (o.goTo t .checking)) else none

/-- `get_instance`. -/
def advance (s : GlobalRegistry) (r t : ℕ) : Option GlobalRegistry :=
  match s.runtimes[r]? with
  | none => none
  | some o =>
    match o.threads[t]? with
    | some .checking =>
      match s.find o.address with
      | some i =>
        some ({ s with returned := s.returned ++ [(r, i)] }.setRuntime r (o.goTo t .adding))
      | none => some (s.setRuntime r (o.goTo t .making))
    | some .making =>
      some ({ s with made := s.made ++ [r] }.setRuntime r (o.goTo t (.inserting s.made.length)))
    | some (.inserting i) =>
      some ({ s with
        registries := (o.address, i) :: s.registries
        returned := s.returned ++ [(r, i)] }.setRuntime r (o.goTo t .adding))
    | _ => none

def leave (s : GlobalRegistry) (r t : ℕ) : Option GlobalRegistry :=
  match s.runtimes[r]? with
  | none => none
  | some o =>
    if o.threads[t]? = some .adding then
      if t = 0 then some (s.setRuntime r (o.goTo t .done))
      else some (s.setRuntime r ({ o with launchMutex := none }.goTo t .done))
    else none

/-- The destructor joins the workers. -/
def destroy (s : GlobalRegistry) (r : ℕ) : Option GlobalRegistry :=
  match s.runtimes[r]? with
  | none => none
  | some o =>
    if o.alive = true ∧ ∀ p ∈ o.threads, p = .done then
      some (s.setRuntime r { o with alive := false })
    else none

def step (s : GlobalRegistry) : RegistryAction → Option GlobalRegistry
  | .construct address workers => s.construct address workers
  | .enter r t => s.enter r t
  | .call r t => s.call r t
  | .advance r t => s.advance r t
  | .leave r t => s.leave r t
  | .destroy r => s.destroy r

/-- Two calls return the same registry if and only if they were made for the same runtime. -/
def OnePerRuntime (s : GlobalRegistry) : Prop :=
  ∀ p ∈ s.returned, ∀ q ∈ s.returned, p.2 = q.2 ↔ p.1 = q.1

instance (s : GlobalRegistry) : Decidable s.OnePerRuntime :=
  inferInstanceAs (Decidable (∀ p ∈ s.returned, ∀ q ∈ s.returned, p.2 = q.2 ↔ p.1 = q.1))

/-- A runtime is not constructed at an address that the map has an entry for. -/
def NewAddress (s : GlobalRegistry) : RegistryAction → Prop
  | .construct address _ => s.find address = none
  | _ => True

instance (s : GlobalRegistry) (a : RegistryAction) : Decidable (s.NewAddress a) := by
  cases a <;> unfold NewAddress <;> infer_instance

end GlobalRegistry

end Xyco.Runtime
