import Xyco.Task.Select

/-!
# `timeout`

`timeout` awaits a `select` of the future and of a `sleep`. Its two instances, for `void` and for
other types, differ in what they make of the result of the future.
-/

namespace Xyco.Time

/-- The branches of the `select`: the future and `wrap_sleep`. For `void` the first one is
`wrap_future`, and `V` is `Unit`. -/
def TimeoutBranch (V : Type) : Fin 2 → Type
  | 0 => V
  | 1 => Unit

/-- How `timeout` ends. -/
inductive Timed (V E : Type) where
  | value (v : V)
  /-- `unexpected(nullptr)` -/
  | expired
  /-- an exception of the `select` -/
  | threw (e : E)
  /-- `value()` of an `optional` that is empty -/
  | badOptionalAccess
deriving DecidableEq, Repr

variable {V E : Type}

/-- `timeout` from where the `select` ends. -/
def timeoutWith (value : Option V → Timed V E) :
    Except E (∀ i, Option (TimeoutBranch V i)) → Timed V E
  | .error e => .threw e
  | .ok output => if (output 1).isSome then .expired else value (output 0)

def timeout : Except E (∀ i, Option (TimeoutBranch V i)) → Timed V E :=
  timeoutWith fun
    | some v => .value v
    | none => .badOptionalAccess

/-- `timeout` of a future without a result. -/
def timeoutVoid : Except E (∀ i, Option (TimeoutBranch Unit i)) → Timed Unit E :=
  timeoutWith fun _ => .value ()

/-- The instances of the template. -/
inductive IsTimeout : (V : Type) → (Except E (∀ i, Option (TimeoutBranch V i)) → Timed V E) → Prop
  | value (V : Type) : IsTimeout V timeout
  | void : IsTimeout Unit timeoutVoid

end Xyco.Time
