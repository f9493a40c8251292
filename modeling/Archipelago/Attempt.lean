namespace Archipelago

/-- An operation on a state that may fail.  A failure comes with the state that has been reached by
then. -/
abbrev Attempt (ε σ β : Type) :=
  EStateM ε σ β

namespace Attempt

variable {ε σ β : Type}

/-- A check, which does not touch the state. -/
def require (check : Except ε β) : Attempt ε σ β :=
  fun state =>
    match check with
    | .ok value => .ok value state
    | .error cause => .error cause state

/-- An operation that cannot fail. -/
def perform (operation : StateM σ β) : Attempt ε σ β :=
  fun state =>
    let (value, state) := operation state
    .ok value state

end Attempt

end Archipelago
