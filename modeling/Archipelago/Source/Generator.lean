import Archipelago.Source.Xoshiro

namespace Archipelago

/-- The sources of doubles to choose from. -/
inductive Generator where
  | scripted (script : Script Binary64)
  | seeded (state : Xoshiro)

namespace Generator

def next : Generator → Binary64 × Generator
  | .scripted script =>
    let (value, script) := script.next
    (value, .scripted script)
  | .seeded state =>
    let (value, state) := Source.next state
    (value, .seeded state)

instance : Source Generator Binary64 where
  next := next

/-- Scripts count the numbers they have served. -/
def served? : Generator → Option Nat
  | .scripted script => some script.served
  | .seeded _ => none

end Generator

end Archipelago
