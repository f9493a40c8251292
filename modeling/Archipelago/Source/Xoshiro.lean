import Archipelago.Binary64
import Archipelago.Source

namespace Archipelago

/-- State of the generator `xoshiro256++`. -/
structure Xoshiro where
  s0 : UInt64
  s1 : UInt64
  s2 : UInt64
  s3 : UInt64
deriving DecidableEq

namespace Xoshiro

/-- Output for a state of the generator `splitmix64`. -/
def scrambled (state : UInt64) : UInt64 :=
  let z := (state ^^^ (state >>> 30)) * 0xbf58476d1ce4e5b9
  let z := (z ^^^ (z >>> 27)) * 0x94d049bb133111eb
  z ^^^ (z >>> 31)

/-- The four words are successive outputs of `splitmix64` started at the seed. -/
def ofSeed (seed : UInt64) : Xoshiro :=
  let gamma : UInt64 := 0x9e3779b97f4a7c15
  { s0 := scrambled (seed + gamma)
    s1 := scrambled (seed + 2 * gamma)
    s2 := scrambled (seed + 3 * gamma)
    s3 := scrambled (seed + 4 * gamma) }

def rotateLeft (x k : UInt64) : UInt64 :=
  (x <<< k) ||| (x >>> (64 - k))

def output (g : Xoshiro) : UInt64 :=
  rotateLeft (g.s0 + g.s3) 23 + g.s0

def advance (g : Xoshiro) : Xoshiro :=
  let s2 := g.s2 ^^^ g.s0
  let s3 := g.s3 ^^^ g.s1
  { s0 := g.s0 ^^^ s3
    s1 := g.s1 ^^^ s2
    s2 := s2 ^^^ (g.s1 <<< 17)
    s3 := rotateLeft s3 45 }

/-- The upper 53 bits of a word, as a fraction of `2 ^ 53`. -/
def fraction (word : UInt64) : Binary64 :=
  .ofFloat ((word >>> 11).toFloat / 9007199254740992)

instance : Source Xoshiro Binary64 where
  next g := (fraction g.output, g.advance)

end Xoshiro

end Archipelago
