import MipsVm.Tlb.Entry

/-! Replacement order of the translation buffer: a stream of slot numbers, drawn from the
xoshiro256++ generator whose state is filled by SplitMix64. All arithmetic is modulo `2 ^ 64`. -/
namespace MipsVm

/-- Distance between consecutive states of SplitMix64. -/
def splitMixGamma : UInt64 := 0x9e3779b97f4a7c15

/-- The word that SplitMix64 gives out in the state `z`. -/
def splitMixOutput (z : UInt64) : UInt64 :=
  let z := (z ^^^ (z >>> 30)) * 0xbf58476d1ce4e5b9
  let z := (z ^^^ (z >>> 27)) * 0x94d049bb133111eb
  z ^^^ (z >>> 31)

def rotateLeft (x : UInt64) (k : UInt64) : UInt64 := (x <<< k) ||| (x >>> (64 - k))

/-- State of the xoshiro256 family. -/
structure Xoshiro where
  s0 : UInt64
  s1 : UInt64
  s2 : UInt64
  s3 : UInt64
deriving DecidableEq

namespace Xoshiro

/-- The state made of the first four words of SplitMix64 after `seed`. -/
def seeded (seed : UInt64) : Xoshiro :=
  let word (i : UInt64) := splitMixOutput (seed + i * splitMixGamma)
  ⟨word 1, word 2, word 3, word 4⟩

def output (g : Xoshiro) : UInt64 := rotateLeft (g.s0 + g.s3) 23 + g.s0

def step (g : Xoshiro) : Xoshiro :=
  let s2 := g.s2 ^^^ g.s0
  let s3 := g.s3 ^^^ g.s1
  ⟨g.s0 ^^^ s3, g.s1 ^^^ s2, s2 ^^^ (g.s1 <<< 17), rotateLeft s3 45⟩

def steps : Nat → Xoshiro → Xoshiro
  | 0, g => g
  | n + 1, g => steps n g.step

end Xoshiro

/-- The slot replaced by the `n`-th random write, counted from 0: the top six bits of the
generator's `n`-th word. -/
def seededVictim (seed : UInt64) (n : Nat) : Fin tlbSlots :=
  Fin.ofNat tlbSlots (((Xoshiro.seeded seed).steps n).output >>> 58).toNat

end MipsVm
