import BranchSteer.Random.KeyStream

/-!
Random bytes, numbers and orders from a stream of words. Any stream will do: the one of a seed is a key
stream, and nothing that is proved about the engine depends on it.
-/

namespace BranchSteer

/-- A place in a stream of words that comes in blocks: what is left of the current block, and the number
of the next one. -/
structure Random where
  blocks : Nat → List UInt32
  nextBlock : Nat
  pending : List UInt32
deriving Inhabited

namespace Random

def ofSeed (seed : UInt64) : Random :=
  let key := KeyStream.keyOfSeed seed
  ⟨fun number => KeyStream.block key (UInt64.ofNat number), 0, []⟩

def word (random : Random) : UInt32 × Random :=
  match random.pending with
  | word :: rest => (word, { random with pending := rest })
  | [] =>
    let words := random.blocks random.nextBlock
    (words.headD 0, { random with nextBlock := random.nextBlock + 1, pending := words.tail })

def byte (random : Random) : UInt8 × Random :=
  let (word, random) := random.word
  (word.toUInt8, random)

def bytes : Nat → Random → List UInt8 × Random
  | 0, random => ([], random)
  | count + 1, random =>
    let (first, random) := random.byte
    let (rest, random) := random.bytes count
    (first :: rest, random)

/-- The largest low half that is kept when a word is scaled to `bound` values. The kept ones are as
many for each of the values. -/
def acceptedLow (bound : Nat) : Nat := bound <<< (31 - Nat.log2 bound) - 1

/-- Scales words to `bound` values until one is kept. Each is kept with a chance of one half at
least, so that the number of attempts does not matter in practice. -/
def belowWithin : Nat → Nat → Random → Nat × Random
  | 0, _, random => (0, random)
  | attempts + 1, bound, random =>
    let (word, random) := random.word
    let scaled := word.toNat * bound
    if scaled % 0x100000000 ≤ acceptedLow bound then (scaled / 0x100000000, random)
    else random.belowWithin attempts bound

def below (random : Random) (bound : Nat) : Nat × Random := random.belowWithin 1024 bound

def shuffleFrom : Nat → Array α → Random → Array α × Random
  | 0, values, random => (values, random)
  | last + 1, values, random =>
    let (place, random) := random.below (last + 2)
    random.shuffleFrom last (values.swapIfInBounds (last + 1) place)

def shuffle (random : Random) (values : Array α) : Array α × Random :=
  random.shuffleFrom (values.size - 1) values

end Random

end BranchSteer
