/-!
The ChaCha key stream with twelve rounds: an endless sequence of 32-bit words, cut into blocks of 16,
that depends on nothing but a key of eight words.
-/

namespace BranchSteer.KeyStream

abbrev Key := List UInt32

abbrev State := Array UInt32

def rotateLeft (word : UInt32) (amount : UInt32) : UInt32 :=
  (word <<< amount) ||| (word >>> (32 - amount))

def rotateRight (word : UInt32) (amount : UInt32) : UInt32 :=
  (word >>> amount) ||| (word <<< (32 - amount))

def quarterRound (first second third fourth : Nat) (state : State) : State :=
  let a := state.getD first 0
  let b := state.getD second 0
  let c := state.getD third 0
  let d := state.getD fourth 0
  let a := a + b
  let d := rotateLeft (d ^^^ a) 16
  let c := c + d
  let b := rotateLeft (b ^^^ c) 12
  let a := a + b
  let d := rotateLeft (d ^^^ a) 8
  let c := c + d
  let b := rotateLeft (b ^^^ c) 7
  (((state.setIfInBounds first a).setIfInBounds second b).setIfInBounds third c).setIfInBounds
    fourth d

def doubleRound (state : State) : State :=
  let state := quarterRound 0 4 8 12 state
  let state := quarterRound 1 5 9 13 state
  let state := quarterRound 2 6 10 14 state
  let state := quarterRound 3 7 11 15 state
  let state := quarterRound 0 5 10 15 state
  let state := quarterRound 1 6 11 12 state
  let state := quarterRound 2 7 8 13 state
  quarterRound 3 4 9 14 state

def doubleRounds : Nat → State → State
  | 0, state => state
  | count + 1, state => doubleRounds count (doubleRound state)

def initialState (key : Key) (number : UInt64) : State :=
  (0x61707865 :: 0x3320646e :: 0x79622d32 :: 0x6b206574 ::
    key ++ [number.toUInt32, (number >>> 32).toUInt32, 0, 0]).toArray

def block (key : Key) (number : UInt64) : List UInt32 :=
  let initial := initialState key number
  List.zipWith (· + ·) (doubleRounds 6 initial).toList initial.toList

/-- The words that a linear congruential generator with a permuted output makes of a seed. -/
def expandSeed : Nat → UInt64 → Key
  | 0, _ => []
  | count + 1, seed =>
    let seed := seed * 6364136223846793005 + 11634580027462260723
    let word := (((seed >>> 18) ^^^ seed) >>> 27).toUInt32
    rotateRight word (seed >>> 59).toUInt32 :: expandSeed count seed

def keyOfSeed (seed : UInt64) : Key := expandSeed 8 seed

end BranchSteer.KeyStream
