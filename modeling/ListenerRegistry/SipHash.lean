/-!
# SipHash-1-3 under the zero key

The keyed hash with one round per message word and three closing rounds, for
messages that consist of whole 64-bit words. Both halves of the key are zero.
-/

namespace ListenerRegistry.SipHash

/-- The four words that the rounds mix. -/
structure State where
  v0 : UInt64
  v1 : UInt64
  v2 : UInt64
  v3 : UInt64
deriving DecidableEq, Repr

def rotateLeft (x n : UInt64) : UInt64 :=
  (x <<< n) ||| (x >>> (64 - n))

/-- The initial words spell a fixed ASCII phrase; the zero key leaves them as
they are. -/
def State.init : State where
  v0 := 0x736f6d6570736575
  v1 := 0x646f72616e646f6d
  v2 := 0x6c7967656e657261
  v3 := 0x7465646279746573

/-- One round: additions, rotations and exclusive ors. -/
def State.round (s : State) : State :=
  let a := s.v0 + s.v1
  let b := rotateLeft s.v1 13 ^^^ a
  let a := rotateLeft a 32
  let c := s.v2 + s.v3
  let d := rotateLeft s.v3 16 ^^^ c
  let a := a + d
  let d := rotateLeft d 21 ^^^ a
  let c := c + b
  let b := rotateLeft b 17 ^^^ c
  let c := rotateLeft c 32
  ⟨a, b, c, d⟩

/-- Mixes one message word in. -/
def State.absorb (s : State) (m : UInt64) : State :=
  let s := { s with v3 := s.v3 ^^^ m }.round
  { s with v0 := s.v0 ^^^ m }

/-- Closes the hash. -/
def State.finish (s : State) : UInt64 :=
  let s := { s with v2 := s.v2 ^^^ 0xff }.round.round.round
  s.v0 ^^^ s.v1 ^^^ s.v2 ^^^ s.v3

/-- The last word carries the number of message bytes in its top byte. -/
def lengthWord (words : Nat) : UInt64 :=
  UInt64.ofNat (8 * words % 256) <<< 56

/-- The hash of a message of whole words. -/
def hash (message : List UInt64) : UInt64 :=
  ((message.foldl State.absorb State.init).absorb (lengthWord message.length)).finish

/-- The hash of a single word. -/
def word (n : UInt64) : UInt64 :=
  hash [n]

example : word 1 = 2206609067086327257 := by decide +kernel

end ListenerRegistry.SipHash
