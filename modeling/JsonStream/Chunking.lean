import JsonStream.Byte

/-!
# Cutting input into chunks

Each of these functions cuts a byte string into pieces that give the byte string again when they
are put together: at regular distances, into a number of nearly equal parts, at given places, or at
places that follow from a seed.
-/

namespace JsonStream

namespace Chunking

/-- Pieces of `size + 1` bytes; the last may be shorter. -/
def everySucc (size : Nat) (input : Bytes) : List Bytes :=
  match input with
  | [] => []
  | byte :: rest => (byte :: rest.take size) :: everySucc size (rest.drop size)
termination_by input.length
decreasing_by
  simp only [List.length_cons, List.length_drop]
  omega

/-- Pieces of `size` bytes; the last may be shorter. A size of zero counts as one. -/
def every (size : Nat) (input : Bytes) : List Bytes :=
  everySucc (size - 1) input

/-- At most `parts` pieces, of the least size that needs no more of them. -/
def inParts (parts : Nat) (input : Bytes) : List Bytes :=
  every ((input.length + parts - 1) / parts) input

/-- The next state of a generator of 64-bit words by shifting and exclusive or. -/
def nextWord (state : UInt64) : UInt64 :=
  let state := state ^^^ (state <<< 13)
  let state := state ^^^ (state >>> 7)
  state ^^^ (state <<< 17)

/-- Pieces whose sizes are drawn from a generator, each between one and all that is left. -/
def drawn (state : UInt64) (input : Bytes) : List Bytes :=
  match input with
  | [] => []
  | byte :: rest =>
    let state := nextWord state
    let size := state.toNat % (rest.length + 1)
    (byte :: rest.take size) :: drawn state (rest.drop size)
termination_by input.length
decreasing_by
  simp only [List.length_cons, List.length_drop]
  omega

/-- Pieces of sizes that follow from a seed. An odd seed and the even one below it agree, as the
generator must not start with zero. -/
def bySeed (seed : UInt64) (input : Bytes) : List Bytes :=
  drawn (seed ||| 1) input

/-- Pieces cut at the given offsets, of an input that itself starts at offset `start`. -/
def atOffsetsFrom (start : Nat) (input : Bytes) : List Nat → List Bytes
  | [] => [input]
  | offset :: offsets =>
    input.take (offset - start) :: atOffsetsFrom offset (input.drop (offset - start)) offsets

/-- Pieces cut at the given offsets, in rising order. -/
def atOffsets (offsets : List Nat) (input : Bytes) : List Bytes :=
  atOffsetsFrom 0 input offsets

end Chunking

end JsonStream
