/-!
# A stream of random words

A seed of 64 bits is stretched to a key of eight words by a linear congruential generator with a
permuted output. The key numbers the blocks of a ChaCha stream with twelve rounds, and the words of
these blocks, in order, are the random words.
-/
namespace Transportation

abbrev StreamKey := List UInt32

namespace StreamKey

def rotateLeft (x : UInt32) (n : UInt32) : UInt32 := (x <<< n) ||| (x >>> (32 - n))

def rotateRight (x : UInt32) (n : UInt32) : UInt32 :=
  if n = 0 then x else (x >>> n) ||| (x <<< (32 - n))

def nextState (state : UInt64) : UInt64 :=
  state * 6364136223846793005 + 11634580027462260723

def output (state : UInt64) : UInt32 :=
  rotateRight (((state >>> 18) ^^^ state) >>> 27).toUInt32 (state >>> 59).toUInt32

def words : Nat → UInt64 → List UInt32
  | 0, _ => []
  | n + 1, state => output (nextState state) :: words n (nextState state)

def ofSeed (seed : UInt64) : StreamKey := words 8 seed

def quarterRound (block : Array UInt32) (a b c d : Nat) : Array UInt32 :=
  let word (k : Nat) : UInt32 := block.getD k 0
  let xa := word a + word b
  let xd := rotateLeft (word d ^^^ xa) 16
  let xc := word c + xd
  let xb := rotateLeft (word b ^^^ xc) 12
  let xa := xa + xb
  let xd := rotateLeft (xd ^^^ xa) 8
  let xc := xc + xd
  let xb := rotateLeft (xb ^^^ xc) 7
  (((block.setIfInBounds a xa).setIfInBounds b xb).setIfInBounds c xc).setIfInBounds d xd

def doubleRound : List (Nat × Nat × Nat × Nat) :=
  [(0, 4, 8, 12), (1, 5, 9, 13), (2, 6, 10, 14), (3, 7, 11, 15),
    (0, 5, 10, 15), (1, 6, 11, 12), (2, 7, 8, 13), (3, 4, 9, 14)]

def rounds : Nat → Array UInt32 → Array UInt32
  | 0, block => block
  | n + 1, block =>
    rounds n (doubleRound.foldl (fun x (a, b, c, d) => quarterRound x a b c d) block)

def constants : List UInt32 := [0x61707865, 0x3320646e, 0x79622d32, 0x6b206574]

/-- The input words of block `k`: the constants, the key, the number of the block, and two zeros. -/
def blockInput (key : StreamKey) (k : UInt64) : List UInt32 :=
  constants ++ key ++ [k.toUInt32, (k >>> 32).toUInt32, 0, 0]

def block (key : StreamKey) (k : UInt64) : List UInt32 :=
  let input := blockInput key k
  List.zipWith (· + ·) (rounds 6 input.toArray).toList input

end StreamKey

structure KeyStream where
  key : StreamKey
  ready : List UInt32
  nextBlock : UInt64

namespace KeyStream

def ofSeed (seed : UInt64) : KeyStream := ⟨.ofSeed seed, [], 0⟩

def next (s : KeyStream) : UInt32 × KeyStream :=
  match s.ready with
  | word :: rest => (word, { s with ready := rest })
  | [] =>
    match s.key.block s.nextBlock with
    | word :: rest => (word, { s with ready := rest, nextBlock := s.nextBlock + 1 })
    | [] => (0, s)

end KeyStream

end Transportation
