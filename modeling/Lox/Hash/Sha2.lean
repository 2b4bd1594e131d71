import Lox.Text.Bytes
/-!
# SHA-2

The hash functions with 256, 384 and 512 bits. They differ in the width of a word, the number
of rounds and the rotations; their constants are the fractional parts of roots of primes.
-/

namespace Lox.Sha2

/-- What tells one function of the family from another. -/
structure Variant where
  /-- Bits of a word. -/
  width : Nat
  rounds : Nat
  /-- The rotations that mix the first and fifth words of the state. -/
  mixA : Nat × Nat × Nat
  mixE : Nat × Nat × Nat
  /-- Two rotations and a shift each, that extend the message. -/
  extend15 : Nat × Nat × Nat
  extend2 : Nat × Nat × Nat
  constants : List Nat
  initial : List Nat
  /-- Bytes of the result. -/
  size : Nat

/-- The largest `r` with `r ^ k ≤ n`, given that it is below `2 ^ bits`. -/
def root (k n : Nat) : (bits : Nat) → Nat → Nat
  | 0, r => r
  | bits + 1, r =>
    let raised := r + Nat.pow 2 bits
    if Nat.pow raised k ≤ n then root k n bits raised else root k n bits r

/-- The first `width` bits after the point of the `k`-th root of `n`. -/
def rootFraction (k width n : Nat) : Nat :=
  root k (n * Nat.pow 2 (k * width)) (width + 8) 0 % Nat.pow 2 width

def isPrime (n : Nat) : Bool := 2 ≤ n && (List.range n).all fun d => d < 2 || n % d != 0

/-- The first eighty primes, and a few more. -/
def primes : List Nat := (List.range 420).filter isPrime

def sha256 : Variant where
  width := 32
  rounds := 64
  mixA := (2, 13, 22)
  mixE := (6, 11, 25)
  extend15 := (7, 18, 3)
  extend2 := (17, 19, 10)
  constants := (primes.take 64).map (rootFraction 3 32)
  initial := (primes.take 8).map (rootFraction 2 32)
  size := 32

def sha512 : Variant where
  width := 64
  rounds := 80
  mixA := (28, 34, 39)
  mixE := (14, 18, 41)
  extend15 := (1, 8, 7)
  extend2 := (19, 61, 6)
  constants := (primes.take 80).map (rootFraction 3 64)
  initial := (primes.take 8).map (rootFraction 2 64)
  size := 64

def sha384 : Variant :=
  { sha512 with initial := ((primes.drop 8).take 8).map (rootFraction 2 64), size := 48 }

namespace Variant

variable (v : Variant)

/-- Bytes of a block. -/
def blockSize : Nat := 2 * v.width

def add (x y : Nat) : Nat := (x + y) % Nat.pow 2 v.width

def rotate (x n : Nat) : Nat := (x / Nat.pow 2 n + x * Nat.pow 2 (v.width - n)) % Nat.pow 2 v.width

def mix (r : Nat × Nat × Nat) (x : Nat) : Nat :=
  v.rotate x r.1 ^^^ v.rotate x r.2.1 ^^^ v.rotate x r.2.2

def extend (r : Nat × Nat × Nat) (x : Nat) : Nat :=
  v.rotate x r.1 ^^^ v.rotate x r.2.1 ^^^ (x / Nat.pow 2 r.2.2)

/-- A number in `n` bytes, the highest first. -/
def bigEndian (n x : Nat) : Bytes :=
  (List.range n).map fun i => UInt8.ofNat (x / Nat.pow 256 (n - 1 - i))

def readWord (bytes : Bytes) : Nat := bytes.foldl (fun n b => 256 * n + b.toNat) 0

/-- The message with a one bit, zeros and its length in bits after it, up to whole blocks. -/
def pad (message : Bytes) : Bytes :=
  let lengthSize := v.width / 4
  let used := message.length + 1 + lengthSize
  let zeros := (v.blockSize - used % v.blockSize) % v.blockSize
  message ++ (0x80 :: (List.replicate zeros 0 ++ bigEndian lengthSize (8 * message.length)))

/-- The first `count` pieces of `n` items each. -/
def firstPieces {α : Type} (n : Nat) : (count : Nat) → List α → List (List α)
  | 0, _ => []
  | count + 1, items => items.take n :: firstPieces n count (items.drop n)

/-- Pieces of `n` items each. -/
def pieces {α : Type} (n : Nat) (items : List α) : List (List α) :=
  firstPieces n (items.length / n) items

/-- The words of a block, extended to one for each round. -/
def schedule (block : Bytes) : Array Nat :=
  let first := ((pieces (v.width / 8) block).map readWord).toArray
  (List.range (v.rounds - 16)).foldl (fun w i =>
    let at' (k : Nat) := w[i + k]?.getD 0
    w.push (v.add (v.add (at' 0) (v.extend v.extend15 (at' 1)))
      (v.add (at' 9) (v.extend v.extend2 (at' 14))))) first

/-- One round, on the eight words of the state. -/
def round (state : List Nat) (constant word : Nat) : List Nat :=
  match state with
  | [a, b, c, d, e, f, g, h] =>
    let choice := (e &&& f) ^^^ ((Nat.pow 2 v.width - 1 - e) &&& g)
    let majority := (a &&& b) ^^^ (a &&& c) ^^^ (b &&& c)
    let t := v.add (v.add (v.add h (v.mix v.mixE e)) (v.add choice constant)) word
    [v.add t (v.add (v.mix v.mixA a) majority), a, b, c, v.add d t, e, f, g]
  | other => other

/-- Works a block into the state. -/
def compress (state : List Nat) (block : Bytes) : List Nat :=
  let rounds := v.constants.zip (v.schedule block).toList
  let result := rounds.foldl (fun s (k, w) => v.round s k w) state
  state.zipWith v.add result

/-- The hash of a message. -/
def hash (message : Bytes) : Bytes :=
  let state := (pieces v.blockSize (v.pad message)).foldl v.compress v.initial
  (state.flatMap (bigEndian (v.width / 8))).take v.size

/-- The keyed hash of a message. A key that is longer than a block is hashed first. -/
def hmac (key message : Bytes) : Bytes :=
  let key := if v.blockSize < key.length then v.hash key else key
  let key := key ++ List.replicate (v.blockSize - key.length) 0
  v.hash (key.map (· ^^^ 0x5c) ++ v.hash (key.map (· ^^^ 0x36) ++ message))

end Variant

end Lox.Sha2
