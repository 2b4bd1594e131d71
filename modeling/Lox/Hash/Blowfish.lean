import Lox.Text.Bytes
/-!
# Blowfish

A block cipher with a large table of words. The table starts out as the binary digits of the
fractional part of π and is then stirred with a key, and with a salt where there is one.
-/

namespace Lox.Blowfish

/-- Round keys and substitution boxes, one after the other. -/
def tableSize : Nat := 18 + 4 * 256

/-- Adds up the series of `unit * arctan (1 / k)`, at most `terms` terms from number `i` on. -/
def arctanSeries (k : Nat) : (terms : Nat) → (i term : Nat) → Int → Int
  | 0, _, _, sum => sum
  | terms + 1, i, term, sum =>
    if term = 0 then sum
    else
      let part : Int := (term / (2 * i + 1) : Nat)
      arctanSeries k terms (i + 1) (term / (k * k)) (if i % 2 == 0 then sum + part else sum - part)

/-- `arctan (1 / k)`, scaled by `2 ^ bits`. -/
def arctanInverse (k bits : Nat) : Int := arctanSeries k bits 0 (Nat.pow 2 bits / k) 0

/-- The first `bits` binary digits of the fractional part of π, by Machin's formula. -/
def piFraction (bits : Nat) : Nat :=
  let guard := 64
  let pi := 16 * arctanInverse 5 (bits + guard) - 4 * arctanInverse 239 (bits + guard)
  (pi / Nat.pow 2 guard).toNat % Nat.pow 2 bits

abbrev Table := Array UInt32

/-- The table before any key. -/
def piTable : Table :=
  let digits := piFraction (32 * tableSize)
  ((List.range tableSize).map fun i =>
    UInt32.ofNat (digits / Nat.pow 2 (32 * (tableSize - 1 - i)) % Nat.pow 2 32)).toArray

/-- What a round adds to the other half of a block. -/
@[inline] def mix (t : Table) (x : UInt32) : UInt32 :=
  let a := t.getD (18 + (x >>> 24).toNat) 0
  let b := t.getD (274 + ((x >>> 16) &&& 0xff).toNat) 0
  let c := t.getD (530 + ((x >>> 8) &&& 0xff).toNat) 0
  let d := t.getD (786 + (x &&& 0xff).toNat) 0
  ((a + b) ^^^ c) + d

/-- Rounds with the keys from number `i` on, the halves changing places after each. -/
def rounds (t : Table) : (left i : Nat) → (l r : UInt32) → UInt32 × UInt32
  | 0, _, l, r => (l, r)
  | left + 1, i, l, r =>
    let l := l ^^^ t.getD i 0
    rounds t left (i + 1) (r ^^^ mix t l) l

/-- Encrypts a block of two words. -/
def encrypt (t : Table) (l r : UInt32) : UInt32 × UInt32 :=
  let (l, r) := rounds t 16 0 l r
  (r ^^^ t.getD 17 0, l ^^^ t.getD 16 0)

/-- The first `n` words of a text that is repeated without end. -/
def cyclicWords (text : Array UInt8) (n : Nat) : Array UInt32 :=
  ((List.range n).map fun i =>
    (List.range 4).foldl (fun (w : UInt32) k =>
      (w <<< 8) ||| (text.getD ((4 * i + k) % text.size) 0).toUInt32) 0).toArray

/-- Replaces the table pair by pair with the encryption of what came before it, mixed with
`salt`; `left` pairs are to do, the first of them at place `i`. -/
def stir (salt : Array UInt32) : (left i : Nat) → (l r : UInt32) → Table → Table
  | 0, _, _, _, t => t
  | left + 1, i, l, r, t =>
    let (l, r) := encrypt t (l ^^^ salt.getD i 0) (r ^^^ salt.getD (i + 1) 0)
    stir salt left (i + 2) l r ((t.setIfInBounds i l).setIfInBounds (i + 1) r)

/-- Works a key, and a salt, into the table. -/
def expand (key salt : Array UInt32) (t : Table) : Table :=
  let t := (List.range 18).foldl (fun t i => t.modify i (· ^^^ key.getD i 0)) t
  stir salt (tableSize / 2) 0 0 0 t

/-- Works two keys into the table, in turns, `n` times. -/
def expandTimes (first second : Array UInt32) : Nat → Table → Table
  | 0, t => t
  | n + 1, t => expandTimes first second n (expand second #[] (expand first #[] t))

/-- Encrypts a block `n` times over. -/
def encryptTimes (t : Table) : Nat → UInt32 × UInt32 → UInt32 × UInt32
  | 0, block => block
  | n + 1, (l, r) => encryptTimes t n (encrypt t l r)

end Lox.Blowfish
