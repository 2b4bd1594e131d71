import Lox.Text.Bytes
/-!
# Base64

Three bytes make four letters of an alphabet of 64. The last letters of a text may stand for one
or two bytes only; their unused bits are ignored when reading. Line breaks are skipped. With
padding, equals signs take the place of letters that are missing at the end.
-/

namespace Lox.Base64

/-- The sixty-four letters, in the order of their values. -/
structure Alphabet where
  letters : Bytes

/-- Letters that need no escaping in addresses. -/
def url : Alphabet :=
  ⟨utf8 "ABCDEFGHIJKLMNOPQRSTUVWXYZabcdefghijklmnopqrstuvwxyz0123456789-_"⟩

/-- The usual letters. -/
def standard : Alphabet :=
  ⟨utf8 "ABCDEFGHIJKLMNOPQRSTUVWXYZabcdefghijklmnopqrstuvwxyz0123456789+/"⟩

def Alphabet.letter (a : Alphabet) (value : Nat) : UInt8 := a.letters[value % 64]?.getD 0

def Alphabet.value? (a : Alphabet) (letter : UInt8) : Option Nat := a.letters.idxOf? letter

def encode (a : Alphabet) : Bytes → Bytes
  | [] => []
  | [x] =>
    let n := x.toNat * 65536
    [a.letter (n / 262144), a.letter (n / 4096)]
  | [x, y] =>
    let n := x.toNat * 65536 + y.toNat * 256
    [a.letter (n / 262144), a.letter (n / 4096), a.letter (n / 64)]
  | x :: y :: z :: rest =>
    let n := x.toNat * 65536 + y.toNat * 256 + z.toNat
    a.letter (n / 262144) :: a.letter (n / 4096) :: a.letter (n / 64) :: a.letter n ::
      encode a rest

/-- Reads on at position `i`, with the values of the letters of an unfinished group, last first.
The error is the position of the letter that does not fit. -/
def decodeFrom (a : Alphabet) (i : Nat) (group : List Nat) : Bytes → Except Nat Bytes
  | [] =>
    match group with
    | [q, p] => .ok [UInt8.ofNat ((p * 64 + q) / 16)]
    | [r, q, p] =>
      let n := (p * 64 + q) * 64 + r
      .ok [UInt8.ofNat (n / 1024), UInt8.ofNat (n / 4)]
    | [] => .ok []
    | _ => .error (i - 1)
  | b :: rest =>
    if b == '\n'.toUInt8 || b == '\r'.toUInt8 then decodeFrom a (i + 1) group rest
    else match a.value? b with
      | none => .error i
      | some v =>
        match group with
        | [r, q, p] =>
          let n := ((p * 64 + q) * 64 + r) * 64 + v
          match decodeFrom a (i + 1) [] rest with
          | .ok more =>
            .ok (UInt8.ofNat (n / 65536) :: UInt8.ofNat (n / 256) :: UInt8.ofNat n :: more)
          | .error e => .error e
        | _ => decodeFrom a (i + 1) (v :: group) rest

def decode (a : Alphabet) (s : Bytes) : Except Nat Bytes := decodeFrom a 0 [] s

/-- Reads a text with padding, of which the length is a multiple of four. -/
def decodePadded? (a : Alphabet) (s : Bytes) : Option Bytes :=
  let s := s.filter fun b => !(b == '\n'.toUInt8 || b == '\r'.toUInt8)
  let padding := if Bytes.endsWith (utf8 "==") s then 2 else if Bytes.endsWith (utf8 "=") s then 1
    else 0
  if s.length % 4 != 0 then none else (decode a (s.take (s.length - padding))).toOption

end Lox.Base64
