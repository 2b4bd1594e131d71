import Lox.Text.Quoted
/-!
# Quoted text read back

The quoted form of a text shows where it ends and what it stands for, whatever text follows it:
`decode_encode`. So no two texts have the same quoted form.
-/

namespace Lox

/-! ## Units and their bytes -/

/-- The bytes of a unit of text. -/
def TextUnit.bytes : TextUnit → Bytes
  | .char c => Bytes.ofChar c
  | .stray b => [b]

theorem Bytes.ofChar_eq (c : Char) : ofChar c = String.utf8EncodeChar c := by
  unfold ofChar utf8
  rw [String.toUTF8_eq_toByteArray, String.toByteArray_singleton, List.utf8Encode_singleton]
  simp

/-- A byte of ASCII is written for its own character only. -/
theorem Bytes.eq_of_mem_ofChar {c : Char} {b : UInt8} (h : b ∈ ofChar c) (hb : b.toNat < 128) :
    c = Char.ofNat b.toNat := by
  rw [ofChar_eq, String.utf8EncodeChar] at h
  have hc : c.val.toNat = c.toNat := rfl
  repeat' split at h
  all_goals
    simp only [List.mem_cons, List.not_mem_nil, or_false] at h
    rcases h with rfl | rfl | rfl | rfl <;> simp only [UInt8.toNat_ofNat'] at hb ⊢
  · rename_i hle
    rw [Nat.mod_eq_of_lt (by omega), hc, Char.ofNat_toNat]
  all_goals omega

theorem Bytes.ofChar_ascii {c : Char} (h : c.toNat < 128) : ofChar c = [UInt8.ofNat c.toNat] := by
  rw [ofChar_eq]
  exact if_pos (Nat.le_of_lt_succ h)

namespace Utf8

theorem toNat_ofNat {n : Nat} (h : n.isValidChar) : (Char.ofNat n).val.toNat = n := by
  rw [Char.ofNat, dif_pos h]
  rfl

theorem byte_eq {n : Nat} {b : UInt8} (h : n = b.toNat) : UInt8.ofNat n = b := by
  rw [h, UInt8.ofNat_toNat]

theorem toNat_of_isContinuation {b : UInt8} (h : isContinuation b = true) :
    128 ≤ b.toNat ∧ b.toNat ≤ 191 := by
  simpa [isContinuation, UInt8.le_iff_toNat_le] using h

theorem ofChar_one {b : UInt8} (h : b.toNat < 128) :
    Bytes.ofChar (Char.ofNat b.toNat) = [b] := by
  rw [Bytes.ofChar_eq, String.utf8EncodeChar, toNat_ofNat (by omega), if_pos (by omega),
    UInt8.ofNat_toNat]

theorem ofChar_two {b c : UInt8} (hb : 194 ≤ b.toNat) (hb' : b.toNat ≤ 223)
    (hc : isContinuation c = true) :
    Bytes.ofChar (Char.ofNat (b.toNat % 32 * 64 + tailBits c)) = [b, c] := by
  have hc := toNat_of_isContinuation hc
  unfold tailBits
  generalize hn : b.toNat % 32 * 64 + c.toNat % 64 = n
  rw [Bytes.ofChar_eq, String.utf8EncodeChar, toNat_ofNat (by omega), if_neg (by omega),
    if_pos (by omega), byte_eq (b := b) (by omega), byte_eq (b := c) (by omega)]

theorem ofChar_three {b c d : UInt8} (hb : 224 ≤ b.toNat) (hb' : b.toNat ≤ 239)
    (hc : isContinuation c = true) (hd : isContinuation d = true)
    (hlow : b.toNat = 224 → 160 ≤ c.toNat) (hhigh : b.toNat = 237 → c.toNat ≤ 159) :
    Bytes.ofChar (Char.ofNat (b.toNat % 16 * 4096 + tailBits c * 64 + tailBits d)) = [b, c, d] := by
  have hc := toNat_of_isContinuation hc
  have hd := toNat_of_isContinuation hd
  unfold tailBits
  generalize hn : b.toNat % 16 * 4096 + c.toNat % 64 * 64 + d.toNat % 64 = n
  rw [Bytes.ofChar_eq, String.utf8EncodeChar, toNat_ofNat (by omega), if_neg (by omega),
    if_neg (by omega), if_pos (by omega), byte_eq (b := b) (by omega), byte_eq (b := c) (by omega),
    byte_eq (b := d) (by omega)]

theorem ofChar_four {b c d e : UInt8} (hb : 240 ≤ b.toNat) (hb' : b.toNat ≤ 244)
    (hc : isContinuation c = true) (hd : isContinuation d = true) (he : isContinuation e = true)
    (hlow : b.toNat = 240 → 144 ≤ c.toNat) (hhigh : b.toNat = 244 → c.toNat ≤ 143) :
    Bytes.ofChar (Char.ofNat
      (b.toNat % 8 * 262144 + tailBits c * 4096 + tailBits d * 64 + tailBits e)) =
      [b, c, d, e] := by
  have hc := toNat_of_isContinuation hc
  have hd := toNat_of_isContinuation hd
  have he := toNat_of_isContinuation he
  unfold tailBits
  generalize hn :
    b.toNat % 8 * 262144 + c.toNat % 64 * 4096 + d.toNat % 64 * 64 + e.toNat % 64 = n
  rw [Bytes.ofChar_eq, String.utf8EncodeChar, toNat_ofNat (by omega), if_neg (by omega),
    if_neg (by omega), if_neg (by omega), byte_eq (b := b) (by omega), byte_eq (b := c) (by omega),
    byte_eq (b := d) (by omega), byte_eq (b := e) (by omega)]

/-- A character that is read from bytes is written with the same bytes. -/
theorem ofChar_sequence {b : UInt8} {rest : Bytes} {c : Char} {k : Nat}
    (h : sequence b rest = some (c, k)) : Bytes.ofChar c = b :: rest.take k := by
  revert h
  fun_cases sequence b rest with
  | case1 _ hb =>
    rintro ⟨⟩
    exact ofChar_one hb
  | case4 _ c rest hc hb =>
    rintro ⟨⟩
    simp only [Bool.not_eq_true', Bool.not_eq_false] at hc
    simp only [Bool.and_eq_true, decide_eq_true_eq] at hb
    exact ofChar_two hb.1 hb.2 hc
  | case8 _ c hc _ d rest hd hb hrange =>
    rintro ⟨⟩
    simp only [Bool.not_eq_true', Bool.not_eq_false] at hc hd
    simp only [Bool.and_eq_true, Bool.or_eq_true, decide_eq_true_eq, beq_iff_eq, not_or, not_and,
      UInt8.not_lt] at hb hrange
    exact ofChar_three hb.1 hb.2 hc hd (fun h => hrange.1 (UInt8.toNat_inj.1 h))
      fun h => hrange.2 (UInt8.toNat_inj.1 h)
  | case12 _ c hc _ d hd _ e rest he hb hrange =>
    rintro ⟨⟩
    simp only [Bool.not_eq_true', Bool.not_eq_false] at hc hd he
    simp only [Bool.and_eq_true, Bool.or_eq_true, decide_eq_true_eq, beq_iff_eq, not_or, not_and,
      UInt8.not_lt] at hb hrange
    exact ofChar_four hb.1 hb.2 hc hd he (fun h => hrange.1 (UInt8.toNat_inj.1 h))
      fun h => hrange.2 (UInt8.toNat_inj.1 h)
  | _ => rintro ⟨⟩

theorem bytes_unitsAfter (s : Bytes) (k : Nat) :
    (unitsAfter k s).flatMap TextUnit.bytes = s.drop k := by
  induction s generalizing k with
  | nil => simp [unitsAfter]
  | cons b rest ih =>
    cases k with
    | succ k => simpa [unitsAfter] using ih k
    | zero =>
      rw [unitsAfter]
      split
      · rename_i c k hseq
        simp [TextUnit.bytes, ih, ofChar_sequence hseq]
      · simp [TextUnit.bytes, ih]

/-- Nothing is lost when a text is split into units. -/
theorem bytes_units (s : Bytes) : (units s).flatMap TextUnit.bytes = s := bytes_unitsAfter s 0

end Utf8

namespace Quoted

/-! ## Hexadecimal digits -/

/-- The number that a byte stands for as a hexadecimal digit. -/
def hexValue (b : UInt8) : Nat :=
  if Bytes.isDigit b then Bytes.digitValue b else b.toNat - 'a'.toNat + 10

/-- The number written by a row of hexadecimal digits. -/
def readHex (ds : Bytes) : Nat := ds.foldl (fun n d => 16 * n + hexValue d) 0

theorem readHex_append (ds : Bytes) (d : UInt8) :
    readHex (ds ++ [d]) = 16 * readHex ds + hexValue d := by
  simp [readHex]

theorem hexValue_digitChar : ∀ d < 16, hexValue (Nat.digitChar d).toUInt8 = d := by decide

theorem readHex_toDigits (n : Nat) : readHex ((Nat.toDigits 16 n).map Char.toUInt8) = n := by
  induction n using Nat.strongRecOn with
  | ind n ih =>
    rw [Nat.toDigits_eq_if (by decide)]
    split
    · rename_i hn
      simpa [readHex] using hexValue_digitChar n hn
    · rename_i hn
      rw [List.map_append, List.map_singleton, readHex_append, ih _ (by omega),
        hexValue_digitChar _ (by omega)]
      omega

theorem readHex_zeros (k : Nat) (ds : Bytes) :
    readHex (List.replicate k '0'.toUInt8 ++ ds) = readHex ds := by
  induction k with
  | zero => rfl
  | succ k ih => exact ih

theorem readHex_hex (width n : Nat) : readHex (Bytes.hex width n) = n := by
  rw [Bytes.hex, readHex_zeros, readHex_toDigits]

theorem length_hex {width n : Nat} (h : (Nat.toDigits 16 n).length ≤ width) :
    (Bytes.hex width n).length = width := by
  simp [Bytes.hex]
  omega

/-! ## Reading -/

/-- What the letter of a short escape stands for. -/
def unescaped (letter : UInt8) : UInt8 :=
  if letter == 'a'.toUInt8 then '\x07'.toUInt8
  else if letter == 'b'.toUInt8 then '\x08'.toUInt8
  else if letter == 'f'.toUInt8 then '\x0c'.toUInt8
  else if letter == 'n'.toUInt8 then '\n'.toUInt8
  else if letter == 'r'.toUInt8 then '\r'.toUInt8
  else if letter == 't'.toUInt8 then '\t'.toUInt8
  else if letter == 'v'.toUInt8 then '\x0b'.toUInt8
  else letter

/-- What the piece that starts with `b` stands for, and how many bytes it takes after `b`. -/
def piece (b : UInt8) (rest : Bytes) : Bytes × Nat :=
  if b != '\\'.toUInt8 then ([b], 0)
  else match rest with
    | [] => ([], 0)
    | letter :: rest =>
      if letter == 'x'.toUInt8 then ([UInt8.ofNat (readHex (rest.take 2))], 3)
      else if letter == 'u'.toUInt8 then (Bytes.ofChar (Char.ofNat (readHex (rest.take 4))), 5)
      else if letter == 'U'.toUInt8 then (Bytes.ofChar (Char.ofNat (readHex (rest.take 8))), 9)
      else ([unescaped letter], 1)

/-- The text in front of the closing quote and what stands after that quote, the first `skip` bytes
being part of a piece already read. -/
def decodeAfter : Nat → Bytes → Bytes × Bytes
  | _, [] => ([], [])
  | skip + 1, _ :: rest => decodeAfter skip rest
  | 0, b :: rest =>
    if b == '"'.toUInt8 then ([], rest)
    else
      let (value, taken) := piece b rest
      let decoded := decodeAfter taken rest
      (value ++ decoded.1, decoded.2)

/-- What a quoted text stands for, and what follows it. -/
def decode (text : Bytes) : Bytes × Bytes := decodeAfter 0 text.tail

theorem decodeAfter_skip (taken rest : Bytes) :
    decodeAfter taken.length (taken ++ rest) = decodeAfter 0 rest := by
  induction taken with
  | nil => rfl
  | cons b taken ih => exact ih

/-- The text stands for `value` inside quotes. -/
def Spells (text value : Bytes) : Prop :=
  ∀ rest, decodeAfter 0 (text ++ rest) =
    (value ++ (decodeAfter 0 rest).1, (decodeAfter 0 rest).2)

namespace Spells

variable {text text' value value' : Bytes}

theorem nil : Spells [] [] := fun _ => rfl

theorem append (h : Spells text value) (h' : Spells text' value') :
    Spells (text ++ text') (value ++ value') := by
  intro rest
  rw [List.append_assoc, h, h', List.append_assoc]

/-- A piece after which reading goes on where the piece ends. -/
theorem of_piece {b : UInt8} (hb : b ≠ '"'.toUInt8)
    (h : ∀ rest, piece b (text ++ rest) = (value, text.length)) : Spells (b :: text) value := by
  intro rest
  simp only [List.cons_append, decodeAfter, beq_iff_eq, hb, if_false, h, decodeAfter_skip]

theorem verbatim (h : ∀ b ∈ text, b ≠ '"'.toUInt8 ∧ b ≠ '\\'.toUInt8) : Spells text text := by
  induction text with
  | nil => exact .nil
  | cons b text ih =>
    obtain ⟨hquote, hslash⟩ := h b List.mem_cons_self
    have hhead : Spells [b] [b] := .of_piece hquote fun rest => by simp [piece, hslash]
    exact hhead.append (ih fun c hc => h c (List.mem_cons_of_mem b hc))

theorem short {letter : UInt8} (hx : letter ≠ 'x'.toUInt8) (hu : letter ≠ 'u'.toUInt8)
    (hU : letter ≠ 'U'.toUInt8) : Spells ['\\'.toUInt8, letter] [unescaped letter] :=
  .of_piece (by decide) fun rest => by simp [piece, hx, hu, hU]

/-- An escape with hexadecimal digits, `f` telling what a row of them stands for. -/
theorem hex {letter : Char} {width n : Nat} {f : Bytes → Bytes}
    (hp : ∀ rest, piece '\\'.toUInt8 (letter.toUInt8 :: rest) = (f (rest.take width), width + 1))
    (hn : n < Nat.pow 16 width) (hw : 0 < width) :
    Spells (hexEscape letter width n) (f (Bytes.hex width n)) := by
  have hlen : (Bytes.hex width n).length = width :=
    length_hex ((Nat.length_toDigits_le_iff (by decide) hw).2 hn)
  refine .of_piece (by decide) fun rest => ?_
  rw [List.cons_append, hp, List.take_left' hlen, List.length_cons, hlen]

end Spells

theorem spells_byte {n : Nat} (h : n < 256) : Spells (hexEscape 'x' 2 n) [UInt8.ofNat n] := by
  have hspells : Spells (hexEscape 'x' 2 n) [UInt8.ofNat (readHex (Bytes.hex 2 n))] :=
    .hex (f := fun ds => [UInt8.ofNat (readHex ds)]) (fun _ => rfl) h (by decide)
  rwa [readHex_hex] at hspells

theorem spells_wide {c : Char} {letter : Char} {width : Nat}
    (hp : ∀ rest, piece '\\'.toUInt8 (letter.toUInt8 :: rest) =
      (Bytes.ofChar (Char.ofNat (readHex (rest.take width))), width + 1))
    (hc : c.toNat < Nat.pow 16 width) (hw : 0 < width) :
    Spells (hexEscape letter width c.toNat) (Bytes.ofChar c) := by
  have hspells := Spells.hex (f := fun ds => Bytes.ofChar (Char.ofNat (readHex ds))) hp hc hw
  rwa [readHex_hex, Char.ofNat_toNat] at hspells

theorem spells_shortEscape {c letter : Char} (h : shortEscape? c = some letter) :
    Spells ['\\'.toUInt8, letter.toUInt8] (Bytes.ofChar c) := by
  unfold shortEscape? at h
  split at h
  case h_8 => cases h
  all_goals
    obtain rfl := Option.some.inj h
    exact .short (by decide) (by decide) (by decide)

theorem spells_encodeChar (c : Char) : Spells (encodeChar c) (Bytes.ofChar c) := by
  unfold encodeChar
  split
  · rename_i hc
    obtain rfl | rfl : c = '"' ∨ c = '\\' := by simpa using hc
    all_goals exact .short (by decide) (by decide) (by decide)
  rename_i hc
  split
  · obtain ⟨hquote, hslash⟩ : c ≠ '"' ∧ c ≠ '\\' := by simpa using hc
    refine .verbatim fun b hb => ⟨?_, ?_⟩ <;> rintro rfl
    · exact hquote (Bytes.eq_of_mem_ofChar hb (by decide))
    · exact hslash (Bytes.eq_of_mem_ofChar hb (by decide))
  split
  · exact spells_shortEscape ‹_›
  split
  · rename_i hascii
    rw [Bytes.ofChar_ascii hascii]
    exact spells_byte (by omega)
  split
  · exact spells_wide (fun _ => rfl) ‹_› (by decide)
  · exact spells_wide (fun _ => rfl) c.val.toNat_lt (by decide)

theorem spells_encodeUnit (u : TextUnit) : Spells (encodeUnit u) u.bytes := by
  cases u with
  | char c => exact spells_encodeChar c
  | stray b =>
    have h := spells_byte b.toNat_lt
    rwa [UInt8.ofNat_toNat] at h

theorem spells_encodeUnits (us : List TextUnit) :
    Spells (us.flatMap encodeUnit) (us.flatMap TextUnit.bytes) := by
  induction us with
  | nil => exact .nil
  | cons u us ih => exact (spells_encodeUnit u).append ih

/-- **Quoted text is read back**, and what follows it is left over. -/
theorem decode_encode (s rest : Bytes) : decode (encode s ++ rest) = (s, rest) := by
  have h := spells_encodeUnits (Utf8.units s) ('"'.toUInt8 :: rest)
  rw [Utf8.bytes_units] at h
  simpa [decode, encode, decodeAfter] using h

end Quoted

end Lox
