import Lox.Decimal.Layout
/-!
# Plain numbers

A number read from decimal digits is never negative and never not a number (`clean_read`). Unless
it is infinite, it is written in digits with at most one point between them, where no exponents are
used (`numeral_write_read`).
-/

namespace Lox.Decimal

open Float.Model (UnpackedFloat Format)
open Float.Model.UnpackedFloat

/-! ## Doubles that are not negative -/

/-- Neither negative nor not a number. -/
def isNonNegative : UnpackedFloat → Bool
  | .infinity .positive | .zero .positive | .finite .positive .. => true
  | _ => false

/-- Above zero, and not infinite. -/
def isPositive : UnpackedFloat → Bool
  | .finite .positive .. => true
  | _ => false

/-- The sign, exponent and fraction of a double, side by side. -/
def bits (x : Float) : BitVec Format.binary64.numBits := x.toBits.toBitVec

/-- The fields of a double that is neither negative nor not a number. -/
structure Clean (b : BitVec Format.binary64.numBits) : Prop where
  sign : unpackSign b = 0#1
  fraction : unpackExponent b = -1#_ → unpackMantissa b = 0#_

theorem unpackSign_packComponents {spec : Format} {sign exponent mantissa} :
    unpackSign (packComponents spec sign exponent mantissa) = sign.toBitVec := by
  have hsign (b : BitVec spec.numBits) : unpackSign b =
      (b.extractLsb (spec.mantissaBitsWithoutImplicit + spec.exponentBits)
        (spec.mantissaBitsWithoutImplicit + spec.exponentBits)).cast (by omega) := rfl
  ext i hi
  obtain rfl : i = 0 := by omega
  rw [hsign]
  simp [packComponents, BitVec.getLsbD_append, BitVec.getElem_append]

theorem clean_packComponents {exponent mantissa} (h : exponent = -1#_ → mantissa = 0#_) :
    Clean (packComponents Format.binary64 .positive exponent mantissa) := by
  refine ⟨unpackSign_packComponents, ?_⟩
  rwa [unpackExponent_packComponents, unpackMantissa_packComponents]

theorem clean_pack_finite (m : Nat) (e : Int) (hm : 0 < m) :
    Clean (UnpackedFloat.pack Format.binary64 (.finite .positive m e hm)) := by
  unfold UnpackedFloat.pack
  dsimp only
  split
  · exact clean_packComponents fun _ => rfl
  · rename_i hlt
    split
    · refine clean_packComponents fun hexp => ?_
      -- The exponent field of a number that is not too large is never all ones.
      have hnat := congrArg BitVec.toNat hexp
      simp at hnat hlt
      omega
    · exact clean_packComponents fun hexp => absurd hexp (by decide)

theorem clean_pack {u : UnpackedFloat} (h : isNonNegative u = true) :
    Clean (UnpackedFloat.pack Format.binary64 u) := by
  cases u with
  | notANumber => cases h
  | infinity sign =>
    cases sign with
    | negative => cases h
    | positive => exact clean_packComponents fun _ => rfl
  | zero sign =>
    cases sign with
    | negative => cases h
    | positive => exact clean_packComponents fun _ => rfl
  | finite sign m e hm =>
    cases sign with
    | negative => cases h
    | positive => exact clean_pack_finite m e hm

theorem isNonNegative_ite {p : Prop} [Decidable p] {u v : UnpackedFloat}
    (hu : p → isNonNegative u = true) (hv : ¬p → isNonNegative v = true) :
    isNonNegative (if p then u else v) = true := by
  by_cases h : p
  · rw [if_pos h]
    exact hu h
  · rw [if_neg h]
    exact hv h

theorem isNonNegative_dite {p : Prop} [Decidable p] {u : p → UnpackedFloat}
    {v : ¬p → UnpackedFloat} (hu : ∀ h, isNonNegative (u h) = true)
    (hv : ∀ h, isNonNegative (v h) = true) :
    isNonNegative (if h : p then u h else v h) = true := by
  by_cases h : p
  · rw [dif_pos h]
    exact hu h
  · rw [dif_neg h]
    exact hv h

theorem isNonNegative_unpack {b : BitVec Format.binary64.numBits} (h : Clean b) :
    isNonNegative (UnpackedFloat.unpack Format.binary64 b) = true := by
  unfold UnpackedFloat.unpack
  dsimp only
  rw [h.sign]
  refine isNonNegative_ite (fun hones => ?_) fun _ => isNonNegative_ite (fun _ => ?_) fun _ => rfl
  · exact isNonNegative_ite (fun _ => rfl) fun hm => absurd (h.fraction hones) hm
  · exact isNonNegative_dite (fun _ => rfl) fun _ => rfl

/-! ## Arithmetic -/

theorem isNonNegative_roundWithAccuracy (spec : Format) (m : Nat) (e : Int) (a : Accuracy) :
    isNonNegative (roundWithAccuracy spec .positive m e a) = true := by
  unfold roundWithAccuracy
  exact isNonNegative_dite (fun _ => rfl) fun _ => rfl

theorem isNonNegative_ofNat (spec : Format) (n : Nat) :
    isNonNegative (UnpackedFloat.ofNat spec n) = true := by
  unfold UnpackedFloat.ofNat UnpackedFloat.ofInt UnpackedFloat.normalize
  split
  · rename_i h
    exact absurd (Int.compare_eq_lt.1 h) (by omega)
  · rfl
  · exact isNonNegative_roundWithAccuracy ..

theorem isNonNegative_div (spec : Format) {u v : UnpackedFloat} (hu : isNonNegative u = true)
    (hv : isPositive v = true) : isNonNegative (UnpackedFloat.div spec u v) = true := by
  cases v with
  | finite sign m e hm =>
    cases sign with
    | negative => cases hv
    | positive =>
      cases u with
      | notANumber => cases hu
      | infinity sign => cases sign <;> first | rfl | cases hu
      | zero sign => cases sign <;> first | rfl | cases hu
      | finite sign m' e' hm' =>
        cases sign with
        | negative => cases hu
        | positive => exact isNonNegative_roundWithAccuracy ..
  | _ => cases hv

theorem isNonNegative_ofScientific (spec : Format) (m : Nat) (e : Int) :
    isNonNegative (UnpackedFloat.ofScientific spec m e) = true := by
  unfold UnpackedFloat.ofScientific
  refine isNonNegative_dite (fun _ => rfl) fun _ => isNonNegative_ite (fun _ => rfl) fun _ =>
    isNonNegative_ite (fun _ => rfl) fun _ => isNonNegative_ite (fun _ => ?_) fun _ => ?_
  · exact isNonNegative_roundWithAccuracy ..
  · exact isNonNegative_div spec rfl rfl

theorem isPositive_powerOfTen : ∀ p ∈ Float.exactlyRepresentablePowersOfTen.toList,
    isPositive p.toModel.unpack = true := by
  decide

theorem clean_read (whole fraction : Bytes) : Clean (bits (read whole fraction)) := by
  unfold read Float.ofScientific
  split
  · exact clean_pack (isNonNegative_div _
      (isNonNegative_unpack (clean_pack (isNonNegative_ofNat _ _)))
      (isPositive_powerOfTen _ (Array.getElem_mem_toList _)))
  · exact clean_pack (isNonNegative_ofScientific _ _ _)

/-! ## Digits -/

theorem toNat_unpackExponent (b : BitVec Format.binary64.numBits) :
    (unpackExponent b).toNat = b.toNat / Nat.pow 2 52 % Nat.pow 2 11 := by
  simp [unpackExponent, Nat.shiftRight_eq_div_pow]

theorem toNat_unpackSign (b : BitVec Format.binary64.numBits) :
    (unpackSign b).toNat = b.toNat / Nat.pow 2 63 % 2 := by
  have hsign : (unpackSign b).toNat = (b.extractLsb 63 63).toNat := rfl
  rw [hsign]
  simp [Nat.shiftRight_eq_div_pow]

/-- Zero or above, and not infinite. -/
def Parts.isPlain : Parts → Bool
  | .zero false | .finite false _ => true
  | _ => false

theorem isInf_of_exponent {x : Float} (h : Clean (bits x)) (hexp : unpackExponent (bits x) = -1#_) :
    x.isInf = true := by
  have hunpack : x.toModel.unpack = .infinity (Sign.ofBitVec (unpackSign (bits x))) :=
    (if_pos hexp).trans (if_pos (h.fraction hexp))
  unfold Float.isInf Float.Model.isInf
  rw [hunpack]
  rfl

theorem isPlain_parts {x : Float} (h : Clean (bits x)) (hinf : x.isInf = false) :
    (parts x).isPlain = true := by
  have hbits : (bits x).toNat = x.toBits.toNat := rfl
  have hsign : x.toBits.toNat / Nat.pow 2 63 = 0 := by
    have hzero := congrArg BitVec.toNat h.sign
    rw [toNat_unpackSign, hbits] at hzero
    have hlt := x.toBits.toNat_lt
    simp at hzero hlt ⊢
    omega
  have hexp : x.toBits.toNat / Nat.pow 2 52 % Nat.pow 2 11 ≠ 2047 := by
    intro heq
    have hones : unpackExponent (bits x) = -1#_ :=
      BitVec.eq_of_toNat_eq ((toNat_unpackExponent _).trans heq)
    rw [isInf_of_exponent h hones] at hinf
    cases hinf
  unfold parts
  dsimp only
  rw [hsign, if_neg (by simpa using hexp)]
  repeat' split
  all_goals rfl

/-! ## Written numbers -/

/-- Digits, with at most one point between them. -/
inductive Numeral : Bytes → Prop
  | whole {ds : Bytes} : ds ≠ [] → (∀ c ∈ ds, Bytes.isDigit c = true) → Numeral ds
  | fraction {ds es : Bytes} : ds ≠ [] → (∀ c ∈ ds, Bytes.isDigit c = true) → es ≠ [] →
    (∀ c ∈ es, Bytes.isDigit c = true) → Numeral (ds ++ '.'.toUInt8 :: es)

theorem isDigit_zeros {n : Nat} {b : UInt8} (h : b ∈ zeros n) : Bytes.isDigit b = true := by
  rw [List.eq_of_mem_replicate h]
  rfl

theorem isDigit_toUInt8 {c : Char} (h : c.isDigit = true) : Bytes.isDigit c.toUInt8 = true := by
  simp only [Char.isDigit, Bool.and_eq_true, decide_eq_true_eq, UInt32.le_iff_toNat_le] at h
  simp only [Bytes.isDigit, Bool.and_eq_true, decide_eq_true_eq, UInt8.le_iff_toNat_le]
  have hc : c.toUInt8.toNat = c.val.toNat % 256 := rfl
  have h0 : ('0'.toUInt8).toNat = 48 := rfl
  have h9 : ('9'.toUInt8).toNat = 57 := rfl
  have h0' : ('0'.val).toNat = 48 := rfl
  have h9' : ('9'.val).toNat = 57 := rfl
  omega

theorem isDigit_ofNat {n : Nat} {b : UInt8} (h : b ∈ Bytes.ofNat n) : Bytes.isDigit b = true := by
  obtain ⟨c, hc, rfl⟩ := List.mem_map.1 h
  exact isDigit_toUInt8 (Nat.isDigit_of_mem_toDigits (by decide) (by decide) hc)

theorem ofNat_ne_nil (n : Nat) : Bytes.ofNat n ≠ [] := by
  simp [Bytes.ofNat, Nat.toDigits_ne_nil]

theorem Numeral.exists_digit {text : Bytes} (h : Numeral text) :
    ∃ d ds, text = d :: ds ∧ Bytes.isDigit d = true := by
  cases h with
  | whole hne hds =>
    obtain ⟨d, ds, rfl⟩ := List.exists_cons_of_ne_nil hne
    exact ⟨d, ds, rfl, hds d List.mem_cons_self⟩
  | fraction hne hds _ _ =>
    obtain ⟨d, ds, rfl⟩ := List.exists_cons_of_ne_nil hne
    exact ⟨d, _, rfl, hds d List.mem_cons_self⟩

theorem numeral_positional (s : Scientific) : Numeral (positional s) := by
  have hpos : 0 < (Bytes.ofNat s.digits).length := List.length_pos_iff.2 (ofNat_ne_nil _)
  unfold positional
  dsimp only
  split
  · refine .whole (List.append_ne_nil_of_left_ne_nil (ofNat_ne_nil _) _) fun c hc => ?_
    exact (List.mem_append.1 hc).elim isDigit_ofNat isDigit_zeros
  split
  · refine .fraction ?_ (fun c hc => isDigit_ofNat (List.mem_of_mem_take hc)) ?_
      fun c hc => isDigit_ofNat (List.mem_of_mem_drop hc)
    · rw [← List.length_pos_iff, List.length_take]
      omega
    · rw [← List.length_pos_iff, List.length_drop]
      omega
  · have hzero : ∀ c ∈ ['0'.toUInt8], Bytes.isDigit c = true := List.forall_mem_singleton.2 rfl
    refine .fraction (List.cons_ne_nil _ _) hzero
      (List.append_ne_nil_of_right_ne_nil _ (ofNat_ne_nil _)) fun c hc => ?_
    exact (List.mem_append.1 hc).elim isDigit_zeros isDigit_ofNat

theorem numeral_write {l : Layout} (hl : l.exponentFrom = none) {x : Float}
    (h : (parts x).isPlain = true) : Numeral (l.write x) := by
  unfold Layout.write
  cases hx : parts x with
  | nan => rw [hx] at h; cases h
  | infinite negative => rw [hx] at h; cases h
  | zero negative =>
    cases negative with
    | true => rw [hx] at h; cases h
    | false =>
      have hzero : Numeral ['0'.toUInt8] :=
        .whole (List.cons_ne_nil _ _) (List.forall_mem_singleton.2 rfl)
      exact hzero
  | finite negative b =>
    cases negative with
    | true => rw [hx] at h; cases h
    | false =>
      simp only [signed, Layout.magnitude, hl]
      exact numeral_positional _

/-- **A number that is read from digits is written in digits**, unless it is infinite or exponents
are used. -/
theorem numeral_write_read {l : Layout} (hl : l.exponentFrom = none) {whole fraction : Bytes}
    (hinf : (read whole fraction).isInf = false) : Numeral (l.write (read whole fraction)) :=
  numeral_write hl (isPlain_parts (clean_read whole fraction) hinf)

end Lox.Decimal
