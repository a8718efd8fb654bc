import Mathlib.Algebra.Order.Field.Power
import WeakForm.Proofs.PositionReading

/-!
# Exact values of doubles

Printing takes a double apart into sign, significand and exponent, read off its encoding
(`Decimal.Binary`). Arithmetic and comparisons work on another form, the unpacked one. Both
describe the same number (`Binary.ofFloat_eq`), so what is printed can be compared with
what is calculated.

The exact value of a finite double is an element of any field: the significand times a power
of two. Of the operations on doubles only those are looked at here that do not round. The
magnitude of a double has the magnitude of its value, a double is negative if its value is,
and it equals one if its value does. The last needs that a number has just one encoding:
significands fill their bits unless the exponent is the least one (`Binary.Normal`).

In a text, a double without a sign is a literal. It is one word, although a minus may stand in
its exponent, and it begins with a digit, which names do not.

## Theorems

* `Decimal.Binary.ofFloat_eq`: The parts of a double are those of its unpacked form.
* `Decimal.unpack_pack`: Packing loses nothing of a number that fits the format.
* `Decimal.exactValue_abs`, `Decimal.lt_zero_iff`, `Decimal.eq_one_iff`: Magnitude, sign, and
  comparison with one.
* `Decimal.literal_number`: Doubles without a sign are written as literals.
-/

namespace WeakForm

open List Float.Model UnpackedFloat

namespace Decimal
namespace Binary

variable (b : BitVec Format.binary64.numBits) (x : Float)

def ofUnpacked : UnpackedFloat → Binary
  | .notANumber => .nan
  | .infinity s => .infinite (s == .negative)
  | .zero s => .finite (s == .negative) 0 (-1074)
  | .finite s m e _ => .finite (s == .negative) m e

theorem toNat_unpackMantissa : (unpackMantissa b).toNat = b.toNat % Nat.pow 2 52 := by
  simp [unpackMantissa]

theorem toNat_unpackExponent :
    (unpackExponent b).toNat = b.toNat / Nat.pow 2 52 % Nat.pow 2 11 := by
  simp [unpackExponent, Nat.shiftRight_eq_div_pow]

theorem unpackSign_eq {spec : Format} (b : BitVec spec.numBits) : unpackSign b =
    BitVec.extractLsb' (spec.mantissaBitsWithoutImplicit + spec.exponentBits) 1 b := by
  refine BitVec.eq_of_toNat_eq ?_
  refine (BitVec.extractLsb'_toNat _ _ b).trans ?_
  rw [BitVec.extractLsb'_toNat, Nat.sub_self]

theorem ofBitVec_unpackSign :
    (Sign.ofBitVec (unpackSign b) == .negative) = decide (Nat.pow 2 63 ≤ b.toNat) := by
  have hlt : b.toNat < Nat.pow 2 64 := b.isLt
  have hbit : (unpackSign b).toNat = b.toNat / Nat.pow 2 63 % 2 := by
    rw [unpackSign_eq, BitVec.extractLsb'_toNat, Nat.shiftRight_eq_div_pow]
    rfl
  have hzero : unpackSign b = 0#1 ↔ b.toNat < Nat.pow 2 63 := by
    rw [← BitVec.toNat_inj, hbit]
    change b.toNat / 2 ^ 63 % 2 = 0 ↔ b.toNat < 2 ^ 63
    change b.toNat < 2 ^ 64 at hlt
    omega
  rw [Sign.ofBitVec]
  split
  · next h =>
    rw [hzero] at h
    exact (decide_eq_false (Nat.not_le.2 h)).symm
  · next h =>
    rw [hzero, Nat.not_lt] at h
    exact (decide_eq_true h).symm

theorem toNat_implicit (m : BitVec 52) : (1#1 ++ m).toNat = Nat.pow 2 52 + m.toNat := by
  rw [BitVec.toNat_append, ← Nat.shiftLeft_add_eq_or_of_lt m.isLt]
  rfl

theorem ofFloat_eq : ofFloat x = ofUnpacked x.toModel.unpack := by
  unfold ofFloat
  dsimp only
  have hfraction := toNat_unpackMantissa x.toModel.toBits.toBitVec
  have hbiased := toNat_unpackExponent x.toModel.toBits.toBitVec
  have hsign := ofBitVec_unpackSign x.toModel.toBits.toBitVec
  change _ = decide (_ ≤ x.toBits.toNat) at hsign
  change _ = x.toBits.toNat % _ at hfraction
  change _ = x.toBits.toNat / _ % _ at hbiased
  rw [← hfraction, ← hbiased, ← hsign]
  unfold Float.Model.unpack UnpackedFloat.unpack
  generalize x.toModel.toBits.toBitVec = b
  -- The cases are told apart by bits on one side and by numbers on the other.
  have hones : @unpackExponent .binary64 b = -1#11 ↔ (@unpackExponent .binary64 b).toNat = 2047 :=
    BitVec.toNat_inj.symm
  have hleast : @unpackExponent .binary64 b = 0#11 ↔ (@unpackExponent .binary64 b).toNat = 0 :=
    BitVec.toNat_inj.symm
  have hzero : @unpackMantissa .binary64 b = 0#52 ↔ (@unpackMantissa .binary64 b).toNat = 0 :=
    BitVec.toNat_inj.symm
  by_cases h1 : (@unpackExponent .binary64 b).toNat = 2047
  · rw [if_pos h1, if_pos (hones.2 h1)]
    by_cases h2 : (@unpackMantissa .binary64 b).toNat = 0
    · rw [if_pos h2, if_pos (hzero.2 h2)]
      rfl
    · rw [if_neg h2, if_neg (mt hzero.1 h2)]
      rfl
  · rw [if_neg h1, if_neg (mt hones.1 h1)]
    by_cases h2 : (@unpackExponent .binary64 b).toNat = 0
    · rw [if_pos h2, if_pos (hleast.2 h2)]
      by_cases h3 : (@unpackMantissa .binary64 b).toNat = 0
      · rw [dif_pos (hzero.2 h3), h3]
        rfl
      · rw [dif_neg (mt hzero.1 h3), hleast.2 h2]
        rfl
    · rw [if_neg h2, if_neg (mt hleast.1 h2), ← toNat_implicit]
      rfl

/-- Significands fill their bits, unless the exponent is already the least one. -/
def Normal : Binary → Prop
  | .finite _ m e => m < 2 ^ 53 ∧ -1074 ≤ e ∧ e ≤ 971 ∧ (2 ^ 52 ≤ m ∨ e = -1074)
  | _ => True

theorem normal_ofFloat : (ofFloat x).Normal := by
  have hbiased : x.toBits.toNat / Nat.pow 2 52 % Nat.pow 2 11 < 2048 := Nat.mod_lt _ (by decide)
  have hfraction : x.toBits.toNat % Nat.pow 2 52 < 2 ^ 52 := Nat.mod_lt _ (by decide)
  unfold ofFloat
  dsimp only
  split
  · split <;> exact trivial
  · split
    · exact ⟨by omega, le_rfl, by decide, .inr rfl⟩
    · change Nat.pow 2 52 + _ < _ ∧ _
      rw [show Nat.pow 2 52 = 2 ^ 52 from rfl] at *
      refine ⟨by omega, by omega, by omega, .inl (by omega)⟩

end Binary

section

variable {b : BitVec Format.binary64.numBits} {s : Sign} {m : Nat}

theorem unpack_of_normal {e : Int} (hm : 0 < m) (hones : @unpackExponent .binary64 b ≠ -1#11)
    (hleast : @unpackExponent .binary64 b ≠ 0#11) (hsign : Sign.ofBitVec (unpackSign b) = s)
    (hmantissa : (1#1 ++ @unpackMantissa .binary64 b).toNat = m)
    (hexponent : ((@unpackExponent .binary64 b).toNat : Int) - 1075 = e) :
    UnpackedFloat.unpack .binary64 b = .finite s m e hm := by
  subst hsign hmantissa hexponent
  unfold UnpackedFloat.unpack
  rw [if_neg hones, if_neg hleast]
  rfl

theorem unpack_of_least (hm : 0 < m) (hleast : @unpackExponent .binary64 b = 0#11)
    (hsign : Sign.ofBitVec (unpackSign b) = s)
    (hmantissa : (@unpackMantissa .binary64 b).toNat = m) :
    UnpackedFloat.unpack .binary64 b = .finite s m (-1074) hm := by
  subst hsign hmantissa
  have hzero : @unpackMantissa .binary64 b ≠ 0#52 := by
    intro h
    rw [h] at hm
    exact hm.ne rfl
  unfold UnpackedFloat.unpack
  rw [if_neg (by rw [hleast]; decide), if_pos hleast, dif_neg hzero, hleast]
  rfl

end

theorem sign_packComponents {spec : Format} (s : Sign) (e : BitVec spec.exponentBits)
    (m : BitVec spec.mantissaBitsWithoutImplicit) :
    Sign.ofBitVec (unpackSign (packComponents spec s e m)) = s := by
  have hbit : unpackSign (packComponents spec s e m) = s.toBitVec := by
    refine BitVec.eq_of_getLsbD_eq fun i hi => ?_
    rw [Nat.lt_one_iff.1 hi, Binary.unpackSign_eq]
    simp [packComponents, BitVec.getLsbD_append, BitVec.getElem_append]
  rw [hbit]
  cases s <;> rfl

variable {m : Nat}

theorem unpack_normal (s : Sign) {e : Int} (hm : 0 < m) (hlow : 2 ^ 52 ≤ m) (hhigh : m < 2 ^ 53)
    (he : -1074 ≤ e) (he' : e ≤ 971) : UnpackedFloat.unpack .binary64 (packComponents .binary64 s
      (BitVec.ofNat 11 (e + 1023 + 52).toNat) (BitVec.ofNat 52 m)) = .finite s m e hm := by
  have hexponent : (BitVec.ofNat 11 (e + 1023 + 52).toNat).toNat = (e + 1023 + 52).toNat := by
    rw [BitVec.toNat_ofNat, Nat.mod_eq_of_lt (by omega)]
  refine unpack_of_normal hm ?_ ?_ (sign_packComponents s _ _) ?_ ?_
  · rw [unpackExponent_packComponents]
    intro h
    rw [h] at hexponent
    change 2047 = _ at hexponent
    omega
  · rw [unpackExponent_packComponents]
    intro h
    rw [h] at hexponent
    change 0 = _ at hexponent
    omega
  · rw [unpackMantissa_packComponents, Binary.toNat_implicit, BitVec.toNat_ofNat]
    change 2 ^ 52 + m % 2 ^ 52 = m
    omega
  · rw [unpackExponent_packComponents, hexponent]
    omega

theorem unpack_subnormal (s : Sign) (hm : 0 < m) (hhigh : m < 2 ^ 52) :
    UnpackedFloat.unpack .binary64 (packComponents .binary64 s 0#11 (BitVec.ofNat 52 m)) =
      .finite s m (-1074) hm := by
  refine unpack_of_least hm ?_ (sign_packComponents s _ _) ?_
  · rw [unpackExponent_packComponents]
  · rw [unpackMantissa_packComponents, BitVec.toNat_ofNat, Nat.mod_eq_of_lt hhigh]

theorem unpack_pack {u : UnpackedFloat} (h : (Binary.ofUnpacked u).Normal) :
    (Float.Model.pack u).unpack = u := by
  cases u with
  | notANumber => rfl
  | infinity s => cases s <;> rfl
  | zero s => cases s <;> rfl
  | finite s m e hm =>
    rcases h with ⟨hlt, hle, hge, hnormal⟩
    change UnpackedFloat.unpack .binary64 (if 2048 ≤ (e + 1023 + 52).toNat + 1 then _
      else if m.log2 + 1 = 53 then _ else _) = _
    rw [if_neg (by omega)]
    -- Which form is packed depends on whether the significand fills its bits.
    by_cases hlow : 2 ^ 52 ≤ m
    · rw [if_pos (by rw [(Nat.log2_eq_iff hm.ne').2 ⟨hlow, hlt⟩])]
      exact unpack_normal s hm hlow hlt hle hge
    · rw [if_neg, hnormal.resolve_left hlow]
      · exact unpack_subnormal s hm (not_le.1 hlow)
      · have := (Nat.log2_lt hm.ne').2 (not_le.1 hlow)
        omega

section

variable {K : Type} [Field K] {x : Float}

/-- The value of a number, zero for what is not finite. -/
def Binary.value : Binary → K
  | .finite true m e => -(m * (2 : Nat) ^ e)
  | .finite false m e => m * (2 : Nat) ^ e
  | _ => 0

def exactValue (x : Float) : K := (Binary.ofFloat x).value

theorem exactValue_zero : (exactValue 0.0 : K) = 0 := by
  have h : Binary.ofFloat 0.0 = .finite false 0 (-1074) := by rfl
  rw [exactValue, h, Binary.value, Nat.cast_zero, zero_mul]

theorem exists_unpack (h : x.isFinite = true) :
    (∃ s, x.toModel.unpack = .zero s) ∨ ∃ s m e hm, x.toModel.unpack = .finite s m e hm := by
  change x.toModel.unpack.isFinite = true at h
  cases hu : x.toModel.unpack with
  | notANumber | infinity s =>
    rw [hu] at h
    cases h
  | zero s => exact .inl ⟨s, rfl⟩
  | finite s m e hm => exact .inr ⟨s, m, e, hm, rfl⟩

theorem exactValue_of_zero {s : Sign} (h : x.toModel.unpack = .zero s) :
    (exactValue x : K) = 0 := by
  have hzero : ((0 : Nat) * 2 ^ (-1074 : Int) : K) = 0 := by rw [Nat.cast_zero, zero_mul]
  rw [exactValue, Binary.ofFloat_eq, h]
  cases s with
  | negative => exact neg_eq_zero.2 hzero
  | positive => exact hzero

theorem exactValue_of_positive {e : Int} {hm : 0 < m}
    (h : x.toModel.unpack = .finite .positive m e hm) : (exactValue x : K) = m * 2 ^ e := by
  rw [exactValue, Binary.ofFloat_eq, h]
  rfl

theorem exactValue_of_negative {e : Int} {hm : 0 < m}
    (h : x.toModel.unpack = .finite .negative m e hm) : (exactValue x : K) = -(m * 2 ^ e) := by
  rw [exactValue, Binary.ofFloat_eq, h]
  rfl

theorem unpack_abs (x : Float) : x.abs.toModel.unpack = x.toModel.unpack.abs := by
  -- Significand and exponent stay the same, so they fit the format as before.
  refine unpack_pack ?_
  have h := Binary.normal_ofFloat x
  rw [Binary.ofFloat_eq] at h
  generalize x.toModel.unpack = u at *
  cases u with
  | notANumber | infinity s | zero s | finite s m e hm => exact h

theorem isFinite_abs (h : x.isFinite = true) : x.abs.isFinite = true := by
  change x.abs.toModel.unpack.isFinite = true
  rcases exists_unpack h with ⟨s, hu⟩ | ⟨s, m, e, hm, hu⟩ <;> rw [unpack_abs, hu] <;> rfl

variable [LinearOrder K] [IsStrictOrderedRing K]

theorem magnitude_pos (hm : 0 < m) (e : Int) : 0 < (m * 2 ^ e : K) :=
  mul_pos (Nat.cast_pos.2 hm) (zpow_pos zero_lt_two e)

theorem exactValue_abs (h : x.isFinite = true) : (exactValue x.abs : K) = |exactValue x| := by
  have habs := unpack_abs x
  rcases exists_unpack h with ⟨s, hu⟩ | ⟨s | _, m, e, hm, hu⟩ <;> rw [hu] at habs
  · rw [exactValue_of_zero hu, exactValue_of_zero habs, abs_zero]
  · rw [exactValue_of_negative hu, exactValue_of_positive habs, abs_neg,
      abs_of_pos (magnitude_pos hm e)]
  · rw [exactValue_of_positive hu, exactValue_of_positive habs, abs_of_pos (magnitude_pos hm e)]

theorem lt_zero_iff (h : x.isFinite = true) : Scalar.lt x 0.0 = true ↔ (exactValue x : K) < 0 := by
  have hlt : Scalar.lt x 0.0 = true ↔ x.toModel.unpack.lt (.zero .positive) = true :=
    decide_eq_true_iff.trans decide_eq_true_iff
  rw [hlt]
  rcases exists_unpack h with ⟨s, hu⟩ | ⟨_ | _, m, e, hm, hu⟩
  · rw [exactValue_of_zero hu, hu]
    exact iff_of_false Bool.false_ne_true (lt_irrefl 0)
  · rw [exactValue_of_negative hu, hu]
    exact iff_of_true rfl (neg_neg_of_pos (magnitude_pos hm e))
  · rw [exactValue_of_positive hu, hu]
    exact iff_of_false Bool.false_ne_true (magnitude_pos hm e).not_gt

/-- Only one significand that fills its bits stands for one. -/
theorem eq_of_magnitude_eq_one {e : Int} (hlt : m < 2 ^ 53) (hnormal : 2 ^ 52 ≤ m ∨ e = -1074)
    (h : (m * 2 ^ e : K) = 1) : m = 2 ^ 52 ∧ e = -52 := by
  rcases Int.eq_nat_or_neg e with ⟨n, rfl | rfl⟩
  -- Without a fraction the significand is one, which is too short.
  · rw [zpow_natCast] at h
    have hone : m = 1 := Nat.eq_one_of_mul_eq_one_right (by exact_mod_cast h : m * 2 ^ n = 1)
    omega
  · rw [zpow_neg, zpow_natCast, mul_inv_eq_one₀ (pow_ne_zero n two_ne_zero)] at h
    have hpow : m = 2 ^ n := by exact_mod_cast h
    rw [hpow] at hlt hnormal ⊢
    have hn : n < 53 := (Nat.pow_lt_pow_iff_right (by decide)).1 hlt
    have hn' : 52 ≤ n := by
      rcases hnormal with hle | he
      · exact (Nat.pow_le_pow_iff_right (by decide)).1 hle
      · omega
    rw [show n = 52 by omega]
    exact ⟨rfl, rfl⟩

theorem eq_one_iff (h : x.isFinite = true) : Scalar.eq x 1.0 = true ↔ (exactValue x : K) = 1 := by
  have heq : Scalar.eq x 1.0 = true ↔
      x.toModel.unpack.beq (.finite .positive (2 ^ 52) (-52) (by decide)) = true := Iff.rfl
  rw [heq]
  rcases exists_unpack h with ⟨s, hu⟩ | ⟨_ | _, m, e, hm, hu⟩
  · rw [exactValue_of_zero hu, hu]
    exact iff_of_false Bool.false_ne_true zero_ne_one
  · rw [exactValue_of_negative hu, hu]
    refine iff_of_false Bool.false_ne_true fun hone => ?_
    exact absurd (neg_neg_of_pos (magnitude_pos hm e)) (hone ▸ zero_lt_one.not_gt)
  · have hnormal := Binary.normal_ofFloat x
    rw [Binary.ofFloat_eq, hu] at hnormal
    rw [exactValue_of_positive hu, hu]
    change (some ((compare e (-52)).then (compare m (2 ^ 52))) == some .eq) = true ↔ _
    rw [beq_iff_eq, Option.some.injEq,
      @compare_then_eq_iff .positive m (2 ^ 52) e (-52) hm (by decide)]
    constructor
    · intro hfinite
      cases hfinite
      rw [zpow_neg, mul_inv_eq_one₀ (zpow_ne_zero _ two_ne_zero)]
      norm_cast
    · intro hone
      rcases eq_of_magnitude_eq_one hnormal.1 hnormal.2.2.2 hone with ⟨rfl, rfl⟩
      rfl

end

/-! ## Literals -/

theorem startsWithDigit_append_of {as : List Char} (h : startsWithDigit as = true)
    (bs : List Char) : startsWithDigit (as ++ bs) = true := by
  rwa [startsWithDigit_append bs]
  rintro rfl
  exact Bool.false_ne_true h

theorem extendsWord_append (word as bs : List Char) : extendsWord word (as ++ bs) =
    (extendsWord word as && extendsWord (word ++ as) bs) := by
  induction as generalizing word with
  | nil => rw [nil_append, append_nil, extendsWord, Bool.true_and]
  | cons a as ih =>
    rw [cons_append, extendsWord, extendsWord, ih, Bool.and_assoc, append_assoc]
    rfl

theorem extendsWord_exponent {word : List Char} (h : startsWithDigit word = true) (e : Int) :
    extendsWord (word ++ ['e']) (toString e).toList = true := by
  have hdigits : ∀ (n : Nat) (word : List Char), extendsWord word (toString n).toList = true := by
    intro n word
    refine extendsWord_of_isPlain fun c hc => isPlain_of_isDigit ?_
    rw [Nat.toString_eq_repr, Nat.toList_repr] at hc
    exact Nat.isDigit_of_mem_toDigits (by decide) (by decide) hc
  cases e with
  | ofNat n => exact hdigits n _
  | negSucc n =>
    have hsign : continuesWord (word ++ ['e']) '-' = true := by
      rw [continuesWord, isExponentSign, startsWithDigit_append_of h, getLast?_concat]
      rfl
    change extendsWord (word ++ ['e']) ("-" ++ toString (n + 1)).toList = true
    rw [String.toList_append]
    change (continuesWord (word ++ ['e']) '-' && extendsWord _ (toString (n + 1)).toList) = true
    rw [hsign, hdigits, Bool.true_and]

section

variable (d : Digits)

theorem isDigit_of_mem {c : Char} (h : c ∈ digitsOf d.significand) : c.isDigit = true :=
  Nat.isDigit_of_mem_toDigits (by decide) (by decide) h

theorem digitsOf_ne_nil : digitsOf d.significand ≠ [] := Nat.toDigits_ne_nil

theorem startsWithDigit_take {n : Nat} (h : 0 < n) :
    startsWithDigit ((digitsOf d.significand).take n) = true := by
  rw [← startsWithDigit_append ((digitsOf d.significand).drop n), take_append_drop]
  · exact startsWithDigit_toDigits _
  · exact fun hnil => (take_eq_nil_iff.1 hnil).elim h.ne' (digitsOf_ne_nil d)

/-- Positional notation is a literal: digits and points are no operators. -/
theorem literal_positional :
    isWord (positional d).toList = true ∧ startsWithDigit (positional d).toList = true := by
  have hdigits : ∀ c ∈ digitsOf d.significand, isPlain c = true :=
    fun c hc => isPlain_of_isDigit (isDigit_of_mem d hc)
  have hzeros : ∀ n, ∀ c ∈ zeros n, isPlain c = true := by
    intro n c hc
    rw [(mem_replicate.1 hc).2]
    decide
  unfold positional
  simp only [String.toList_ofList]
  split
  · refine ⟨isWord_of_isPlain (by simp) ?_, ?_⟩
    · simp only [forall_mem_append]
      exact ⟨⟨hdigits, hzeros _⟩, all_eq_true.1 rfl⟩
    · exact startsWithDigit_append_of (startsWithDigit_append_of (startsWithDigit_toDigits _) _) _
  · split
    · next hpoint =>
      refine ⟨isWord_of_isPlain (by simp) ?_,
        startsWithDigit_append_of (startsWithDigit_take d (Int.lt_toNat.2 hpoint)) _⟩
      simp only [forall_mem_append, forall_mem_cons]
      exact ⟨fun c hc => hdigits c (mem_of_mem_take hc), by decide,
        fun c hc => hdigits c (mem_of_mem_drop hc)⟩
    · refine ⟨isWord_of_isPlain (cons_ne_nil _ _) ?_, rfl⟩
      simp only [forall_mem_append, forall_mem_cons]
      exact ⟨by decide, by decide, hzeros _, hdigits⟩

/-- Scientific notation is a literal: the sign of the exponent is part of it. -/
theorem literal_scientific :
    isWord (scientific d).toList = true ∧ startsWithDigit (scientific d).toList = true := by
  have hdigits : ∀ c ∈ digitsOf d.significand, isPlain c = true :=
    fun c hc => isPlain_of_isDigit (isDigit_of_mem d hc)
  unfold scientific
  simp only [String.toList_append, String.toList_ofList]
  set fraction := if (digitsOf d.significand).length ≤ 1 then []
    else '.' :: (digitsOf d.significand).drop 1 with hfraction
  have hstart := startsWithDigit_append_of (startsWithDigit_take d Nat.one_pos) fraction
  have hplain : ∀ c ∈ (digitsOf d.significand).take 1 ++ fraction ++ ['e'], isPlain c = true := by
    simp only [forall_mem_append]
    refine ⟨⟨fun c hc => hdigits c (mem_of_mem_take hc), ?_⟩, all_eq_true.1 rfl⟩
    rw [hfraction]
    split
    · exact fun c hc => absurd hc not_mem_nil
    · exact forall_mem_cons.2 ⟨by decide, fun c hc => hdigits c (mem_of_mem_drop hc)⟩
  refine ⟨?_, startsWithDigit_append_of (startsWithDigit_append_of hstart _) _⟩
  rw [isWord, extendsWord_append, extendsWord_of_isPlain hplain, nil_append,
    extendsWord_exponent hstart]
  simp

/-- The text of a decimal is a literal: a single word that begins with a digit. -/
theorem literal_layout : isWord (layout d).toList = true ∧
    startsWithDigit (layout d).toList = true := by
  unfold layout
  simp only
  split
  · exact literal_positional d
  · exact literal_scientific d

end

theorem ofFloat_abs {x : Float} (h : x.isFinite = true) :
    ∃ m e, Binary.ofFloat x.abs = .finite false m e := by
  rw [Binary.ofFloat_eq, unpack_abs]
  rcases exists_unpack h with ⟨s, hu⟩ | ⟨s, m, e, hm, hu⟩
  · rw [hu]
    exact ⟨0, -1074, rfl⟩
  · rw [hu]
    exact ⟨m, e, rfl⟩

theorem literal_number {x : Float} {e : Int} (h : Binary.ofFloat x = .finite false m e) :
    isWord (Cpp.number x).toList = true ∧ startsWithDigit (Cpp.number x).toList = true := by
  have hzero : isWord "0.0".toList = true ∧ startsWithDigit "0.0".toList = true := by decide
  unfold Cpp.number
  split
  · exact hzero
  · rw [text, h]
    change isWord (if m = 0 then "0.0" else layout (shortest m e)).toList = true ∧
      startsWithDigit (if m = 0 then "0.0" else layout (shortest m e)).toList = true
    split
    · exact hzero
    · exact literal_layout _

end Decimal
end WeakForm
