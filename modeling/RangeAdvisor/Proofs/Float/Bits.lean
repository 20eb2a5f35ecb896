import RangeAdvisor.Proofs.Float.Round
import RangeAdvisor.Binary64.Parts

/-!
# Binary64 bits

A float is stored in 64 bits: a sign bit, an 11-bit biased exponent and a 52-bit trailing
significand. Packing a canonical float and reading the bits back gives it again, unless its
exponent is past the format's largest, when it overflows to the infinity of its sign. Every float
read from bits is canonical, and the parts `Binary64.ofBits` reads off the bits with integer
arithmetic are the parts of the unpacked float. Main statements: `unpack_pack_finite`,
`canonical_unpack` and `ofBits_eq_parts`.
-/

set_option autoImplicit false

open Float.Model Float.Model.UnpackedFloat

namespace RangeAdvisor.Unpacked

/-! ### The three fields -/

/-- The sign bit: set for a negative float. -/
def signField (b : BitVec 64) : Sign := if b.toNat / 2 ^ 63 = 1 then .negative else .positive

/-- The 11-bit biased exponent. -/
def exponentField (b : BitVec 64) : ℕ := b.toNat / 2 ^ 52 % 2 ^ 11

/-- The 52-bit trailing significand. -/
def mantissaField (b : BitVec 64) : ℕ := b.toNat % 2 ^ 52

theorem exponentField_lt (b : BitVec 64) : exponentField b < 2 ^ 11 := Nat.mod_lt _ (by positivity)

theorem mantissaField_lt (b : BitVec 64) : mantissaField b < 2 ^ 52 := Nat.mod_lt _ (by positivity)

theorem toNat_unpackExponent (b : BitVec 64) :
    (@unpackExponent .binary64 b).toNat = exponentField b := by
  simp [unpackExponent, exponentField, BitVec.extractLsb_toNat, Nat.shiftRight_eq_div_pow]

theorem toNat_unpackMantissa (b : BitVec 64) :
    (@unpackMantissa .binary64 b).toNat = mantissaField b := by
  simp [unpackMantissa, mantissaField, BitVec.extractLsb_toNat]

theorem ofBitVec_unpackSign (b : BitVec 64) :
    Sign.ofBitVec (@unpackSign .binary64 b) = signField b := by
  have hlt : b.toNat < 2 ^ 64 := b.isLt
  have hsign : (@unpackSign .binary64 b).toNat = b.toNat / 2 ^ 63 := by
    simp [unpackSign, BitVec.extractLsb_toNat, Nat.shiftRight_eq_div_pow]
    omega
  unfold Sign.ofBitVec signField
  by_cases h : b.toNat / 2 ^ 63 = 1
  · rw [if_pos h, if_neg]
    intro h0
    rw [h0, h] at hsign
    exact absurd hsign (by decide)
  · rw [if_neg h, if_pos]
    apply BitVec.eq_of_toNat_eq
    rw [hsign]
    simp
    omega

theorem toNat_packComponents (s : Sign) (E : BitVec 11) (M : BitVec 52) :
    (packComponents .binary64 s E M).toNat = s.toBitVec.toNat * 2 ^ 63 + E.toNat * 2 ^ 52 + M.toNat := by
  simp only [packComponents, BitVec.toNat_append]
  rw [← Nat.shiftLeft_add_eq_or_of_lt E.isLt, ← Nat.shiftLeft_add_eq_or_of_lt M.isLt, Nat.shiftLeft_eq,
    Nat.shiftLeft_eq]
  ring

section Components

variable (s : Sign) (E : BitVec 11) (M : BitVec 52)

theorem signField_packComponents : signField (packComponents .binary64 s E M) = s := by
  have hE := E.isLt
  have hM := M.isLt
  unfold signField
  rw [toNat_packComponents]
  cases s
  · rw [if_pos (by simp [Sign.toBitVec]; omega)]
  · rw [if_neg (by simp [Sign.toBitVec]; omega)]

theorem exponentField_packComponents : exponentField (packComponents .binary64 s E M) = E.toNat := by
  have hE := E.isLt
  have hM := M.isLt
  have hs : s.toBitVec.toNat < 2 := s.toBitVec.isLt
  unfold exponentField
  rw [toNat_packComponents]
  omega

theorem mantissaField_packComponents : mantissaField (packComponents .binary64 s E M) = M.toNat := by
  have hM := M.isLt
  unfold mantissaField
  rw [toNat_packComponents]
  omega

end Components

/-- What the bits of a float say: an infinity or NaN at the largest biased exponent, zero or a
subnormal at the least, and between them a normal value with its implicit leading bit. -/
theorem unpack_cases (b : BitVec 64) :
    (exponentField b = 2047 ∧ mantissaField b = 0 ∧
      UnpackedFloat.unpack .binary64 b = .infinity (signField b)) ∨
    (exponentField b = 2047 ∧ mantissaField b ≠ 0 ∧ UnpackedFloat.unpack .binary64 b = .notANumber) ∨
    (exponentField b = 0 ∧ mantissaField b = 0 ∧ UnpackedFloat.unpack .binary64 b = .zero (signField b)) ∨
    (exponentField b = 0 ∧ ∃ h : 0 < mantissaField b,
      UnpackedFloat.unpack .binary64 b = .finite (signField b) (mantissaField b) (-1074) h) ∨
    (exponentField b ≠ 0 ∧ exponentField b ≠ 2047 ∧ ∃ h : 0 < 2 ^ 52 + mantissaField b,
      UnpackedFloat.unpack .binary64 b =
        .finite (signField b) (2 ^ 52 + mantissaField b) ((exponentField b : ℤ) - 1075) h) := by
  have hE := toNat_unpackExponent b
  have hM := toNat_unpackMantissa b
  have hall : @unpackExponent .binary64 b = -1#11 ↔ exponentField b = 2047 := by
    rw [BitVec.toNat_eq, hE]
    simp
  have hzero : @unpackExponent .binary64 b = 0#11 ↔ exponentField b = 0 := by
    rw [BitVec.toNat_eq, hE]
    simp
  have hM0 : @unpackMantissa .binary64 b = 0#52 ↔ mantissaField b = 0 := by
    rw [BitVec.toNat_eq, hM]
    simp
  have hbias : ((Format.binary64.exponentBias : ℕ) : ℤ) +
      ((Format.binary64.mantissaBitsWithoutImplicit : ℕ) : ℤ) = 1075 := rfl
  unfold UnpackedFloat.unpack
  dsimp only
  rw [ofBitVec_unpackSign, hbias]
  by_cases h₁ : exponentField b = 2047
  · rw [if_pos (hall.mpr h₁)]
    by_cases h₂ : mantissaField b = 0
    · rw [if_pos (hM0.mpr h₂)]
      exact .inl ⟨h₁, h₂, rfl⟩
    · rw [if_neg (mt hM0.mp h₂)]
      exact .inr (.inl ⟨h₁, h₂, rfl⟩)
  rw [if_neg (mt hall.mp h₁)]
  by_cases h₃ : exponentField b = 0
  · rw [if_pos (hzero.mpr h₃)]
    by_cases h₂ : mantissaField b = 0
    · rw [dif_pos (hM0.mpr h₂)]
      exact .inr (.inr (.inl ⟨h₃, h₂, rfl⟩))
    · -- a subnormal sits at the least exponent, `0 - 1075 + 1`
      rw [dif_neg (mt hM0.mp h₂)]
      refine .inr (.inr (.inr (.inl ⟨h₃, by omega, ?_⟩)))
      congr 1
      rw [hE]
      omega
  · -- a normal value carries the implicit leading bit
    rw [if_neg (mt hzero.mp h₃)]
    refine .inr (.inr (.inr (.inr ⟨h₃, h₁, by positivity, ?_⟩)))
    congr 1
    · rw [BitVec.toNat_append, ← Nat.shiftLeft_add_eq_or_of_lt (BitVec.isLt _), hM]
      simp [Nat.shiftLeft_eq]
    · rw [hE]

/-! ### Packing and reading back -/

theorem unpack_pack_zero (s : Sign) :
    UnpackedFloat.unpack .binary64 (UnpackedFloat.pack .binary64 (.zero s)) = .zero s := by
  cases s <;> rfl

theorem unpack_pack_infinity (s : Sign) :
    UnpackedFloat.unpack .binary64 (UnpackedFloat.pack .binary64 (.infinity s)) = .infinity s := by
  cases s <;> rfl

theorem unpack_pack_notANumber :
    UnpackedFloat.unpack .binary64 (UnpackedFloat.pack .binary64 .notANumber) = .notANumber := rfl

theorem log2_two_pow_add {x : ℕ} (hx : x < 2 ^ 52) : Nat.log2 (2 ^ 52 + x) = 52 := by
  apply le_antisymm
  · exact Nat.lt_succ_iff.mp ((Nat.log2_lt (by positivity)).mpr (by omega))
  · exact (Nat.le_log2 (by positivity)).mpr (by omega)

/-- How a finite float is packed: overflowing to infinity past the largest exponent, with a biased
exponent when normal, and with the exponent field zero when subnormal. -/
theorem pack_finite (s : Sign) {m : ℕ} {e : ℤ} (hm : 0 < m) :
    UnpackedFloat.pack .binary64 (.finite s m e hm) =
      if 972 ≤ e then packedInfinity .binary64 s
      else if Nat.log2 m = 52 then
        packComponents .binary64 s (BitVec.ofNat 11 (e + 1075).toNat) (BitVec.ofNat 52 m)
      else packComponents .binary64 s 0#11 (BitVec.ofNat 52 m) := by
  show (if 2 ^ 11 ≤ (e + (1023 : ℕ) + (52 : ℕ)).toNat + 1 then _
    else if Nat.log2 m + 1 = 53 then
      packComponents .binary64 s (BitVec.ofNat 11 (e + (1023 : ℕ) + (52 : ℕ)).toNat) (BitVec.ofNat 52 m)
    else _) = _
  have hbiased : e + ((1023 : ℕ) : ℤ) + ((52 : ℕ) : ℤ) = e + 1075 := by omega
  rw [hbiased]
  by_cases hover : 972 ≤ e
  · rw [if_pos (by omega), if_pos hover]
  rw [if_neg (by omega), if_neg hover]
  by_cases hnormal : Nat.log2 m = 52
  · rw [if_pos (by omega), if_pos hnormal]
  · rw [if_neg (by omega), if_neg hnormal]

/-- A canonical finite float reads back as itself, or as the infinity of its sign once its exponent
passes the largest, 971. -/
theorem unpack_pack_finite (s : Sign) {m : ℕ} {e : ℤ} (hm : 0 < m) (hc : target m e = e) :
    UnpackedFloat.unpack .binary64 (UnpackedFloat.pack .binary64 (.finite s m e hm)) =
      if 972 ≤ e then .infinity s else .finite s m e hm := by
  have ht := target_eq m e
  rw [pack_finite]
  by_cases hover : 972 ≤ e
  · rw [if_pos hover, if_pos hover]
    exact unpack_pack_infinity s
  rw [if_neg hover, if_neg hover]
  by_cases hnormal : Nat.log2 m = 52
  · -- normal: the biased exponent is between 1 and 2046, the leading bit implicit
    rw [if_pos hnormal]
    have hm52 : 2 ^ 52 ≤ m := (Nat.le_log2 hm.ne').mp (by omega)
    have hm53 : m < 2 ^ 53 := (Nat.log2_lt hm.ne').mp (by omega)
    have hE := exponentField_packComponents s (BitVec.ofNat 11 (e + 1075).toNat) (BitVec.ofNat 52 m)
    have hM := mantissaField_packComponents s (BitVec.ofNat 11 (e + 1075).toNat) (BitVec.ofNat 52 m)
    simp only [BitVec.toNat_ofNat] at hE hM
    rcases unpack_cases (packComponents .binary64 s (BitVec.ofNat 11 (e + 1075).toNat)
      (BitVec.ofNat 52 m)) with ⟨hE', -⟩ | ⟨hE', -⟩ | ⟨hE', -⟩ | ⟨hE', -⟩ | ⟨-, -, hpos, hu⟩
    · omega
    · omega
    · omega
    · omega
    · rw [hu, signField_packComponents]
      congr 1 <;> omega
  · -- subnormal: the least exponent, fewer than 53 bits and the exponent field zero
    rw [if_neg hnormal]
    have he : e = -1074 := by omega
    have hm52 : m < 2 ^ 52 := (Nat.log2_lt hm.ne').mp (by omega)
    subst he
    have hE := exponentField_packComponents s 0#11 (BitVec.ofNat 52 m)
    have hM := mantissaField_packComponents s 0#11 (BitVec.ofNat 52 m)
    simp only [BitVec.toNat_ofNat] at hE hM
    rcases unpack_cases (packComponents .binary64 s 0#11 (BitVec.ofNat 52 m)) with
      ⟨hE', -⟩ | ⟨hE', -⟩ | ⟨-, hM', -⟩ | ⟨-, hpos, hu⟩ | ⟨hE', -⟩
    · omega
    · omega
    · omega
    · rw [hu, signField_packComponents]
      congr 1
      omega
    · omega

theorem canonical_unpack (b : BitVec 64) : Canonical (UnpackedFloat.unpack .binary64 b) := by
  have hM := mantissaField_lt b
  have hE := exponentField_lt b
  rcases unpack_cases b with ⟨-, -, hu⟩ | ⟨-, -, hu⟩ | ⟨-, -, hu⟩ | ⟨-, hpos, hu⟩ | ⟨hE0, hE1, hpos, hu⟩
  all_goals rw [hu]
  · trivial
  · trivial
  · trivial
  · -- a subnormal: fewer than 53 bits at the least exponent
    have hlog := (Nat.log2_lt hpos.ne').mpr hM
    show target _ _ = _
    rw [target_eq]
    omega
  · -- a normal value: 53 bits
    show target _ _ = _
    rw [target_eq, log2_two_pow_add hM]
    omega

/-! ### The parts of a float -/

/-- The parts of an unpacked float; a zero is the finite value `±0 · 2^-1074`. -/
def parts : UnpackedFloat → Binary64
  | .notANumber => .nan
  | .infinity s => .inf (s == .negative)
  | .zero s => .finite (s == .negative) 0 Binary64.minExp
  | .finite s m e _ => .finite (s == .negative) m e

theorem signField_beq_negative (b : BitVec 64) :
    (signField b == .negative) = decide (b.toNat / 2 ^ 63 = 1) := by
  unfold signField
  split
  · rename_i h
    rw [decide_eq_true h]
    rfl
  · rename_i h
    rw [decide_eq_false h]
    rfl

/-- Reading the parts off the bits with integer arithmetic agrees with unpacking them. -/
theorem ofBits_eq_parts (b : UInt64) :
    Binary64.ofBits b = parts (UnpackedFloat.unpack .binary64 b.toBitVec) := by
  have hsign := signField_beq_negative b.toBitVec
  have hE : exponentField b.toBitVec = b.toNat / 2 ^ 52 % 2 ^ 11 := rfl
  have hM : mantissaField b.toBitVec = b.toNat % 2 ^ 52 := rfl
  unfold Binary64.ofBits
  simp only [Nat.pow_eq]
  rcases unpack_cases b.toBitVec with ⟨h₁, h₂, hu⟩ | ⟨h₁, h₂, hu⟩ | ⟨h₁, h₂, hu⟩ | ⟨h₁, hpos, hu⟩ |
    ⟨h₁, h₂, hpos, hu⟩
  all_goals rw [hu]
  · rw [if_pos (by omega), if_pos (by omega), parts, hsign]
    rfl
  · rw [if_pos (by omega), if_neg (by omega), parts]
  · rw [if_neg (by omega), if_pos (by omega), parts, hsign]
    congr 1
  · rw [if_neg (by omega), if_pos (by omega), parts, hsign]
    congr 1
  · rw [if_neg (by omega), if_neg (by omega), parts, hsign]
    congr 1

end RangeAdvisor.Unpacked
