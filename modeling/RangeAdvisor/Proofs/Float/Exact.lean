import RangeAdvisor.Proofs.Float.Share

/-!
# Floats fixed by what they stand for

The model keeps a single bit pattern for NaN, so a float's bits can be read back from what they
unpack to, and two floats that unpack alike are equal (`Binary64.ext_unpack`). A canonical finite
value is fixed by the real it stands for, but for zero, whose sign tells `+0` from `-0`: two finite
floats of one nonzero value are equal (`Binary64.eq_of_toReal_eq`). The exact identities that sums
and counts rest on follow: `+0` added to a float of positive sign leaves it, `+0` over a float above
zero is `+0`, and counting by ones is exact below `2^53`. A difference of finite floats is their
exact difference rounded, and a sum of floats of positive sign keeps that sign.
-/

set_option autoImplicit false

open Float.Model Float.Model.UnpackedFloat

namespace RangeAdvisor

namespace Unpacked

open Rounding

/-! ### Bits read back from the unpacked form -/

/-- The sign bit's contribution to the bits. -/
def signBits : Sign → ℕ
  | .negative => 2 ^ 63
  | .positive => 0

/-- The bits of an unpacked float as binary64 stores it: a subnormal below `2^52` at the least
exponent, a normal with its leading bit implicit. -/
def bitsOf : UnpackedFloat → ℕ
  | .notANumber => (packedNaN .binary64).toNat
  | .infinity s => signBits s + 2047 * 2 ^ 52
  | .zero s => signBits s
  | .finite s m e _ =>
    if e = -1074 ∧ m < 2 ^ 52 then signBits s + m
    else signBits s + (e + 1075).toNat * 2 ^ 52 + (m - 2 ^ 52)

/-- The sign field as the bits carry it. -/
theorem signBits_signField (b : BitVec 64) : signBits (signField b) = b.toNat / 2 ^ 63 * 2 ^ 63 := by
  have hlt : b.toNat < 2 ^ 64 := b.isLt
  unfold signField
  split
  · rename_i h
    rw [h]
    rfl
  · rename_i h
    show 0 = _
    omega

/-- The bits of a valid pattern are read back from its unpacked form. -/
theorem bitsOf_unpack {b : BitVec 64} (hv : Format.binary64.Valid b) :
    bitsOf (UnpackedFloat.unpack .binary64 b) = b.toNat := by
  have hlt : b.toNat < 2 ^ 64 := b.isLt
  have hs := signBits_signField b
  have hE : exponentField b = b.toNat / 2 ^ 52 % 2 ^ 11 := rfl
  have hM : mantissaField b = b.toNat % 2 ^ 52 := rfl
  rcases unpack_cases b with ⟨h₁, h₂, hu⟩ | ⟨h₁, h₂, hu⟩ | ⟨h₁, h₂, hu⟩ | ⟨h₁, hpos, hu⟩ |
    ⟨h₁, h₂, hpos, hu⟩
  all_goals rw [hu]
  · show signBits _ + _ = _
    omega
  · -- NaN has the one pattern the model allows
    have hexp : @unpackExponent .binary64 b = -1#11 := by
      rw [BitVec.toNat_eq, toNat_unpackExponent]
      simp [h₁]
    have hmant : @unpackMantissa .binary64 b ≠ 0#52 := by
      rw [Ne, BitVec.toNat_eq, toNat_unpackMantissa]
      simpa using h₂
    rw [hv.eq_packedNaN hexp hmant]
    rfl
  · show signBits _ = _
    omega
  · show (if _ then _ else _) = _
    rw [if_pos ⟨rfl, mantissaField_lt b⟩]
    omega
  · show (if _ then _ else _) = _
    rw [if_neg (by omega)]
    have he : ((exponentField b : ℤ) - 1075 + 1075).toNat = exponentField b := by omega
    rw [he]
    omega

/-- Valid patterns that unpack alike are equal. -/
theorem eq_of_unpack_eq {b₁ b₂ : BitVec 64} (hv₁ : Format.binary64.Valid b₁)
    (hv₂ : Format.binary64.Valid b₂)
    (h : UnpackedFloat.unpack .binary64 b₁ = UnpackedFloat.unpack .binary64 b₂) : b₁ = b₂ := by
  apply BitVec.eq_of_toNat_eq
  rw [← bitsOf_unpack hv₁, ← bitsOf_unpack hv₂, h]

/-! ### Canonical values -/

/-- Canonical finite values of one nonzero real are the same value. -/
theorem eq_of_real_eq {u v : UnpackedFloat} (hu : Canonical u) (hv : Canonical v)
    (hfu : u.isFinite = true) (hfv : v.isFinite = true) (h : real u = real v) (h0 : real u ≠ 0) :
    u = v := by
  cases u with
  | zero s => exact absurd rfl h0
  | finite s m e hm =>
    cases v with
    | zero t => exact absurd h h0
    | finite t n f hn =>
      have hx : (0 : ℝ) < m * 2 ^ e := by positivity
      have hy : (0 : ℝ) < n * 2 ^ f := by positivity
      -- the signs agree, since the values do
      obtain rfl : s = t := by
        cases s <;> cases t <;> simp only [real, signed] at h
        · rfl
        · linarith
        · linarith
        · rfl
      have hval : (m : ℝ) * 2 ^ e = n * 2 ^ f := by
        cases s <;> simpa [real, signed] using h
      -- each exponent is the one the format gives the common value
      obtain rfl : e = f := by
        rw [← hu, ← hv, ← quantum_eq_target hm, ← quantum_eq_target hn, hval]
      obtain rfl : m = n := by
        exact_mod_cast mul_right_cancel₀ (zpow_ne_zero e two_ne_zero) hval
      rfl
    | _ => cases hfv
  | _ => cases hfu

theorem real_neg (u : UnpackedFloat) : real u.neg = -real u := by
  cases u with
  | finite s m e hm => cases s <;> simp [UnpackedFloat.neg, real, signed]
  | zero s => simp [UnpackedFloat.neg, real]
  | _ => simp [UnpackedFloat.neg, real]

/-! ### Signs of sums -/

theorem nonNeg_round (m : ℕ) (e : ℤ) : NonNeg (round .binary64 .positive m e) :=
  nonNeg_roundWithAccuracy _ _ _

/-- A sum of values of positive sign has positive sign; exact cancellation cannot happen. -/
theorem nonNeg_add {u v : UnpackedFloat} (hu : NonNeg u) (hv : NonNeg v) :
    NonNeg (add .binary64 u v) := by
  cases u with
  | notANumber => trivial
  | infinity s₁ =>
    cases v with
    | notANumber => trivial
    | infinity s₂ =>
      obtain rfl : s₁ = .positive := hu
      obtain rfl : s₂ = .positive := hv
      rfl
    | _ => exact hu
  | zero s₁ =>
    obtain rfl : s₁ = .positive := hu
    cases v with
    | zero s₂ =>
      obtain rfl : s₂ = .positive := hv
      rfl
    | _ => exact hv
  | finite s₁ m₁ e₁ h₁ =>
    obtain rfl : s₁ = .positive := hu
    cases v with
    | notANumber => trivial
    | infinity s₂ => exact hv
    | zero s₂ => rfl
    | finite s₂ m₂ e₂ h₂ =>
      obtain rfl : s₂ = .positive := hv
      -- two mantissas of positive sign add to one above zero, rounded with positive sign
      show NonNeg (UnpackedFloat.normalize .binary64 (_ + _) _ .positive)
      unfold UnpackedFloat.normalize
      split
      · rename_i hlt
        simp only [Sign.apply, compare_lt_iff_lt] at hlt
        exact absurd hlt (not_lt.mpr (by positivity))
      · trivial
      · exact nonNeg_round _ _

end Unpacked

namespace Binary64

open Unpacked Rounding

/-- Floats that unpack alike are equal. -/
theorem ext_unpack {x y : Float} (h : x.toModel.unpack = y.toModel.unpack) : x = y := by
  have hbits := eq_of_unpack_eq x.toModel.valid y.toModel.valid h
  rcases x with ⟨⟨bx, vx⟩⟩
  rcases y with ⟨⟨by', vy⟩⟩
  obtain rfl : bx = by' := UInt64.toBitVec_inj.mp hbits
  rfl

variable {x y p : Float}

/-- Finite floats of one nonzero value are equal. -/
theorem eq_of_toReal_eq (hx : x.isFinite = true) (hy : y.isFinite = true) (h : toReal x = toReal y)
    (h0 : toReal x ≠ 0) : x = y :=
  ext_unpack (eq_of_real_eq (canonical x) (canonical y) hx hy h h0)

/-- Adding `+0` leaves a float of positive sign. -/
theorem add_zero_of_nonNeg (h : NonNeg x.toModel.unpack) : x + 0 = x := by
  apply ext_unpack
  rw [unpack_add, unpack_zero]
  have hc := canonical x
  have hb : ∀ {s : Sign} {m : ℕ} {e : ℤ} {hm : 0 < m}, x.toModel.unpack = .finite s m e hm →
      e ≤ 971 := fun hu => (bounds_of_unpack hu).2.2
  generalize x.toModel.unpack = u at h hc hb ⊢
  cases u with
  | notANumber => rfl
  | infinity s => exact repack_infinity s
  | zero s =>
    obtain rfl : s = .positive := h
    exact unpack_pack_zero _
  | finite s m e hm =>
    show repack (.finite s m e hm) = _
    rw [repack, unpack_pack_finite s hm hc, if_neg (by have := hb rfl; omega)]

/-- A float above zero has positive sign and is not a zero. -/
theorem unpack_of_pos' (hp : (0 : Float) < p) :
    p.toModel.unpack = .infinity .positive ∨
      ∃ m e, ∃ hm : 0 < m, p.toModel.unpack = .finite .positive m e hm := by
  cases hf : p.isFinite
  · exact .inl (value_eq_top_iff.mp (value_eq_top_of_pos hp hf))
  · exact .inr (unpack_of_pos hp hf)

/-- `+0` over a float above zero is `+0`. -/
theorem zero_div_of_pos (hp : (0 : Float) < p) : (0 : Float) / p = 0 := by
  apply ext_unpack
  rw [unpack_div, unpack_zero]
  rcases unpack_of_pos' hp with hu | ⟨m, e, hm, hu⟩ <;> rw [hu] <;> exact unpack_pack_zero _

/-- A difference of finite floats is the exact difference rounded with overflow. -/
theorem sub_value (hx : x.isFinite = true) (hy : y.isFinite = true) :
    (x - y).isNaN = false ∧ value (x - y) = toBinary64 (toReal x - toReal y) := by
  have hny : y.toModel.unpack.neg.isFinite = true := by
    have : y.toModel.unpack.isFinite = true := hy
    cases h : y.toModel.unpack <;> simp_all [UnpackedFloat.neg, UnpackedFloat.isFinite]
  have hround := add_roundsTo (canonical x) (canonical_neg (canonical y)) hx hny
  rw [real_neg, ← Unpacked.sub_eq_add_neg] at hround
  obtain ⟨hne, hval⟩ := hround.readBack
  have hreal : real x.toModel.unpack + -real y.toModel.unpack = toReal x - toReal y := by
    unfold toReal
    ring
  rw [← unpack_sub, hreal] at hval
  rw [← unpack_sub] at hne
  exact ⟨(isNaN_eq_false_iff _).mpr hne, hval⟩

/-- Counting by ones is exact below `2^53`. -/
theorem ofNat_add_one {n : ℕ} (hn : n + 1 < 2 ^ 53) : Float.ofNat n + 1 = Float.ofNat (n + 1) := by
  obtain ⟨hfin, hreal⟩ := ofNat_value (n := n) (by omega)
  obtain ⟨hfin', hreal'⟩ := ofNat_value hn
  obtain ⟨hnan, hval⟩ := add_value hfin isFinite_one
  rw [hreal, toReal_one] at hval
  have hexact : nearest ((n : ℝ) + 1) = n + 1 := by exact_mod_cast nearest_natCast hn
  have hsmall : |nearest ((n : ℝ) + 1)| < overflow := by
    rw [hexact, overflow, abs_of_pos (by positivity)]
    calc (n : ℝ) + 1 < 2 ^ 53 := by exact_mod_cast hn
      _ ≤ 2 ^ 1024 := pow_le_pow_right₀ one_le_two (by norm_num)
  obtain ⟨hsum, hsumReal⟩ := isFinite_of_value_eq hnan hval hsmall
  refine eq_of_toReal_eq hsum hfin' ?_ ?_
  · rw [hsumReal, hexact, hreal']
    push_cast
    ring
  · rw [hsumReal, hexact]
    positivity

/-! ### Sums of zeros and ones -/

/-- A float above zero has positive sign. -/
theorem nonNeg_of_pos (hp : (0 : Float) < p) : NonNeg p.toModel.unpack := by
  rcases unpack_of_pos' hp with hu | ⟨m, e, hm, hu⟩ <;> rw [hu] <;> rfl

theorem nonNeg_zero : NonNeg (0 : Float).toModel.unpack := by
  rw [unpack_zero]
  rfl

theorem nonNeg_float_add (hx : NonNeg x.toModel.unpack) (hy : NonNeg y.toModel.unpack) :
    NonNeg (x + y).toModel.unpack := by
  rw [unpack_add]
  exact nonNeg_repack (nonNeg_add hx hy)

/-- Adding `+0` any number of times leaves a float of positive sign. -/
theorem foldl_add_zeros (h : NonNeg x.toModel.unpack) (n : ℕ) :
    (List.replicate n (0 : Float)).foldl (· + ·) x = x := by
  induction n with
  | zero => rfl
  | succ n ih => rw [List.replicate_succ', List.foldl_append, ih, List.foldl_cons, List.foldl_nil,
      add_zero_of_nonNeg h]

/-- Counting by ones is exact below `2^53`. -/
theorem foldl_add_ones {k : ℕ} (n : ℕ) (h : k + n < 2 ^ 53) :
    (List.replicate n (1 : Float)).foldl (· + ·) (Float.ofNat k) = Float.ofNat (k + n) := by
  induction n generalizing k with
  | zero => rfl
  | succ n ih =>
    rw [List.replicate_succ, List.foldl_cons, ofNat_add_one (by omega), ih (by omega)]
    congr 1
    omega

/-- A conversion of a natural below `2^64` has positive sign. -/
theorem nonNeg_ofNat {n : ℕ} (hn : n < 2 ^ 64) : NonNeg (Float.ofNat n).toModel.unpack := by
  rcases Nat.eq_zero_or_pos n with rfl | hpos
  · have h0 : Float.ofNat 0 = 0 := by decide +kernel
    rw [h0]
    exact nonNeg_zero
  · obtain ⟨hfin, hone⟩ := ofNat_pos hpos hn
    have h0 : toReal (0 : Float) = 0 := rfl
    exact nonNeg_of_pos (lt_of_toReal_lt rfl hfin (by rw [h0]; linarith))

end Binary64

end RangeAdvisor
