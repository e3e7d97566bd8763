import Mathlib

/-!
# `Immudb/Lib/Binary64.lean` — IEEE-754 binary64 words and their order

A `float64` is a 64-bit word: a sign bit, an 11-bit biased exponent field and a 52-bit fraction.
The exponent field `2047` holds the infinities (fraction `0`) and the NaNs; the field `0` holds
the subnormals and the two zeros. Every finite value is a whole number of `2 ^ -1074`, the least
subnormal, so a value is kept here as that whole number (`scaled`), with `⊥` and `⊤` for the
infinities (`value`).

The order of the values is the order of the words read as sign and magnitude (`rank`): below
the sign bit, a larger word is a larger magnitude (`scaled_lt_scaled`), and the two zeros have
the same value (`value_lt_iff`, `value_eq_iff`).
-/

set_option autoImplicit false

namespace Binary64

/-- The sign bit (bit 63). -/
def signBit (w : Nat) : Bool := w / 2 ^ 63 % 2 = 1

/-- The bits below the sign: exponent field and fraction. -/
def magBits (w : Nat) : Nat := w % 2 ^ 63

/-- The magnitude bits of an infinity; those above it are NaNs. -/
def InfBits : Nat := 2047 * 2 ^ 52

/-- A NaN: the exponent field all ones and a fraction that is not `0`. -/
def IsNaN (w : Nat) : Prop := InfBits < magBits w

instance (w : Nat) : Decidable (IsNaN w) := inferInstanceAs (Decidable (_ < _))

/-- A zero, of either sign. -/
def IsZero (w : Nat) : Prop := magBits w = 0

instance (w : Nat) : Decidable (IsZero w) := inferInstanceAs (Decidable (_ = _))

/-- The magnitude of finite magnitude bits in units of `2 ^ -1074`: the fraction for a
subnormal, the fraction with its hidden bit, scaled by the exponent, for a normal number. -/
def scaled (m : Nat) : Nat :=
  if m / 2 ^ 52 = 0 then m % 2 ^ 52 else (2 ^ 52 + m % 2 ^ 52) * 2 ^ (m / 2 ^ 52 - 1)

-- Equality and order of extended values are decided on the options they are, so that the
-- comparisons below run: the instances found through Mathlib's lattice structure on `ℤ` do not.
instance decEqExtended : DecidableEq (WithBot (WithTop Int)) :=
  @WithBot.decidableEq (WithTop Int) (@WithTop.decidableEq Int Int.instDecidableEq)

instance decLtExtended : DecidableLT (WithBot (WithTop Int)) :=
  @WithBot.decidableLT (WithTop Int) (@WithTop.instLT Int Int.instLTInt)
    (@WithTop.decidableLT Int Int.instLTInt Int.decLt)

/-- A finite value, in units of `2 ^ -1074`. -/
def finite (z : Int) : WithBot (WithTop Int) := WithBot.some (WithTop.some z)

/-- The value of a word that is not a NaN, in units of `2 ^ -1074`; `⊥` and `⊤` are the
infinities. -/
def value (w : Nat) : WithBot (WithTop Int) :=
  if magBits w = InfBits then (if signBit w then ⊥ else ⊤)
  else if signBit w then finite (-(scaled (magBits w) : Int))
  else finite (scaled (magBits w))

/-- The word read as sign and magnitude. -/
def rank (w : Nat) : Int := if signBit w then -(magBits w : Int) else magBits w

/-! ## The fields of a word -/

theorem signBit_iff {w : Nat} (h : w < 2 ^ 64) : signBit w = true ↔ 2 ^ 63 ≤ w := by
  simp only [signBit, decide_eq_true_eq]
  omega

theorem magBits_of_le {w : Nat} (h : w < 2 ^ 64) (hs : 2 ^ 63 ≤ w) : magBits w = w - 2 ^ 63 := by
  unfold magBits
  omega

theorem magBits_of_lt {w : Nat} (hs : w < 2 ^ 63) : magBits w = w := Nat.mod_eq_of_lt hs

theorem rank_of_le {w : Nat} (h : w < 2 ^ 64) (hs : 2 ^ 63 ≤ w) :
    rank w = -((w - 2 ^ 63 : Nat) : Int) := by
  rw [rank, if_pos ((signBit_iff h).mpr hs), magBits_of_le h hs]

theorem rank_of_lt {w : Nat} (hs : w < 2 ^ 63) : rank w = w := by
  have hb : signBit w = false := Bool.eq_false_iff.mpr fun h' => by
    have := (signBit_iff (by omega)).mp h'
    omega
  rw [rank, hb, if_neg Bool.false_ne_true, magBits_of_lt hs]

/-! ## The magnitude grows with the bits -/

theorem scaled_zero : scaled 0 = 0 := by simp [scaled]

/-- Below the top of an exponent, `scaled` is less than the first magnitude of the next. -/
theorem scaled_lt_next (m : Nat) : scaled m < 2 ^ 52 * 2 ^ (m / 2 ^ 52) := by
  have hf : m % 2 ^ 52 < 2 ^ 52 := Nat.mod_lt _ (by positivity)
  unfold scaled
  split
  · rename_i h
    rw [h]
    simpa using hf
  · rename_i h
    obtain ⟨e, he⟩ : ∃ e, m / 2 ^ 52 = e + 1 := ⟨m / 2 ^ 52 - 1, by omega⟩
    rw [he, Nat.add_sub_cancel, pow_succ 2 e]
    have hp : 0 < 2 ^ e := by positivity
    calc (2 ^ 52 + m % 2 ^ 52) * 2 ^ e < (2 ^ 52 + 2 ^ 52) * 2 ^ e :=
          Nat.mul_lt_mul_of_pos_right (by omega) hp
      _ = 2 ^ 52 * (2 ^ e * 2) := by omega

/-- From an exponent on, `scaled` is at least its first magnitude. -/
theorem le_scaled (m : Nat) (h : 0 < m / 2 ^ 52) : 2 ^ 52 * 2 ^ (m / 2 ^ 52 - 1) ≤ scaled m := by
  unfold scaled
  rw [if_neg (by omega)]
  exact Nat.mul_le_mul_right _ (Nat.le_add_right _ _)

/-- **A larger magnitude word is a larger magnitude.** -/
theorem scaled_lt_scaled {m m' : Nat} (h : m < m') : scaled m < scaled m' := by
  have he : m / 2 ^ 52 ≤ m' / 2 ^ 52 := Nat.div_le_div_right h.le
  rcases he.lt_or_eq with he | he
  · -- a higher exponent: past every magnitude of the lower one
    calc scaled m < 2 ^ 52 * 2 ^ (m / 2 ^ 52) := scaled_lt_next m
      _ ≤ 2 ^ 52 * 2 ^ (m' / 2 ^ 52 - 1) :=
        Nat.mul_le_mul_left _ (Nat.pow_le_pow_right (by norm_num) (by omega))
      _ ≤ scaled m' := le_scaled m' (by omega)
  · -- the same exponent: a larger fraction
    have hf : m % 2 ^ 52 < m' % 2 ^ 52 := by omega
    unfold scaled
    rw [he]
    split
    · exact hf
    · exact Nat.mul_lt_mul_of_pos_right (by omega) (by positivity)

theorem scaled_pos {m : Nat} (h : 0 < m) : 0 < scaled m := by
  simpa [scaled_zero] using scaled_lt_scaled h

/-! ## Values in the order of the ranks -/

/-- `scaled` of a rank's magnitude, with its sign. -/
def signedScaled (r : Int) : Int := if r < 0 then -(scaled r.natAbs : Int) else scaled r.natAbs

/-- The value a rank stands for: its finite value, and the infinities at the ends. -/
def ofRank (r : Int) : WithBot (WithTop Int) :=
  if r ≤ -(InfBits : Int) then ⊥
  else if (InfBits : Int) ≤ r then ⊤
  else finite (signedScaled r)

/-- The finite part: strictly monotone through `0`. -/
theorem signedScaled_lt {r r' : Int} (h : r < r') : signedScaled r < signedScaled r' := by
  unfold signedScaled
  by_cases hr : r < 0 <;> by_cases hr' : r' < 0 <;> simp only [hr, hr', if_true, if_false]
  · have := scaled_lt_scaled (show r'.natAbs < r.natAbs by omega)
    omega
  · have := scaled_pos (show 0 < r.natAbs by omega)
    omega
  · omega
  · exact_mod_cast scaled_lt_scaled (show r.natAbs < r'.natAbs by omega)

theorem finite_lt_finite {z z' : Int} (h : z < z') : finite z < finite z' :=
  WithBot.coe_lt_coe.mpr (WithTop.coe_lt_coe.mpr h)

theorem bot_lt_finite (z : Int) : ⊥ < finite z := WithBot.bot_lt_coe _

theorem finite_lt_top (z : Int) : finite z < ⊤ := WithBot.coe_lt_coe.mpr (WithTop.coe_lt_top _)

theorem ofRank_strictMonoOn :
    StrictMonoOn ofRank (Set.Icc (-(InfBits : Int)) InfBits) := by
  intro r hr r' hr' h
  have hI : (0 : Int) < InfBits := by simp [InfBits]
  simp only [Set.mem_Icc] at hr hr'
  unfold ofRank
  by_cases h₁ : r ≤ -(InfBits : Int)
  · -- from `-∞`
    rw [if_pos h₁, if_neg (show ¬ r' ≤ -(InfBits : Int) by omega)]
    split
    · exact WithBot.bot_lt_coe _
    · exact bot_lt_finite _
  · rw [if_neg h₁, if_neg (show ¬ (InfBits : Int) ≤ r by omega),
      if_neg (show ¬ r' ≤ -(InfBits : Int) by omega)]
    by_cases h₂ : (InfBits : Int) ≤ r'
    · -- up to `+∞`
      rw [if_pos h₂]
      exact finite_lt_top _
    · rw [if_neg h₂]
      exact finite_lt_finite (signedScaled_lt h)

theorem rank_mem {w : Nat} (hw : ¬ IsNaN w) : rank w ∈ Set.Icc (-(InfBits : Int)) InfBits := by
  unfold IsNaN at hw
  unfold rank
  simp only [Set.mem_Icc]
  constructor <;> split <;> omega

/-- The value of a word is the value of its rank. -/
theorem value_eq_ofRank {w : Nat} (hw : ¬ IsNaN w) : value w = ofRank (rank w) := by
  have hI : 0 < InfBits := by simp [InfBits]
  unfold IsNaN at hw
  unfold value ofRank rank
  by_cases hs : signBit w <;> simp only [hs, if_true, Bool.false_eq_true, if_false]
  · by_cases hi : magBits w = InfBits
    · simp [hi]
    · rw [if_neg hi, if_neg (show ¬ -(magBits w : Int) ≤ -(InfBits : Int) by omega),
        if_neg (show ¬ (InfBits : Int) ≤ -(magBits w : Int) by omega)]
      by_cases h0 : magBits w = 0
      · simp [h0, scaled_zero, signedScaled]
      · rw [signedScaled, if_pos (by omega), Int.natAbs_neg, Int.natAbs_natCast]
  · by_cases hi : magBits w = InfBits
    · simp [hi, InfBits]
    · rw [if_neg hi, if_neg (show ¬ (magBits w : Int) ≤ -(InfBits : Int) by omega),
        if_neg (show ¬ (InfBits : Int) ≤ (magBits w : Int) by omega), signedScaled,
        if_neg (show ¬ (magBits w : Int) < 0 by omega), Int.natAbs_natCast]

/-- **The values of words that are not NaNs are ordered as their ranks.** -/
theorem value_lt_iff {a b : Nat} (ha : ¬ IsNaN a) (hb : ¬ IsNaN b) :
    value a < value b ↔ rank a < rank b := by
  rw [value_eq_ofRank ha, value_eq_ofRank hb]
  exact ofRank_strictMonoOn.lt_iff_lt (rank_mem ha) (rank_mem hb)

theorem value_eq_iff {a b : Nat} (ha : ¬ IsNaN a) (hb : ¬ IsNaN b) :
    value a = value b ↔ rank a = rank b := by
  rw [value_eq_ofRank ha, value_eq_ofRank hb]
  exact ofRank_strictMonoOn.injOn.eq_iff (rank_mem ha) (rank_mem hb)

/-- Two words of one rank are one word, or the two zeros. -/
theorem eq_or_isZero_of_rank_eq {a b : Nat} (ha : a < 2 ^ 64) (hb : b < 2 ^ 64)
    (h : rank a = rank b) : a = b ∨ (IsZero a ∧ IsZero b) := by
  unfold IsZero
  by_cases hsa : 2 ^ 63 ≤ a <;> by_cases hsb : 2 ^ 63 ≤ b
  · rw [rank_of_le ha hsa, rank_of_le hb hsb] at h
    omega
  · rw [rank_of_le ha hsa, rank_of_lt (by omega)] at h
    rw [magBits_of_le ha hsa, magBits_of_lt (show b < 2 ^ 63 by omega)]
    omega
  · rw [rank_of_lt (by omega), rank_of_le hb hsb] at h
    rw [magBits_of_le hb hsb, magBits_of_lt (show a < 2 ^ 63 by omega)]
    omega
  · rw [rank_of_lt (by omega), rank_of_lt (by omega)] at h
    omega

/-! ## Go's comparison of two `float64` -/

/-- Go's `a < b` on two `float64` words: false when either is a NaN. -/
def lt (a b : Nat) : Prop := ¬ IsNaN a ∧ ¬ IsNaN b ∧ value a < value b

instance (a b : Nat) : Decidable (lt a b) := inferInstanceAs (Decidable (_ ∧ _ ∧ _))

theorem lt_iff_rank_lt {a b : Nat} (ha : ¬ IsNaN a) (hb : ¬ IsNaN b) : lt a b ↔ rank a < rank b := by
  simp only [lt, ha, hb, not_false_eq_true, true_and, value_lt_iff ha hb]

end Binary64
