import Immudb.Lib.Binary64
import Immudb.Sql.Values

/-!
# `Immudb/Sql/FloatKey.lean` — the index key of a `FLOAT`

`EncodeRawValueAsKey` on a `Float64Type` column (`catalog.go`) writes the bits
`math.Float64bits` gives, big-endian, behind `KeyValPrefixNotNull`: with every byte inverted
when the sign bit is set, and with the sign bit flipped otherwise. `Float64.Compare`
(`stmt.go`) compares two `FLOAT`s with Go's `==` and `>` on `float64`.

The key of a word is its place among the words read as sign and magnitude, negative words
first and reversed (`encodeFloat64Key_eq`). Keys are therefore ordered as the numbers are
(`Binary64.value_lt_iff`), but for one pair: `-0.0` and `+0.0` are equal numbers with two keys
(`cmpOf_encodeFloat64Key_iff`).

The model keeps `FLOAT` values as their bits here; `Values.lean` keeps them as the numbers they
are, where the two zeros are one.
-/

set_option autoImplicit false

namespace Immudb.Sql

open Bytes Binary64

/-- `EncodeRawValueAsKey` on a `Float64Type` column, for a value whose bits are `floatBits`:
"apart from the sign bit, bit representation of float64 can be sorted lexicographically". -/
def encodeFloat64Key (floatBits : UInt64) : List UInt8 :=
  let encv := be 8 floatBits.toNat
  KeyValPrefixNotNull :: if encv.headD 0 &&& 0x80 ≠ 0 then encv.map (~~~ ·) else flipSign encv

/-- `Float64.Compare(val)` of two `FLOAT`s, on their bits: Go's `==` and `>`, both false when a
NaN is compared. -/
def compareFloat64Bits (v rval : UInt64) : Int :=
  if ¬ IsNaN v.toNat ∧ ¬ IsNaN rval.toNat ∧ value v.toNat = value rval.toNat then 0
  else if ¬ IsNaN v.toNat ∧ ¬ IsNaN rval.toNat ∧ value rval.toNat < value v.toNat then 1
  else -1

/-- Where `encodeFloat64Key` puts a word among the eight-byte keys: the words with the sign bit
reversed below `2 ^ 63`, the others above it. -/
def floatKey (n : Nat) : Nat := if 2 ^ 63 ≤ n then 2 ^ 64 - 1 - n else n + 2 ^ 63

/-! ## The key is the place of the word -/

theorem encodeFloat64Key_eq (w : UInt64) :
    encodeFloat64Key w = KeyValPrefixNotNull :: be 8 (floatKey w.toNat) := by
  have hw : w.toNat < 2 ^ 64 := w.toNat_lt
  simp only [encodeFloat64Key, floatKey]
  by_cases hs : 2 ^ 63 ≤ w.toNat
  · -- the sign bit set: every byte inverted
    rw [if_pos ((headD_be_and_0x80 hw).mpr hs), if_pos hs, map_not_be hw]
  · -- the sign bit clear: flipped, which adds `2 ^ 63`
    rw [if_neg (fun h => hs ((headD_be_and_0x80 hw).mp h)), if_neg hs]
    have hf := flipSign_beInt (x := (w.toNat : Int)) (by omega) (by omega)
    have e : ((w.toNat : Int) % 2 ^ (8 * 8)).toNat = w.toNat := by omega
    rw [beInt, e] at hf
    have e' : ((w.toNat : Int) + 2 ^ 63).toNat = w.toNat + 2 ^ 63 := by omega
    rw [hf, e']

theorem floatKey_lt (n : Nat) : floatKey n < 2 ^ 64 := by
  unfold floatKey
  split <;> omega

/-- Keys compare as the places of their words. -/
theorem cmpOf_encodeFloat64Key (a b : UInt64) :
    cmpOf (encodeFloat64Key a) (encodeFloat64Key b) = cmpOf (floatKey a.toNat) (floatKey b.toNat) := by
  rw [encodeFloat64Key_eq, encodeFloat64Key_eq, cmpOf_cons]
  exact cmpOf_map (· < 2 ^ 64) (be 8) (fun _ _ _ hb h => be_lt_be h hb) (fun x y => by omega)
    (fun _ _ h => List.lt_asymm h) (floatKey_lt _) (floatKey_lt _)

/-- A word of a smaller rank has a smaller place. -/
theorem floatKey_lt_of_rank_lt {a b : Nat} (ha : a < 2 ^ 64) (hb : b < 2 ^ 64)
    (h : rank a < rank b) : floatKey a < floatKey b := by
  unfold floatKey
  by_cases hsa : 2 ^ 63 ≤ a <;> by_cases hsb : 2 ^ 63 ≤ b
  · rw [rank_of_le ha hsa, rank_of_le hb hsb] at h
    rw [if_pos hsa, if_pos hsb]
    omega
  · rw [if_pos hsa, if_neg hsb]
    omega
  · rw [rank_of_lt (by omega), rank_of_le hb hsb] at h
    omega
  · rw [rank_of_lt (by omega), rank_of_lt (by omega)] at h
    rw [if_neg hsa, if_neg hsb]
    omega

theorem floatKey_injective {a b : Nat} (ha : a < 2 ^ 64) (hb : b < 2 ^ 64)
    (h : floatKey a = floatKey b) : a = b := by
  unfold floatKey at h
  split at h <;> split at h <;> omega

/-- Two `FLOAT`s that are not NaNs compare as their ranks. -/
theorem compareFloat64Bits_eq {a b : UInt64} (ha : ¬ IsNaN a.toNat) (hb : ¬ IsNaN b.toNat) :
    compareFloat64Bits a b = cmpOf (rank a.toNat) (rank b.toNat) := by
  simp only [compareFloat64Bits, ha, hb, not_false_eq_true, true_and, value_eq_iff ha hb,
    value_lt_iff hb ha, cmpOf]

/-- **The key of a `FLOAT` sorts as the number, but at the two zeros.** For two `FLOAT`s that
are not NaNs, the keys compare as `Float64.Compare` does unless they are `-0.0` and `+0.0`, which
compare equal and have keys `0x80 7f ff … ff` and `0x80 80 00 … 00`. -/
theorem cmpOf_encodeFloat64Key_iff (a b : UInt64) (ha : ¬ IsNaN a.toNat) (hb : ¬ IsNaN b.toNat) :
    cmpOf (encodeFloat64Key a) (encodeFloat64Key b) = compareFloat64Bits a b ↔
      ¬ (IsZero a.toNat ∧ IsZero b.toNat ∧ a ≠ b) := by
  have ha' := a.toNat_lt
  have hb' := b.toNat_lt
  rw [cmpOf_encodeFloat64Key, compareFloat64Bits_eq ha hb]
  constructor
  · -- two different zeros: equal ranks, different places
    rintro h ⟨hza, hzb, hne⟩
    have hr : rank a.toNat = rank b.toNat := by
      unfold IsZero at hza hzb
      simp [rank, hza, hzb]
    have hk : floatKey a.toNat ≠ floatKey b.toNat :=
      fun e => hne (UInt64.toNat_inj.mp (floatKey_injective ha' hb' e))
    have hkey : cmpOf (floatKey a.toNat) (floatKey b.toNat) ≠ 0 := by
      simp only [cmpOf, hk, if_false]
      split <;> omega
    exact hkey (h.trans (by simp [cmpOf, hr]))
  · intro hz
    rcases lt_trichotomy (rank a.toNat) (rank b.toNat) with h | h | h
    · have hk := floatKey_lt_of_rank_lt ha' hb' h
      simp [cmpOf, h.ne, hk.ne, not_lt.mpr h.le, not_lt.mpr hk.le]
    · -- one rank: one word, since they are not the two zeros
      rcases eq_or_isZero_of_rank_eq ha' hb' h with e | ⟨hza, hzb⟩
      · simp [e, cmpOf]
      · simp [(not_not.mp fun hne => hz ⟨hza, hzb, hne⟩), cmpOf]
    · have hk := floatKey_lt_of_rank_lt hb' ha' h
      simp [cmpOf, h.ne', hk.ne', h, hk]

/-- `-0.0` and `+0.0`: their keys do not compare as the numbers do. -/
theorem cmpOf_encodeFloat64Key_zeros :
    cmpOf (encodeFloat64Key 0x8000000000000000) (encodeFloat64Key 0) ≠
      compareFloat64Bits 0x8000000000000000 0 :=
  fun h => (cmpOf_encodeFloat64Key_iff _ _ (by decide) (by decide)).mp h
    ⟨by decide, by decide, by decide⟩

end Immudb.Sql
