import Mathlib.Data.Nat.Size
import Mathlib.Algebra.BigOperators.Intervals

/-!
# `Immudb/Lib/Bits.lean` — counting and clearing the set bits of a number

A number written in binary, read from its low end. Two things are counted here and nothing
else: how many bits of `n` are set (`ones`), and the chain of values one gets from `m` by
clearing its set bits one at a time, lowest first (`clearChain`). Both are defined by halving,
so that every proof about them is an induction on the power of two that cuts `m` — the shape
`m = m % 2 + 2 * (m / 2)` is the only bit-level fact the recursions use.

The one indexing fact the rest of the development needs is `getElem?_clearChain`: the entry of
`m :: clearChain m` at position `ones (m % 2 ^ t)` is `m` with its low `t` bits cleared. A
counter that walks the bits of `m` upward and stops at bit `t` has therefore seen exactly
`ones (m % 2 ^ t)` set bits, and the value it has built so far is `m / 2 ^ t * 2 ^ t`.

Go's bit-clear operator `a &^ b` has no `Nat` counterpart; `andNot` is it, and
`andNot_mul_two_pow` is the one case a loop over the bits of a number meets.
-/

set_option autoImplicit false

namespace Bits

/-! ## 1. Set bits -/

/-- The number of set bits of `n`. -/
def ones (n : Nat) : Nat :=
  if n = 0 then 0 else n % 2 + ones (n / 2)
termination_by n
decreasing_by omega

@[simp] theorem ones_zero : ones 0 = 0 := by
  rw [ones]; simp

theorem ones_eq (n : Nat) : ones n = n % 2 + ones (n / 2) := by
  by_cases hn : n = 0
  · subst hn; simp
  · rw [ones, if_neg hn]

/-- One bit below a number: the low bit is counted, the rest is the count of the half. -/
theorem ones_add_two_mul {b : Nat} (hb : b < 2) (q : Nat) : ones (b + 2 * q) = b + ones q := by
  rw [ones_eq]
  have h1 : (b + 2 * q) % 2 = b := by omega
  have h2 : (b + 2 * q) / 2 = q := by omega
  rw [h1, h2]

theorem mod_two_pow_succ (m t : Nat) : m % 2 ^ (t + 1) = m % 2 + 2 * (m / 2 % 2 ^ t) := by
  rw [Nat.pow_succ', Nat.mod_mul]

theorem div_two_pow_succ (m t : Nat) : m / 2 ^ (t + 1) = m / 2 / 2 ^ t := by
  rw [Nat.pow_succ', Nat.div_div_eq_div_mul]

/-- A node at level `t + 1` has two children at level `t`. -/
theorem div_two_pow_halves {m t c : Nat} (h : m / 2 ^ (t + 1) = c) :
    m / 2 ^ t = 2 * c ∨ m / 2 ^ t = 2 * c + 1 := by
  rw [Nat.pow_succ, ← Nat.div_div_eq_div_mul] at h
  omega

/-- Widening a window of low bits by one bit adds that bit to the count. -/
theorem ones_mod_two_pow_succ (m t : Nat) :
    ones (m % 2 ^ (t + 1)) = ones (m % 2 ^ t) + m / 2 ^ t % 2 := by
  induction t generalizing m with
  | zero =>
    have h : m % 2 < 2 := Nat.mod_lt _ (by decide)
    have := ones_add_two_mul h 0
    simp only [Nat.mul_zero, Nat.add_zero, ones_zero] at this
    simp [this, Nat.mod_one]
  | succ t ih =>
    rw [mod_two_pow_succ m (t + 1), mod_two_pow_succ m t,
      ones_add_two_mul (Nat.mod_lt _ (by decide)), ones_add_two_mul (Nat.mod_lt _ (by decide)),
      ih (m / 2), div_two_pow_succ]
    omega

/-- The count over a window of `t` low bits, bit by bit. -/
theorem ones_mod_two_pow_eq_sum (m t : Nat) :
    ones (m % 2 ^ t) = ∑ j ∈ Finset.range t, m / 2 ^ j % 2 := by
  induction t with
  | zero => simp [Nat.mod_one]
  | succ t ih => rw [ones_mod_two_pow_succ, ih, Finset.sum_range_succ]

/-- Once the window covers all of `m`, the count is the count of `m`. -/
theorem ones_mod_of_lt {m t : Nat} (h : m < 2 ^ t) : ones (m % 2 ^ t) = ones m := by
  rw [Nat.mod_eq_of_lt h]

/-- `2 ^ l - 1` is `l` set bits. -/
theorem ones_two_pow_sub_one (l : Nat) : ones (2 ^ l - 1) = l := by
  induction l with
  | zero => simp
  | succ l ih =>
    have h : 2 ^ (l + 1) - 1 = 1 + 2 * (2 ^ l - 1) := by
      have := Nat.two_pow_pos l
      rw [Nat.pow_succ]; omega
    rw [h, ones_add_two_mul (by decide), ih, Nat.add_comm]

/-! ## 2. Clearing the set bits one at a time -/

/-- `m`, then `m` with its lowest set bit cleared, and so on down to `0`, without the leading
`m`: the value after clearing the lowest `i + 1` set bits is entry `i`. -/
def clearChain (m : Nat) : List Nat :=
  if m = 0 then []
  else (if m % 2 = 1 then [m / 2 * 2] else []) ++ (clearChain (m / 2)).map (· * 2)
termination_by m
decreasing_by omega

theorem clearChain_eq (m : Nat) :
    clearChain m = (if m % 2 = 1 then [m / 2 * 2] else []) ++ (clearChain (m / 2)).map (· * 2) := by
  by_cases hm : m = 0
  · subst hm; rw [clearChain]; simp
  · rw [clearChain, if_neg hm]

/-- The leading `m` together with the chain is the chain of the half, doubled — with the low
bit's own entry in front when the low bit is set. -/
theorem cons_clearChain (m : Nat) :
    m :: clearChain m =
      if m % 2 = 1 then m :: (m / 2 :: clearChain (m / 2)).map (· * 2)
      else (m / 2 :: clearChain (m / 2)).map (· * 2) := by
  rw [clearChain_eq]
  split
  · simp
  · have hm : m / 2 * 2 = m := by omega
    simp [hm]

theorem length_clearChain (m : Nat) : (clearChain m).length = ones m := by
  induction m using Nat.strongRecOn with
  | ind m ih =>
    by_cases hm : m = 0
    · subst hm; rw [clearChain]; simp
    · rw [clearChain_eq, ones_eq, List.length_append, List.length_map, ih (m / 2) (by omega)]
      split <;> simp <;> omega

/-- **Entry `ones (m % 2 ^ t)` of the chain clears the low `t` bits.** -/
theorem getElem?_clearChain (m t : Nat) :
    (m :: clearChain m)[ones (m % 2 ^ t)]? = some (m / 2 ^ t * 2 ^ t) := by
  induction t generalizing m with
  | zero => simp [Nat.mod_one]
  | succ t ih =>
    rw [cons_clearChain, mod_two_pow_succ, ones_add_two_mul (Nat.mod_lt _ (by decide)),
      div_two_pow_succ, Nat.pow_succ]
    split
    · rename_i hodd
      rw [hodd, Nat.add_comm, List.getElem?_cons_succ, List.getElem?_map, ih]
      simp [Nat.mul_assoc]
    · rename_i heven
      have h0 : m % 2 = 0 := by omega
      rw [h0, Nat.zero_add, List.getElem?_map, ih]
      simp [Nat.mul_assoc]

/-- Walking one more bit of `m` adds the next entry of the chain exactly when that bit is set. -/
theorem take_clearChain_succ (m l : Nat) :
    (m :: clearChain m).take (ones (m % 2 ^ (l + 1)) + 1) =
      (m :: clearChain m).take (ones (m % 2 ^ l) + 1) ++
        if m / 2 ^ l % 2 = 1 then [m / 2 ^ (l + 1) * 2 ^ (l + 1)] else [] := by
  rw [ones_mod_two_pow_succ]
  split
  · rename_i hodd
    have hget := getElem?_clearChain m (l + 1)
    rw [ones_mod_two_pow_succ, hodd] at hget
    rw [hodd, List.take_add_one, hget]
    rfl
  · rename_i heven
    have h0 : m / 2 ^ l % 2 = 0 := by omega
    rw [h0, Nat.add_zero, List.append_nil]

/-! ## 3. Go's bit operators on `Nat` -/

/-- Go's `a &^ b`: the bits of `a` that are not bits of `b`. -/
def andNot (a b : Nat) : Nat := a ^^^ (a &&& b)

/-- Clearing bit `l` of a multiple of `2 ^ l` drops its lowest remaining bit. -/
theorem andNot_mul_two_pow (w l : Nat) : andNot (w * 2 ^ l) (2 ^ l) = w / 2 * 2 ^ (l + 1) := by
  apply Nat.eq_of_testBit_eq
  intro i
  simp only [andNot, Nat.testBit_xor, Nat.testBit_and, Nat.testBit_mul_two_pow,
    Nat.testBit_two_pow, Nat.testBit_div_two]
  rcases Nat.lt_trichotomy i l with hi | rfl | hi
  · have h1 : ¬ l ≤ i := by omega
    have h2 : ¬ l + 1 ≤ i := by omega
    simp [h1, h2]
  · have h : ¬ i + 1 ≤ i := by omega
    simp [h]
  · have h1 : l ≤ i := by omega
    have h2 : l + 1 ≤ i := by omega
    have h3 : l ≠ i := by omega
    have h4 : i - (l + 1) + 1 = i - l := by omega
    simp [h1, h2, h3, h4]

/-- `x &&& 2 ^ h` is `2 ^ h` or `0`, as bit `h` of `x` is set or not. -/
theorem and_two_pow (x h : Nat) : x &&& 2 ^ h = if x.testBit h then 2 ^ h else 0 := by
  apply Nat.eq_of_testBit_eq
  intro i
  rw [Nat.testBit_and, Nat.testBit_two_pow]
  by_cases hi : h = i
  · subst hi
    cases x.testBit h <;> simp
  · split <;> simp [hi]

/-- Go's `x & (1 << h) > 0` is the test of bit `h`. -/
theorem and_two_pow_pos_iff (x h : Nat) : 0 < x &&& 2 ^ h ↔ x.testBit h := by
  rw [and_two_pow]
  have := Nat.two_pow_pos h
  split <;> simp_all

theorem testBit_eq_mod_two (x h : Nat) : x.testBit h = decide (x / 2 ^ h % 2 = 1) :=
  Nat.testBit_eq_decide_div_mod_eq

/-- Go's `x & (1 << h) > 0`, as arithmetic. -/
theorem and_one_shiftLeft_pos_iff (x h : Nat) : x &&& (1 <<< h) > 0 ↔ x / 2 ^ h % 2 = 1 := by
  rw [Nat.one_shiftLeft, gt_iff_lt, and_two_pow_pos_iff, testBit_eq_mod_two, decide_eq_true_iff]

/-- Go's `x >> h << h`: `x` with its low `h` bits cleared. -/
theorem shiftRight_shiftLeft (x h : Nat) : x >>> h <<< h = x / 2 ^ h * 2 ^ h := by
  rw [Nat.shiftLeft_eq, Nat.shiftRight_eq_div_pow]

end Bits
