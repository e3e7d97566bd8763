import Mathlib.Data.List.Basic
import Mathlib.Tactic.Ring

/-!
# `Immudb/Lib/Bytes.lean` — fixed-width big-endian integers

`binary.BigEndian.PutUint16/32/64` write the low `w` bytes of a number, most significant first.
`be w n` is that byte string. The value is truncated to `w` bytes first, as a Go conversion to
`uint16`/`uint32` does, which is why `be` takes any `Nat`. A signed value converted first
(`uint64(ts)` of an `int64`) is written in two's complement: `beInt`. Go's `copy` into a buffer
at an offset is `copyAt`.

`bytes.Compare` orders byte strings lexicographically, a proper prefix first: that is `<` on
`List UInt8`. Keys of one length compare at their first difference, whatever follows them
(`append_lt_append_of_lt`), and `be w` is monotone below `2 ^ (8 * w)` (`be_lt_be`).
-/

set_option autoImplicit false

namespace Bytes

/-- The `w` low bytes of `n`, most significant first. -/
def be : Nat → Nat → List UInt8
  | 0, _ => []
  | w + 1, n => be w (n / 256) ++ [(n % 256).toUInt8]

@[simp] theorem length_be (w n : Nat) : (be w n).length = w := by
  induction w generalizing n with
  | zero => rfl
  | succ w ih => simp [be, ih]

/-- `PutUintN(b, uintN(x))` of a signed `x`: its `w` low bytes in two's complement. -/
def beInt (w : Nat) (x : Int) : List UInt8 := be w (x % 2 ^ (8 * w)).toNat

@[simp] theorem length_beInt (w : Nat) (x : Int) : (beInt w x).length = w := length_be _ _

/-- `copy(dst[off:], src)`: as many elements of `src` as fit are written over `dst` from `off`
on. -/
def copyAt {α : Type} (dst : List α) (off : Nat) (src : List α) : List α :=
  let n := min (dst.length - off) src.length
  dst.take off ++ src.take n ++ dst.drop (off + n)

/-- `copy` writes over `dst` and never changes its length. -/
@[simp] theorem length_copyAt {α : Type} (dst : List α) (off : Nat) (src : List α) :
    (copyAt dst off src).length = dst.length := by
  simp only [copyAt, List.length_append, List.length_take, List.length_drop]
  omega

theorem copyAt_of_le {α : Type} {dst src : List α} {off : Nat}
    (h : off + src.length ≤ dst.length) :
    copyAt dst off src = dst.take off ++ src ++ dst.drop (off + src.length) := by
  have hn : min (dst.length - off) src.length = src.length := by omega
  simp only [copyAt, hn, List.take_length]

/-- A copy over a segment of the same length replaces that segment. -/
theorem copyAt_segment {α : Type} {xs ys zs src : List α} (h : src.length = ys.length) :
    copyAt (xs ++ ys ++ zs) xs.length src = xs ++ src ++ zs := by
  rw [copyAt_of_le (by simp; omega), h, List.append_assoc xs ys zs, List.take_left]
  simp

/-! ## The order of byte strings -/

section Order

variable {α : Type} [LT α]

/-- Two lists of one length compare as their first difference: what follows them does not
matter. -/
theorem append_lt_append_of_lt {a b x y : List α} (h : a < b) (hl : a.length = b.length) :
    a ++ x < b ++ y := by
  induction a generalizing b with
  | nil =>
    cases b with
    | nil => exact absurd h (List.not_lt_nil _)
    | cons _ _ => simp at hl
  | cons c a ih =>
    cases b with
    | nil => simp at hl
    | cons d b =>
      rcases List.cons_lt_cons_iff.mp h with hcd | ⟨rfl, hab⟩
      · exact List.cons_lt_cons_iff.mpr (Or.inl hcd)
      · exact List.cons_lt_cons_iff.mpr (Or.inr ⟨rfl, ih hab (by simpa using hl)⟩)

/-- A proper extension sorts after what it extends. -/
theorem lt_append_of_ne_nil (a : List α) {b : List α} (hb : b ≠ []) : a < a ++ b := by
  induction a with
  | nil =>
    obtain ⟨x, b, rfl⟩ := List.exists_cons_of_ne_nil hb
    exact List.nil_lt_cons x b
  | cons c a ih => exact List.cons_lt_cons_iff.mpr (Or.inr ⟨rfl, ih⟩)

/-- Go's three-way comparison `if a == b {0}; if a > b {1}; -1`. -/
def cmpOf [DecidableEq α] [DecidableLT α] (a b : α) : Int :=
  if a = b then 0 else if b < a then 1 else -1

/-- A map strictly monotone on the values that satisfy `P` keeps their three-way comparisons. -/
theorem cmpOf_map {β : Type} [DecidableEq α] [DecidableLT α] [LT β] [DecidableEq β]
    [DecidableLT β] (P : α → Prop) (f : α → β) (mono : ∀ a b, P a → P b → a < b → f a < f b)
    (tri : ∀ a b : α, a < b ∨ a = b ∨ b < a) (asymm : ∀ x y : β, x < y → ¬ y < x)
    {a b : α} (ha : P a) (hb : P b) : cmpOf (f a) (f b) = cmpOf a b := by
  have irrefl : ∀ x : β, ¬ x < x := fun x h => asymm x x h h
  rcases tri a b with h | rfl | h
  · have hf := mono a b ha hb h
    have hne : a ≠ b := by rintro rfl; exact irrefl _ hf
    have hfne : f a ≠ f b := by intro e; rw [e] at hf; exact irrefl _ hf
    have hba : ¬ b < a := fun hba => asymm _ _ hf (mono b a hb ha hba)
    simp [cmpOf, hne, hfne, hba, asymm _ _ hf]
  · simp [cmpOf]
  · have hf := mono b a hb ha h
    have hne : a ≠ b := by rintro rfl; exact irrefl _ hf
    have hfne : f a ≠ f b := by intro e; rw [e] at hf; exact irrefl _ hf
    simp [cmpOf, hne, hfne, hf, h]

end Order

/-- Byte strings are totally ordered. -/
theorem bytes_trichotomy (a b : List UInt8) : a < b ∨ a = b ∨ b < a := by
  rcases List.le_total a b with h | h
  · rcases List.le_iff_lt_or_eq.mp h with h | h
    · exact Or.inl h
    · exact Or.inr (Or.inl h)
  · rcases List.le_iff_lt_or_eq.mp h with h | h
    · exact Or.inr (Or.inr h)
    · exact Or.inr (Or.inl h.symm)

/-- A common beginning does not change a comparison. -/
theorem append_lt_append_left_iff (p : List UInt8) {a b : List UInt8} :
    p ++ a < p ++ b ↔ a < b := by
  induction p with
  | nil => rfl
  | cons c p ih =>
    simp only [List.cons_append, List.cons_lt_cons_iff, UInt8.lt_irrefl, false_or, true_and, ih]

theorem cmpOf_nonneg_iff {a b : List UInt8} : 0 ≤ cmpOf a b ↔ b ≤ a := by
  rcases bytes_trichotomy a b with h | rfl | h
  · have hne : a ≠ b := by rintro rfl; exact List.lt_irrefl _ h
    simp [cmpOf, hne, List.lt_asymm h, List.not_le.mpr h]
  · simp [cmpOf]
  · have hne : a ≠ b := by rintro rfl; exact List.lt_irrefl _ h
    simp [cmpOf, hne, h, List.le_of_lt h]

theorem cmpOf_nonpos_iff {a b : List UInt8} : cmpOf a b ≤ 0 ↔ a ≤ b := by
  rcases bytes_trichotomy a b with h | rfl | h
  · have hne : a ≠ b := by rintro rfl; exact List.lt_irrefl _ h
    simp [cmpOf, hne, List.lt_asymm h, List.le_of_lt h]
  · simp [cmpOf]
  · have hne : a ≠ b := by rintro rfl; exact List.lt_irrefl _ h
    simp [cmpOf, hne, h, List.not_le.mpr h]

/-- A common first byte does not change a comparison. -/
theorem cmpOf_cons (x : UInt8) (a b : List UInt8) : cmpOf (x :: a) (x :: b) = cmpOf a b := by
  simp [cmpOf]

/-- The first of the `w + 1` bytes. -/
theorem be_succ_cons (w n : Nat) : be (w + 1) n = (n / 256 ^ w % 256).toUInt8 :: be w n := by
  induction w generalizing n with
  | zero => simp [be]
  | succ w ih =>
    rw [be, ih (n / 256), be, Nat.div_div_eq_div_mul, ← Nat.pow_succ']
    rfl

theorem be_lt_be : ∀ {w n m : Nat}, n < m → m < 2 ^ (8 * w) → be w n < be w m
  | 0, _, _, h, hm => by simp at hm; omega
  | w + 1, n, m, h, hm => by
    have hpow : 2 ^ (8 * (w + 1)) = 2 ^ (8 * w) * 256 := by
      rw [Nat.mul_succ, Nat.pow_add]
    have hdiv : m / 256 < 2 ^ (8 * w) := Nat.div_lt_of_lt_mul (by rw [hpow] at hm; omega)
    simp only [be]
    -- the higher bytes differ, or they agree and the last byte decides
    by_cases hq : n / 256 < m / 256
    · exact append_lt_append_of_lt (be_lt_be hq hdiv) (by simp)
    · have hq' : n / 256 = m / 256 := by omega
      rw [hq']
      apply List.append_left_lt
      refine List.cons_lt_cons_iff.mpr (Or.inl ?_)
      rw [UInt8.lt_iff_toNat_lt]
      simp only [Nat.toUInt8_eq, UInt8.toNat_ofNat', Nat.reducePow]
      omega

/-- Numbers below `2 ^ (8 * w)` are written apart. -/
theorem be_inj {w n m : Nat} (hn : n < 2 ^ (8 * w)) (hm : m < 2 ^ (8 * w)) (h : be w n = be w m) :
    n = m := by
  rcases Nat.lt_trichotomy n m with hlt | heq | hgt
  · have hlt' := be_lt_be hlt hm
    rw [h] at hlt'
    exact absurd hlt' (List.lt_irrefl _)
  · exact heq
  · have hgt' := be_lt_be hgt hn
    rw [h] at hgt'
    exact absurd hgt' (List.lt_irrefl _)

/-- Two's complement writes two integers alike only if they agree modulo `2 ^ (8 * w)`. -/
theorem beInt_inj {w : Nat} {x y : Int} (h : beInt w x = beInt w y) :
    x % 2 ^ (8 * w) = y % 2 ^ (8 * w) := by
  have hP : (0 : Int) < 2 ^ (8 * w) := Int.pow_pos (by decide)
  have hP0 : (2 : Int) ^ (8 * w) ≠ 0 := by omega
  have hbound : ∀ z : Int, (z % 2 ^ (8 * w)).toNat < 2 ^ (8 * w) := fun z => by
    rw [Int.toNat_lt (Int.emod_nonneg z hP0)]
    exact_mod_cast Int.emod_lt_of_pos z hP
  have hnat := be_inj (hbound x) (hbound y) h
  rw [← Int.toNat_of_nonneg (Int.emod_nonneg x hP0), ← Int.toNat_of_nonneg (Int.emod_nonneg y hP0),
    hnat]

/-- `n` and `m` that agree on their `w` low bytes are written alike. -/
theorem be_congr : ∀ {w n m : Nat}, n % 256 ^ w = m % 256 ^ w → be w n = be w m
  | 0, _, _, _ => rfl
  | w + 1, n, m, h => by
    have hlow : n % 256 = m % 256 := by
      rw [← Nat.mod_mod_of_dvd n ⟨256 ^ w, Nat.pow_succ'⟩,
        ← Nat.mod_mod_of_dvd m ⟨256 ^ w, Nat.pow_succ'⟩, h]
    have hhigh : n / 256 % 256 ^ w = m / 256 % 256 ^ w := by
      rw [← Nat.mod_mul_right_div_self, ← Nat.mod_mul_right_div_self, ← Nat.pow_succ', h]
    rw [be, be, be_congr hhigh, hlow]

/-! ## Reading back

`binary.BigEndian.UintN(b)` reads the first bytes of `b` as a number and panics when there are
fewer; a slice `b[i:]` or `b[i:j]` panics past the end; `copy` into a zeroed array takes what there
is. Each is an `Option` here, `none` where Go panics. -/

/-- The number a big-endian byte string writes. -/
def ofBE (b : List UInt8) : Nat := b.foldl (fun n x => n * 256 + x.toNat) 0

theorem foldl_ofBE (acc : Nat) (b : List UInt8) :
    b.foldl (fun n x => n * 256 + x.toNat) acc = acc * 256 ^ b.length + ofBE b := by
  induction b generalizing acc with
  | nil => simp [ofBE]
  | cons x b ih =>
    have hx : ofBE (x :: b) = x.toNat * 256 ^ b.length + ofBE b := by
      rw [ofBE, List.foldl_cons, Nat.zero_mul, Nat.zero_add, ih]
    rw [List.foldl_cons, ih, hx, List.length_cons, Nat.pow_succ]
    ring

theorem ofBE_append (a b : List UInt8) : ofBE (a ++ b) = ofBE a * 256 ^ b.length + ofBE b := by
  rw [ofBE, List.foldl_append, foldl_ofBE]
  rfl

theorem ofBE_cons (x : UInt8) (b : List UInt8) :
    ofBE (x :: b) = x.toNat * 256 ^ b.length + ofBE b := by
  rw [← List.singleton_append, ofBE_append]
  simp [ofBE]

/-- A number written in `k` bytes is below `256 ^ k`. -/
theorem ofBE_lt : ∀ b : List UInt8, ofBE b < 256 ^ b.length
  | [] => by simp [ofBE]
  | x :: b => by
    have hx : x.toNat < 256 := x.toNat_lt
    have ih := ofBE_lt b
    rw [ofBE_cons, List.length_cons, Nat.pow_succ]
    calc x.toNat * 256 ^ b.length + ofBE b
        < x.toNat * 256 ^ b.length + 256 ^ b.length := by omega
      _ = (x.toNat + 1) * 256 ^ b.length := (Nat.succ_mul _ _).symm
      _ ≤ 256 * 256 ^ b.length := Nat.mul_le_mul_right _ hx
      _ = 256 ^ b.length * 256 := Nat.mul_comm _ _

/-- **Reading a number back** gives it modulo the width. -/
theorem ofBE_be (w n : Nat) : ofBE (be w n) = n % 2 ^ (8 * w) := by
  induction w generalizing n with
  | zero => simp [be, ofBE, Nat.mod_one]
  | succ w ih =>
    have hpow : 2 ^ (8 * (w + 1)) = 256 * 2 ^ (8 * w) := by
      rw [Nat.mul_succ, Nat.pow_add, Nat.mul_comm]
    rw [be, ofBE_append, ih, hpow, Nat.mod_mul]
    simp [ofBE, Nat.toUInt8_eq, UInt8.toNat_ofNat']
    omega

/-- Go's `b[i:]`. -/
def sliceFrom? {α : Type} (b : List α) (i : Nat) : Option (List α) :=
  if i ≤ b.length then some (b.drop i) else none

/-- Go's `b[i:j]`. -/
def slice? {α : Type} (b : List α) (i j : Nat) : Option (List α) :=
  if i ≤ j ∧ j ≤ b.length then some ((b.drop i).take (j - i)) else none

/-- `binary.BigEndian.Uint16`, `Uint32`, `Uint64`: the first `w` bytes as a number. -/
def uintBE? (w : Nat) (b : List UInt8) : Option Nat :=
  if w ≤ b.length then some (ofBE (b.take w)) else none

/-- `copy(a[:], b)` into a zeroed array of `w` bytes. -/
def copyN (w : Nat) (b : List UInt8) : List UInt8 := b.take w ++ List.replicate (w - b.length) 0

theorem uintBE?_append {w n : Nat} (post : List UInt8) :
    uintBE? w (be w n ++ post) = some (n % 2 ^ (8 * w)) := by
  simp [uintBE?, ofBE_be]

theorem copyN_append {w : Nat} {a : List UInt8} (post : List UInt8) (ha : a.length = w) :
    copyN w (a ++ post) = a := by
  subst ha
  simp [copyN]

/-- What follows `pre` where `b` holds `pre ++ post`. -/
theorem drop_add_of_drop {α : Type} {b pre post : List α} {i : Nat} (h : b.drop i = pre ++ post) :
    b.drop (i + pre.length) = post := by
  rw [← List.drop_drop, h, List.drop_left]

/-- Where `b` holds `mid ++ post`, it is `i + mid.length` long at least. -/
theorem le_length_of_drop {α : Type} {b mid post : List α} {i : Nat} (hi : i ≤ b.length)
    (h : b.drop i = mid ++ post) : i + mid.length + post.length = b.length := by
  have hlen := congrArg List.length h
  rw [List.length_drop, List.length_append] at hlen
  omega

theorem slice?_of_drop {α : Type} {b mid post : List α} {i : Nat} (hi : i ≤ b.length)
    (h : b.drop i = mid ++ post) : slice? b i (i + mid.length) = some mid := by
  have hlen := le_length_of_drop hi h
  simp [slice?, h, show i + mid.length ≤ b.length by omega]

theorem sliceFrom?_of_drop {α : Type} {b post : List α} {i : Nat} (hi : i ≤ b.length)
    (h : b.drop i = post) : sliceFrom? b i = some post := by
  simp [sliceFrom?, hi, h]

/-! ## What a buffer holds at an offset -/

/-- `b` holds `x` at offset `i`: the bytes from `i` on start with `x`. -/
def HoldsAt {α : Type} (b : List α) (i : Nat) (x : List α) : Prop :=
  i ≤ b.length ∧ x <+: b.drop i

section HoldsAt

variable {α : Type} {b x y : List α} {i : Nat}

theorem holdsAt_append (pre x post : List α) : HoldsAt (pre ++ x ++ post) pre.length x := by
  refine ⟨by simp, ?_⟩
  rw [List.append_assoc, List.drop_left]
  exact List.prefix_append x post

theorem HoldsAt.le_length (h : HoldsAt b i x) : i + x.length ≤ b.length := by
  have := h.2.length_le
  rw [List.length_drop] at this
  have := h.1
  omega

theorem HoldsAt.take_drop (h : HoldsAt b i x) : (b.drop i).take x.length = x :=
  (List.prefix_iff_eq_take.mp h.2).symm

/-- A record held at an offset is its fields held one after the other. -/
theorem holdsAt_append_iff : HoldsAt b i (x ++ y) ↔ HoldsAt b i x ∧ HoldsAt b (i + x.length) y := by
  constructor
  · rintro ⟨hi, t, ht⟩
    have hlen := congrArg List.length ht
    simp only [List.length_append, List.length_drop] at hlen
    refine ⟨⟨hi, y ++ t, by rw [← ht, List.append_assoc]⟩, by omega, t, ?_⟩
    rw [← List.drop_drop, ← ht, List.append_assoc, List.drop_left]
  · rintro ⟨⟨hi, t, ht⟩, -, u, hu⟩
    refine ⟨hi, u, ?_⟩
    rw [← List.drop_drop, ← ht, List.drop_left] at hu
    rw [← ht, ← hu, List.append_assoc]

/-- Appending to a buffer keeps what it holds. -/
theorem HoldsAt.append_right (h : HoldsAt b i x) (c : List α) : HoldsAt (b ++ c) i x := by
  obtain ⟨hi, t, ht⟩ := h
  refine ⟨by simp; omega, t ++ c, ?_⟩
  rw [List.drop_append_of_le_length hi, ← ht, List.append_assoc]

end HoldsAt

/-- Flipping the top bit of the first byte, as `encv[1] ^= 0x80` does. -/
def flipSign : List UInt8 → List UInt8
  | [] => []
  | b :: bs => (b ^^^ 0x80) :: bs

theorem toNat_xor_0x80 (b : UInt8) : (b ^^^ 0x80).toNat = (b.toNat + 128) % 256 := by
  have key : ∀ n < 256, n ^^^ 128 = (n + 128) % 256 := by
    set_option maxRecDepth 2000 in decide
  rw [UInt8.toNat_xor]
  exact key _ b.toNat_lt

/-- An `int64` written in two's complement with its sign bit flipped is `x + 2 ^ 63` written
unsigned (offset binary), so the bytes sort as the numbers do. -/
theorem flipSign_beInt {x : Int} (h₁ : -2 ^ 63 ≤ x) (h₂ : x < 2 ^ 63) :
    flipSign (beInt 8 x) = be 8 (x + 2 ^ 63).toNat := by
  rw [beInt, be_succ_cons 7, be_succ_cons 7, flipSign, List.cons.injEq]
  constructor
  · -- the byte with the sign: adding `2 ^ 63` adds `128` to it
    apply UInt8.toNat_inj.mp
    rw [toNat_xor_0x80]
    simp only [Nat.toUInt8_eq, UInt8.toNat_ofNat', Nat.reducePow, Nat.reduceMul]
    omega
  · -- the lower bytes are the same modulo `2 ^ 56`
    exact be_congr (by simp only [Nat.reducePow, Nat.reduceMul]; omega)

/-- Inverting every byte, as `encv[i] = ^encv[i]` does, writes `2 ^ (8 * w) - 1 - n`: the order
of the numbers is reversed. -/
theorem map_not_be : ∀ {w n : Nat}, n < 2 ^ (8 * w) →
    (be w n).map (~~~ ·) = be w (2 ^ (8 * w) - 1 - n)
  | 0, _, _ => rfl
  | w + 1, n, h => by
    have hpow : 2 ^ (8 * (w + 1)) = 2 ^ (8 * w) * 256 := by rw [Nat.mul_succ, Nat.pow_add]
    rw [hpow] at h ⊢
    have hq : n / 256 < 2 ^ (8 * w) := by omega
    simp only [be, List.map_append, List.map_cons, List.map_nil, map_not_be hq]
    congr 2
    · -- the higher bytes: the quotient by `256` is inverted the same way
      omega
    · -- the last byte
      apply UInt8.toNat_inj.mp
      rw [UInt8.toNat_not]
      simp only [Nat.toUInt8_eq, UInt8.toNat_ofNat', UInt8.size, Nat.reducePow]
      omega

/-- The top bit of the first of eight bytes is the top bit of the number. -/
theorem headD_be_and_0x80 {n : Nat} (h : n < 2 ^ 64) :
    (be 8 n).headD 0 &&& 0x80 ≠ 0 ↔ 2 ^ 63 ≤ n := by
  have key : ∀ x < 256, (x &&& 128 ≠ 0 ↔ 128 ≤ x) := by
    set_option maxRecDepth 2000 in decide
  have hb : (n / 256 ^ 7 % 256).toUInt8.toNat = n / 256 ^ 7 % 256 := by simp
  rw [be_succ_cons 7, List.headD_cons, ne_eq, ← UInt8.toNat_inj, UInt8.toNat_and, hb,
    show (0x80 : UInt8).toNat = 128 from rfl, show (0 : UInt8).toNat = 0 from rfl, ← ne_eq,
    key _ (Nat.mod_lt _ (by norm_num))]
  omega

/-! ## Padded strings -/

/-- `n` zero bytes followed by a length sort below a string that fills them, provided the
length grows. -/
theorem zeros_lt_pad {a b : Nat} (hab : a < b) (hb : b < 2 ^ 32) : ∀ (u : List UInt8) (k : Nat),
    u.length ≤ k → List.replicate k 0 ++ be 4 a < u ++ List.replicate (k - u.length) 0 ++ be 4 b
  | [], k, _ => by
    have h : List.replicate k 0 ++ be 4 a < List.replicate k 0 ++ be 4 b :=
      List.append_left_lt (be_lt_be hab hb)
    simpa using h
  | c :: u, k + 1, hk => by
    rw [List.replicate_succ, List.cons_append, List.cons_append, List.cons_append]
    by_cases hc : c = 0
    · subst hc
      refine List.cons_lt_cons_iff.mpr (Or.inr ⟨rfl, ?_⟩)
      have := zeros_lt_pad hab hb u k (by simpa using hk)
      simpa using this
    · refine List.cons_lt_cons_iff.mpr (Or.inl ?_)
      rw [UInt8.lt_iff_toNat_lt]
      have : c.toNat ≠ 0 := fun h => hc (UInt8.toNat_inj.mp (by simpa using h))
      simp only [UInt8.toNat_zero]
      omega
  | _ :: _, 0, hk => by simp at hk

/-- A string padded with zeros to a common width and followed by its length: the order of
strings is kept. -/
theorem pad_lt_pad : ∀ {s t : List UInt8} {m n a b : Nat}, s < t →
    s.length + m = t.length + n → (s.length < t.length → a < b) → b < 2 ^ 32 →
    s ++ List.replicate m 0 ++ be 4 a < t ++ List.replicate n 0 ++ be 4 b
  | [], t, m, n, a, b, h, hlen, hab, hb => by
    -- a proper prefix: the zeros meet the rest of `t`
    have ht : 0 < t.length := by
      cases t with
      | nil => exact absurd h (List.not_lt_nil _)
      | cons _ _ => simp
    have hn : n = m - t.length := by simp at hlen; omega
    subst hn
    simpa using zeros_lt_pad (hab ht) hb t m (by simp at hlen; omega)
  | x :: s, [], _, _, _, _, h, _, _, _ => absurd h (List.not_lt_nil _)
  | x :: s, y :: t, m, n, a, b, h, hlen, hab, hb => by
    simp only [List.cons_append]
    rcases List.cons_lt_cons_iff.mp h with hxy | ⟨rfl, hst⟩
    · exact List.cons_lt_cons_iff.mpr (Or.inl hxy)
    · refine List.cons_lt_cons_iff.mpr (Or.inr ⟨rfl, ?_⟩)
      exact pad_lt_pad hst (by simp at hlen; omega)
        (fun hl => hab (by simp; omega)) hb

end Bytes
