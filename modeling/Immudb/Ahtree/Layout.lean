import Immudb.Lib.Bits
import Immudb.Lib.MerkleTree
import Immudb.Lib.Hashing

/-!
# `Immudb/Ahtree/Layout.lean` — what the digest log of an AHtree holds, and where

`embedded/ahtree/ahtree.go`. An AHtree never stores its tree: every `Append` writes, to the end
of the digest log, the roots of the subtrees that end at the new leaf — first the leaf hash, then
one more root for each set bit of `n - 1`, the last being the root of the whole tree. Every later
read (`node`, `rootAt`, the proof generators) finds a digest by *arithmetic* on the position:
`nodesUntil n` digests precede those of append `n`, `levelsAt n` of them follow its leaf.

This file is the model of those counters, exactly as the Go loops compute them, and the
specification of the log they index:

* `appendDigests S L n` — the digests append `n` writes, as Merkle hashes of runs of leaves;
* `layout S L` — the whole log after appending the leaves `L`.

The theorems that carry the rest of the development are `length_layout` (the counter
`nodesUpto` is the length of the log), `layout_take` (the log of a prefix is a prefix of the log:
truncating the tree truncates the log) and `getElem?_layout` (the digest at `nodesUntil k + j`
is the right subtree root). The closed form `nodesUpto_eq_sum` behind them is the statement that
append `k` writes `1 + ones (k - 1)` digests.
-/

set_option autoImplicit false

namespace Immudb.Ahtree

open Bits Merkle Hashing

/-! ## 1. The hash of the tree -/

/-- `LeafPrefix`: the byte a leaf's payload is prefixed with before hashing. -/
def LeafPrefix : UInt8 := 0

/-- `NodePrefix`: the byte two child digests are prefixed with before hashing. -/
def NodePrefix : UInt8 := 1

variable {D : Type}

/-- The Merkle scheme the AHtree computes with `sha256.Sum256`: a leaf is
`sum (LeafPrefix ‖ d)`, a node is `sum (NodePrefix ‖ l ‖ r)`. -/
def treeScheme (hs : Hasher D) : Scheme (List UInt8) D where
  leaf d := hs.sum (LeafPrefix :: d)
  node l r := hs.sum (NodePrefix :: (hs.bytes l ++ hs.bytes r))
  empty := hs.sum []

/-! ## 2. The counters, as the Go loops compute them -/

/-- The loop of `nodesUpto`: bit `l` onward, `o` digests counted so far. -/
def nodesUptoLoop (n o l : Nat) : Nat :=
  if n < 1 <<< l then o
  else
    let o := o + (n >>> (l + 1) <<< l)
    let o := if (n / (1 <<< l)) % 2 = 1 then o + n % (1 <<< l) else o
    nodesUptoLoop n o (l + 1)
termination_by n + 1 - l
decreasing_by
  simp only [Nat.one_shiftLeft] at *
  have := Nat.lt_two_pow_self (n := l)
  omega

/-- `nodesUpto n`: the number of digests the first `n` appends write. -/
def nodesUpto (n : Nat) : Nat := nodesUptoLoop n n 0

/-- `nodesUntil n`: the number of digests written before append `n`. -/
def nodesUntil (n : Nat) : Nat := if n = 1 then 0 else nodesUpto (n - 1)

/-- The loop of `levelsAt`: one level for each set bit of `w`. -/
def levelsAtLoop (w l : Nat) : Nat :=
  if w > 0 then levelsAtLoop (w >>> 1) (if w % 2 = 1 then l + 1 else l) else l
termination_by w
decreasing_by rw [Nat.shiftRight_eq_div_pow]; omega

/-- `levelsAt n`: how many digests append `n` writes after its leaf. -/
def levelsAt (n : Nat) : Nat := levelsAtLoop (n - 1) 0

theorem levelsAtLoop_eq (w l : Nat) : levelsAtLoop w l = l + ones w := by
  induction w using Nat.strongRecOn generalizing l with
  | ind w ih =>
    rw [levelsAtLoop]
    split
    · rw [Nat.shiftRight_eq_div_pow, Nat.pow_one, ih (w / 2) (by omega), ones_eq w]
      split <;> omega
    · have hw : w = 0 := by omega
      subst hw; simp

theorem levelsAt_eq (n : Nat) : levelsAt n = ones (n - 1) := by
  rw [levelsAt, levelsAtLoop_eq, Nat.zero_add]

/-- How many of `0, …, n - 1` have bit `l` set: the summand of `nodesUpto`'s loop. -/
def bitCount (n l : Nat) : Nat :=
  n / 2 ^ (l + 1) * 2 ^ l + if n / 2 ^ l % 2 = 1 then n % 2 ^ l else 0

theorem bitCount_of_lt {n l : Nat} (h : n < 2 ^ l) : bitCount n l = 0 := by
  have h1 : n / 2 ^ (l + 1) = 0 := Nat.div_eq_of_lt (by rw [Nat.pow_succ]; omega)
  have h2 : n / 2 ^ l = 0 := Nat.div_eq_of_lt h
  simp [bitCount, h1, h2]

/-- **Counting one more number adds its bit `l`.** The arithmetic heart of `nodesUpto`. -/
theorem bitCount_succ (n l : Nat) : bitCount (n + 1) l = bitCount n l + n / 2 ^ l % 2 := by
  have hP : 0 < 2 ^ l := Nat.two_pow_pos l
  set P := 2 ^ l with hPdef
  have hdiv (x : Nat) : x / 2 ^ (l + 1) = x / P / 2 := by
    rw [Nat.pow_succ, Nat.div_div_eq_div_mul]
  have hn := Nat.div_add_mod n P
  have hs := Nat.mod_lt n hP
  unfold bitCount
  rw [hdiv, hdiv, ← hPdef]
  have hrw : n + 1 = (n % P + 1) + P * (n / P) := by omega
  rcases Nat.lt_or_ge (n % P + 1) P with hlt | hge
  · -- the low bits do not overflow: same quotient, one more in the remainder
    have hq : (n + 1) / P = n / P := by
      rw [hrw, Nat.add_mul_div_left _ _ hP, Nat.div_eq_of_lt hlt, Nat.zero_add]
    have hr : (n + 1) % P = n % P + 1 := by
      rw [hrw, Nat.add_mul_mod_self_left, Nat.mod_eq_of_lt hlt]
    rw [hq, hr]
    split <;> omega
  · -- the low bits overflow into bit `l`
    have heq : n % P + 1 = P := by omega
    have hq : (n + 1) / P = n / P + 1 := by
      rw [hrw, heq, Nat.add_mul_div_left _ _ hP, Nat.div_self hP, Nat.add_comm]
    have hr : (n + 1) % P = 0 := by
      rw [hrw, heq, Nat.add_mul_mod_self_left, Nat.mod_self]
    rw [hq, hr]
    rcases Nat.mod_two_eq_zero_or_one (n / P) with h0 | h1
    · have hh : (n / P + 1) / 2 = n / P / 2 := by omega
      rw [hh, h0]
      simp
    · have hh : (n / P + 1) / 2 = n / P / 2 + 1 := by omega
      rw [hh, h1, Nat.succ_mul]
      simp
      omega

theorem bitCount_zero (l : Nat) : bitCount 0 l = 0 := bitCount_of_lt (Nat.two_pow_pos l)

/-- The loop adds up `bitCount n j` for every bit `j` of `n` from `l` on. -/
theorem nodesUptoLoop_eq (n o l : Nat) :
    nodesUptoLoop n o l = o + ∑ j ∈ Finset.Ico l n.size, bitCount n j := by
  fun_induction nodesUptoLoop n o l with
  | case1 o l hlt =>
    rw [Nat.one_shiftLeft] at hlt
    have hsz : n.size ≤ l := Nat.size_le.mpr hlt
    rw [Finset.Ico_eq_empty_of_le hsz, Finset.sum_empty, Nat.add_zero]
  | case2 o l hge o₁ o₂ ih =>
    rw [Nat.one_shiftLeft] at hge
    have hl : l < n.size := by
      by_contra hc
      exact hge (Nat.size_le.mp (Nat.le_of_not_lt hc))
    rw [ih, Finset.sum_eq_sum_Ico_succ_bot hl]
    have ho : o₂ = o + bitCount n l := by
      simp only [o₂, o₁, Nat.one_shiftLeft, dite_eq_ite]
      simp only [bitCount, Nat.shiftRight_eq_div_pow, Nat.shiftLeft_eq]
      split <;> omega
    rw [ho, Nat.add_assoc]

/-- Over enough bits, the bit counts of `n` add up to the set bits of all numbers below `n`. -/
theorem sum_bitCount {n K : Nat} (h : n < 2 ^ K) :
    ∑ j ∈ Finset.range K, bitCount n j = ∑ i ∈ Finset.range n, ones i := by
  induction n with
  | zero => simp [bitCount_zero]
  | succ n ih =>
    have hn : n < 2 ^ K := by omega
    simp only [bitCount_succ, Finset.sum_add_distrib, Finset.sum_range_succ]
    rw [ih hn, ← ones_mod_two_pow_eq_sum, Nat.mod_eq_of_lt hn]

/-- **Append `k` writes `1 + ones (k - 1)` digests**: the closed form of `nodesUpto`. -/
theorem nodesUpto_eq_sum (n : Nat) : nodesUpto n = ∑ i ∈ Finset.range n, (1 + ones i) := by
  rw [nodesUpto, nodesUptoLoop_eq, ← Finset.range_eq_Ico, sum_bitCount (Nat.lt_size_self n),
    Finset.sum_add_distrib, Finset.sum_const, Finset.card_range, nsmul_eq_mul, Nat.mul_one]
  rfl

@[simp] theorem nodesUpto_zero : nodesUpto 0 = 0 := by
  rw [nodesUpto_eq_sum]; simp

theorem nodesUpto_succ (n : Nat) : nodesUpto (n + 1) = nodesUpto n + (1 + ones n) := by
  rw [nodesUpto_eq_sum, nodesUpto_eq_sum, Finset.sum_range_succ]

theorem nodesUpto_mono {m n : Nat} (h : m ≤ n) : nodesUpto m ≤ nodesUpto n := by
  induction h with
  | refl => exact Nat.le_refl _
  | step _ ih => rw [nodesUpto_succ]; omega

theorem nodesUntil_eq {n : Nat} (h : 1 ≤ n) : nodesUntil n = nodesUpto (n - 1) := by
  unfold nodesUntil
  split
  · subst_vars; simp
  · rfl

/-! ## 3. The digest log -/

variable {β α : Type} (S : Scheme β α)

/-- The digests append `n` writes: for each endpoint `a` in `n - 1, …, 0` (clearing the set bits of
`n - 1` one at a time), the root of the subtree of leaves `a, …, n - 1`. -/
def appendDigests (L : List β) (n : Nat) : List α :=
  ((n - 1) :: clearChain (n - 1)).map (fun a => mthRange S L a n)

/-- The digest log after the appends of the leaves `L`, in order. -/
def layout (L : List β) : List α :=
  (List.range L.length).flatMap (fun i => appendDigests S L (i + 1))

theorem length_appendDigests (L : List β) (n : Nat) :
    (appendDigests S L n).length = 1 + ones (n - 1) := by
  simp [appendDigests, length_clearChain, Nat.add_comm]

theorem appendDigests_append {L : List β} (M : List β) {n : Nat} (h : n ≤ L.length) :
    appendDigests S (L ++ M) n = appendDigests S L n := by
  unfold appendDigests
  congr 1
  funext a
  exact mthRange_append S M h

@[simp] theorem layout_nil : layout S ([] : List β) = [] := rfl

theorem layout_append_singleton (L : List β) (x : β) :
    layout S (L ++ [x]) = layout S L ++ appendDigests S (L ++ [x]) (L.length + 1) := by
  unfold layout
  rw [List.length_append, List.length_singleton, List.range_succ, List.flatMap_append]
  congr 1
  · apply List.flatMap_congr
    intro i hi
    exact appendDigests_append S [x] (by simp at hi; omega)
  · simp

theorem length_layout (L : List β) : (layout S L).length = nodesUpto L.length := by
  induction L using List.reverseRecOn with
  | nil => simp
  | append_singleton L x ih =>
    rw [layout_append_singleton, List.length_append, ih, length_appendDigests,
      List.length_append, List.length_singleton, nodesUpto_succ, Nat.add_sub_cancel]

/-- **The log of a prefix of the leaves is a prefix of the log.** -/
theorem layout_take (L : List β) (m : Nat) :
    (layout S L).take (nodesUpto m) = layout S (L.take m) := by
  induction L using List.reverseRecOn with
  | nil => simp
  | append_singleton L x ih =>
    by_cases hm : m ≤ L.length
    · have hle : nodesUpto m ≤ (layout S L).length := by
        rw [length_layout]; exact nodesUpto_mono hm
      rw [layout_append_singleton, List.take_append_of_le_length hle, ih,
        List.take_append_of_le_length hm]
    · have hlen : (L ++ [x]).length ≤ m := by simp; omega
      rw [List.take_of_length_le hlen, List.take_of_length_le]
      rw [length_layout]
      exact nodesUpto_mono hlen

/-- The index of the digest `ones (m % 2 ^ t)` never passes the last digest. -/
theorem ones_mod_two_pow_lt (m t : Nat) : ones (m % 2 ^ t) < ones m + 1 := by
  obtain ⟨hlt, _⟩ := List.getElem?_eq_some_iff.mp (getElem?_clearChain m t)
  simpa [length_clearChain] using hlt

/-- **The digest at `nodesUntil k + ones ((k - 1) % 2 ^ t)`** is the root of the subtree of the
leaves from `(k - 1)` with its low `t` bits cleared up to leaf `k`. -/
theorem getElem?_layout {L : List β} {k : Nat} (t : Nat) (hk1 : 1 ≤ k) (hk : k ≤ L.length) :
    (layout S L)[nodesUntil k + ones ((k - 1) % 2 ^ t)]? =
      some (mthRange S L ((k - 1) / 2 ^ t * 2 ^ t) k) := by
  have hlt : nodesUntil k + ones ((k - 1) % 2 ^ t) < nodesUpto k := by
    have := ones_mod_two_pow_lt (k - 1) t
    have hsucc := nodesUpto_succ (k - 1)
    rw [Nat.sub_add_cancel hk1] at hsucc
    rw [nodesUntil_eq hk1]
    omega
  have hsplit : L.take k = L.take (k - 1) ++ [L[k - 1]] := by
    conv_lhs => rw [← Nat.sub_add_cancel hk1]
    exact List.take_succ_eq_append_getElem (by omega)
  have hpre : nodesUntil k = (layout S (L.take (k - 1))).length := by
    rw [length_layout, List.length_take, Nat.min_eq_left (by omega), nodesUntil_eq hk1]
  rw [← List.getElem?_take_of_lt hlt, layout_take, hsplit, layout_append_singleton,
    List.getElem?_append_right (by omega), hpre, Nat.add_sub_cancel_left]
  have hlen : (L.take (k - 1)).length + 1 = k := by
    rw [List.length_take, Nat.min_eq_left (by omega)]; omega
  rw [hlen, appendDigests, List.getElem?_map, getElem?_clearChain]
  simp only [Option.map_some]
  rw [← hsplit, mthRange_take S (Nat.le_refl k)]

/-- Digest `l` of append `w * 2 ^ l` is the root of the `2 ^ l` leaves that end there: what
`node(k, l)` reads while `Append` climbs a set bit `l` of `n - 1`. -/
theorem getElem?_layout_level {L : List β} {w l : Nat} (hw : 1 ≤ w) (hk : w * 2 ^ l ≤ L.length) :
    (layout S L)[nodesUntil (w * 2 ^ l) + l]? =
      some (mthRange S L ((w - 1) * 2 ^ l) (w * 2 ^ l)) := by
  have hP := Nat.two_pow_pos l
  have hwP : (w - 1) * 2 ^ l + 2 ^ l = w * 2 ^ l := by
    rw [← Nat.succ_mul, Nat.succ_eq_add_one, Nat.sub_add_cancel hw]
  -- `w * 2 ^ l - 1` is `w - 1` blocks of `2 ^ l` and then `l` set bits
  have hdecomp : w * 2 ^ l - 1 = (2 ^ l - 1) + 2 ^ l * (w - 1) := by
    rw [Nat.mul_comm (2 ^ l)]; omega
  have hmod : (w * 2 ^ l - 1) % 2 ^ l = 2 ^ l - 1 := by
    rw [hdecomp, Nat.add_mul_mod_self_left, Nat.mod_eq_of_lt (by omega)]
  have hdiv : (w * 2 ^ l - 1) / 2 ^ l = w - 1 := by
    rw [hdecomp, Nat.add_mul_div_left _ _ hP, Nat.div_eq_of_lt (by omega), Nat.zero_add]
  have h := getElem?_layout S l (by omega) hk
  rwa [hmod, ones_two_pow_sub_one, hdiv] at h

/-- The last digest of append `k` is the root of the tree of the first `k` leaves. -/
theorem getElem?_layout_root {L : List β} {k : Nat} (hk1 : 1 ≤ k) (hk : k ≤ L.length) :
    (layout S L)[nodesUntil k + ones (k - 1)]? = some (mth S (L.take k)) := by
  have h := getElem?_layout S k hk1 hk
  have hlt : k - 1 < 2 ^ k := by
    have := Nat.lt_two_pow_self (n := k)
    omega
  rwa [ones_mod_of_lt hlt, Nat.div_eq_of_lt hlt, Nat.zero_mul, mthRange_zero] at h

end Immudb.Ahtree
