import Mathlib

/-!
# `Immudb/Lib/MerkleTree.lean` — the RFC 6962 Merkle tree hash

RFC 6962 §2.1 defines the hash of a list of `n` leaves by splitting it at the largest power of two
strictly below `n`:

    MTH([])  = empty
    MTH([d]) = leaf d
    MTH(D)   = node (MTH(D[0:k])) (MTH(D[k:n]))      k = split n

`Scheme` is the three hash functions, over an arbitrary leaf type `β` and digest type `α`; nothing
here asks anything of them, so every theorem of this file is a fact about the *shape* of the
tree and holds for any hash at all.

A tree built incrementally never hashes a whole list: it hashes contiguous runs of leaves, the
subtrees. `mthRange L a b` is the hash of the run `L[a:b]`, and the lemmas below are the three
ways such runs compose — a run of one leaf (`mthRange_succ`), a run cut at its own split point
(`mthRange_node`), and a run that does not look past its end (`mthRange_append`, `mthRange_take`).
-/

set_option autoImplicit false

namespace Merkle

/-- How a Merkle tree hashes: a leaf, two subtree digests, and the empty tree. -/
structure Scheme (β α : Type) where
  leaf : β → α
  node : α → α → α
  empty : α

/-! ## 1. The split point -/

/-- RFC 6962's `k`: the largest power of two strictly below `n` (for `n ≥ 2`). -/
def split (n : Nat) : Nat := 2 ^ Nat.log2 (n - 1)

theorem split_lt {n : Nat} (h : 2 ≤ n) : split n < n := by
  have := Nat.log2_self_le (n := n - 1) (by omega)
  unfold split; omega

theorem split_pos (n : Nat) : 0 < split n := Nat.two_pow_pos _

/-- The split point is at least half the size: the right part is never bigger than the left. -/
theorem le_two_mul_split {n : Nat} (h : 2 ≤ n) : n ≤ 2 * split n := by
  have := Nat.lt_log2_self (n := n - 1)
  unfold split; rw [Nat.pow_succ] at this; omega

/-- **Any power of two `2 ^ b` with `2 ^ b < n ≤ 2 ^ (b + 1)` is the split point.** -/
theorem split_eq {n b : Nat} (h1 : 2 ^ b < n) (h2 : n ≤ 2 ^ (b + 1)) : split n = 2 ^ b := by
  unfold split
  have hl : Nat.log2 (n - 1) = b := by
    rw [Nat.log2_eq_iff (by have := Nat.two_pow_pos b; omega)]
    omega
  rw [hl]

/-! ## 2. The tree hash -/

variable {β α : Type}

/-- RFC 6962's `MTH`. -/
def mth (S : Scheme β α) : List β → α
  | [] => S.empty
  | [x] => S.leaf x
  | x :: y :: rest =>
    S.node (mth S ((x :: y :: rest).take (split (rest.length + 2))))
      (mth S ((x :: y :: rest).drop (split (rest.length + 2))))
termination_by xs => xs.length
decreasing_by
  · simp only [List.length_take, List.length_cons]
    have := split_lt (n := rest.length + 2) (by omega)
    omega
  · simp only [List.length_drop, List.length_cons]
    have := split_pos (rest.length + 2)
    omega

variable (S : Scheme β α)

@[simp] theorem mth_nil : mth S [] = S.empty := by rw [mth]

@[simp] theorem mth_singleton (x : β) : mth S [x] = S.leaf x := by rw [mth]

/-- The recursive case of `MTH`, for any list of at least two leaves. -/
theorem mth_of_two_le {xs : List β} (h : 2 ≤ xs.length) :
    mth S xs = S.node (mth S (xs.take (split xs.length))) (mth S (xs.drop (split xs.length))) := by
  match xs, h with
  | x :: y :: rest, _ => rw [mth]; simp

/-! ## 3. Runs of leaves -/

/-- The hash of the run of leaves `L[a:b]`. -/
def mthRange (L : List β) (a b : Nat) : α := mth S ((L.drop a).take (b - a))

theorem mthRange_zero (L : List β) (n : Nat) : mthRange S L 0 n = mth S (L.take n) := by
  simp [mthRange]

/-- A run of one leaf is that leaf's hash. -/
theorem mthRange_succ {L : List β} {a : Nat} {x : β} (h : L[a]? = some x) :
    mthRange S L a (a + 1) = S.leaf x := by
  unfold mthRange
  have hlen : a < L.length := by
    by_contra hc
    rw [List.getElem?_eq_none (by omega)] at h
    cases h
  have hdrop : (L.drop a).take 1 = [x] := by
    rw [List.take_one, List.head?_drop, h]
    rfl
  rw [Nat.add_sub_cancel_left, hdrop, mth_singleton]

/-- **A run cut at its own split point** is the node of its two parts. -/
theorem mthRange_node {L : List β} {a c b : Nat} (hac : a < c) (hcb : c < b) (hb : b ≤ L.length)
    (hsplit : c - a = split (b - a)) :
    mthRange S L a b = S.node (mthRange S L a c) (mthRange S L c b) := by
  unfold mthRange
  have hlen : ((L.drop a).take (b - a)).length = b - a := by
    simp only [List.length_take, List.length_drop]; omega
  rw [mth_of_two_le S (by omega), hlen, ← hsplit, List.take_take, Nat.min_eq_left (by omega),
    List.drop_take, List.drop_drop, Nat.add_sub_cancel' (Nat.le_of_lt hac)]
  have hbc : b - a - (c - a) = b - c := by omega
  rw [hbc]

/-- A run that starts at an even node of level `t` and ends inside the odd node next to it splits
at the boundary of the two: the split point of RFC 6962 is that power of two. -/
theorem mthRange_halves {L : List β} {c t n : Nat} (hn : (n - 1) / 2 ^ t = 2 * c + 1)
    (hL : n ≤ L.length) :
    mthRange S L (2 * c * 2 ^ t) n =
      S.node (mthRange S L (2 * c * 2 ^ t) ((2 * c + 1) * 2 ^ t))
        (mthRange S L ((2 * c + 1) * 2 ^ t) n) := by
  have hP := Nat.two_pow_pos t
  obtain ⟨hlo, hhi⟩ := (Nat.div_eq_iff hP).mp hn
  have hodd : (2 * c + 1) * 2 ^ t = 2 * c * 2 ^ t + 2 ^ t := by rw [Nat.add_mul, Nat.one_mul]
  have hpow : 2 ^ (t + 1) = 2 * 2 ^ t := Nat.pow_succ'
  apply mthRange_node S (by omega) (by omega) hL
  rw [split_eq (b := t) (by omega) (by omega)]
  omega

/-- A run ending inside `L` does not see what is appended after `L`. -/
theorem mthRange_append {L : List β} (M : List β) {a b : Nat} (hb : b ≤ L.length) :
    mthRange S (L ++ M) a b = mthRange S L a b := by
  unfold mthRange
  by_cases hab : a ≤ b
  · rw [List.drop_append_of_le_length (by omega), List.take_append_of_le_length]
    simp only [List.length_drop]; omega
  · simp [Nat.sub_eq_zero_of_le (Nat.le_of_not_le hab)]

/-- A run ending before `n` does not see what `take n` cuts off. -/
theorem mthRange_take {L : List β} {n a b : Nat} (hb : b ≤ n) :
    mthRange S (L.take n) a b = mthRange S L a b := by
  by_cases hn : n ≤ L.length
  · conv_rhs => rw [← List.take_append_drop n L]
    rw [mthRange_append S _ (by rw [List.length_take]; omega)]
  · rw [List.take_of_length_le (by omega)]

/-- Both parts of a list of two leaves or more, cut at its split point, are non-empty and
shorter. -/
theorem split_parts {X : List β} (hX : 2 ≤ X.length) :
    X.take (split X.length) ≠ [] ∧ X.drop (split X.length) ≠ [] ∧
      (X.take (split X.length)).length < X.length ∧ (X.drop (split X.length)).length < X.length := by
  have hk := split_lt hX
  have hk0 := split_pos X.length
  refine ⟨List.ne_nil_of_length_pos ?_, List.ne_nil_of_length_pos ?_, ?_, ?_⟩ <;>
    simp only [List.length_take, List.length_drop] <;> omega

/-! ## 4. Audit paths

RFC 6962 §2.1.1's `PATH(m, D[n])`: the roots of the subtrees that hang off the way from leaf `m`
up to the root, the lowest first. `auditPath L a b m` is the path of leaf `a + m` in the run
`L[a:b]`. A verifier that is not given the tree rebuilds the root from the leaf and the path by
the bits of two positions, the leaf's `x` and the last leaf's `r` (`walkPath`): while they
differ, an even `x` has its sibling on the right; once they have met, the leaf is on the right
edge of what is left, and every sibling is on the left. The verifier never shifts `x` past the
levels where a last node has no sibling, as RFC 9162 does: it does not need to, because those
levels are above the point where `x` and `r` meet (`walkPath_auditPath`). -/

/-- `PATH(m, L[a:b])`, lowest sibling first. -/
def auditPath (L : List β) (a b m : Nat) : List α :=
  if b - a ≤ 1 then []
  else if m < split (b - a) then
    auditPath L a (a + split (b - a)) m ++ [mthRange S L (a + split (b - a)) b]
  else auditPath L (a + split (b - a)) b (m - split (b - a)) ++ [mthRange S L a (a + split (b - a))]
termination_by b - a
decreasing_by
  all_goals
    have := split_lt (n := b - a) (by omega)
    have := split_pos (b - a)
    omega

/-- The bit-walking verifier's fold: from the leaf's digest `c`, each digest of `ts` joins on
the right while `x` is even and has not met `r`, on the left otherwise. -/
def walkPath : List α → Nat → Nat → α → α
  | [], _, _, c => c
  | t :: ts, x, r, c =>
    walkPath ts (x / 2) (r / 2) (if x % 2 = 0 ∧ x ≠ r then S.node c t else S.node t c)

theorem walkPath_append (ts us : List α) (x r : Nat) (c : α) :
    walkPath S (ts ++ us) x r c =
      walkPath S us (x / 2 ^ ts.length) (r / 2 ^ ts.length) (walkPath S ts x r c) := by
  induction ts generalizing x r c with
  | nil => simp [walkPath]
  | cons t ts ih =>
    rw [List.cons_append, walkPath, walkPath, ih, List.length_cons, Nat.pow_succ', Nat.div_div_eq_div_mul,
      Nat.div_div_eq_div_mul]

/-- The last step of a walk. -/
theorem walkPath_snoc (ts : List α) (t : α) (x r : Nat) (c : α) :
    walkPath S (ts ++ [t]) x r c =
      if x / 2 ^ ts.length % 2 = 0 ∧ x / 2 ^ ts.length ≠ r / 2 ^ ts.length then
        S.node (walkPath S ts x r c) t
      else S.node t (walkPath S ts x r c) := by
  rw [walkPath_append]
  rfl

theorem auditPath_of_le_one (L : List β) {a b : Nat} (h : b - a ≤ 1) (m : Nat) :
    auditPath S L a b m = [] := by
  rw [auditPath, if_pos h]

theorem auditPath_left (L : List β) {a b m : Nat} (h : 1 < b - a) (hm : m < split (b - a)) :
    auditPath S L a b m =
      auditPath S L a (a + split (b - a)) m ++ [mthRange S L (a + split (b - a)) b] := by
  rw [auditPath, if_neg (by omega), if_pos hm]

theorem auditPath_right (L : List β) {a b m : Nat} (h : 1 < b - a) (hm : split (b - a) ≤ m) :
    auditPath S L a b m =
      auditPath S L (a + split (b - a)) b (m - split (b - a)) ++ [mthRange S L a (a + split (b - a))] := by
  rw [auditPath, if_neg (by omega), if_neg (by omega)]

/-- Positions in one aligned block of `2 ^ h` fall in the same node of level `h`. -/
theorem div_two_pow_of_lt {a h m : Nat} (ha : a % 2 ^ h = 0) (hm : m < 2 ^ h) :
    (a + m) / 2 ^ h = a / 2 ^ h := by
  have hP := Nat.two_pow_pos h
  obtain ⟨q, rfl⟩ := Nat.dvd_of_mod_eq_zero ha
  rw [Nat.mul_comm, Nat.mul_div_cancel _ hP, Nat.add_comm, Nat.add_mul_div_right _ _ hP,
    Nat.div_eq_of_lt hm, Nat.zero_add]

/-- A position in the same node of level `h` as `a` is below the end of `a`'s block. -/
theorem lt_of_div_eq {a x h : Nat} (hx : x / 2 ^ h = a / 2 ^ h) : x < a + 2 ^ h := by
  by_contra hc
  have hle := Nat.div_le_div_right (c := 2 ^ h) (Nat.le_of_not_lt hc)
  rw [Nat.add_div_right _ (Nat.two_pow_pos h)] at hle
  omega

/-- An aligned block of `2 ^ (e + 1)` is two nodes of level `e`: the first, at an even index, and
the one after it. -/
theorem halves_of_block {a x e : Nat} (ha : a % 2 ^ (e + 1) = 0) (hax : a ≤ x)
    (hx : x < a + 2 ^ (e + 1)) :
    a / 2 ^ e % 2 = 0 ∧
      (x < a + 2 ^ e ∧ x / 2 ^ e = a / 2 ^ e ∨ a + 2 ^ e ≤ x ∧ x / 2 ^ e = a / 2 ^ e + 1) := by
  have hP := Nat.two_pow_pos e
  have hpow : 2 ^ (e + 1) = 2 * 2 ^ e := Nat.pow_succ'
  have hae : a % 2 ^ e = 0 := Nat.mod_eq_zero_of_dvd
    (Nat.dvd_trans (Nat.pow_dvd_pow 2 (Nat.le_succ e)) (Nat.dvd_of_mod_eq_zero ha))
  refine ⟨?_, ?_⟩
  · obtain ⟨q, hq⟩ := Nat.dvd_of_mod_eq_zero ha
    rw [hq, hpow, Nat.mul_comm 2, Nat.mul_assoc, Nat.mul_div_cancel_left _ hP]
    omega
  · by_cases hlt : x < a + 2 ^ e
    · refine .inl ⟨hlt, ?_⟩
      rw [← Nat.add_sub_cancel' hax]
      exact div_two_pow_of_lt hae (by omega)
    · refine .inr ⟨by omega, ?_⟩
      rw [show x = a + 2 ^ e + (x - a - 2 ^ e) by omega,
        div_two_pow_of_lt (by rw [Nat.add_mod_right]; exact hae) (by omega), Nat.add_div_right _ hP]

/-- The offset of a position in an aligned block. -/
theorem mod_two_pow_of_lt {a h m : Nat} (ha : a % 2 ^ h = 0) (hm : m < 2 ^ h) :
    (a + m) % 2 ^ h = m := by
  rw [Nat.add_mod, ha, Nat.zero_add, Nat.mod_mod, Nat.mod_eq_of_lt hm]

/-- Positions that share a node at level `k` share one at every level above. -/
theorem div_two_pow_eq_of_le {x r k e : Nat} (hke : k ≤ e) (h : x / 2 ^ k = r / 2 ^ k) :
    x / 2 ^ e = r / 2 ^ e := by
  obtain ⟨j, rfl⟩ := Nat.exists_eq_add_of_le hke
  rw [Nat.pow_add, ← Nat.div_div_eq_div_mul, ← Nat.div_div_eq_div_mul, h]

/-- **Inside a perfect subtree** of `2 ^ h` leaves, aligned and ending before the last leaf `r`,
the path has one digest per level and the walk rebuilds the subtree's root. -/
theorem walkPath_auditPath_perfect (L : List β) (h : Nat) :
    ∀ a m r, a % 2 ^ h = 0 → a + 2 ^ h ≤ L.length → m < 2 ^ h → a + 2 ^ h ≤ r →
      (auditPath S L a (a + 2 ^ h) m).length = h ∧
      walkPath S (auditPath S L a (a + 2 ^ h) m) (a + m) r (mthRange S L (a + m) (a + m + 1)) =
        mthRange S L a (a + 2 ^ h) := by
  induction h with
  | zero =>
    intro a m r _ _ hm _
    have hm0 : m = 0 := by simpa using hm
    subst hm0
    rw [auditPath_of_le_one S L (by simp)]
    exact ⟨rfl, rfl⟩
  | succ h ih =>
    intro a m r ha hL hm hr
    have hP := Nat.two_pow_pos h
    have hpow : 2 ^ (h + 1) = 2 * 2 ^ h := Nat.pow_succ'
    have hsplit : split (a + 2 ^ (h + 1) - a) = 2 ^ h := by
      rw [Nat.add_sub_cancel_left]; exact split_eq (by omega) (Nat.le_refl _)
    have ha' : a % 2 ^ h = 0 := Nat.mod_eq_zero_of_dvd
      (Nat.dvd_trans (Nat.pow_dvd_pow 2 (Nat.le_succ h)) (Nat.dvd_of_mod_eq_zero ha))
    -- the block of `a` at level `h` is the left child of its parent: its index is even
    have heven : a / 2 ^ h % 2 = 0 := by
      obtain ⟨q, hq⟩ := Nat.dvd_of_mod_eq_zero ha
      rw [hq, hpow, Nat.mul_comm 2, Nat.mul_assoc, Nat.mul_div_cancel_left _ hP]
      omega
    have hnode := mthRange_node S (a := a) (c := a + 2 ^ h) (b := a + 2 ^ (h + 1)) (by omega)
      (by omega) hL (by rw [Nat.add_sub_cancel_left, hsplit])
    rcases Nat.lt_or_ge m (2 ^ h) with hmk | hmk
    · -- the leaf is in the left half; the right half's root joins on the right
      rw [auditPath_left S L (by omega) (by rw [hsplit]; exact hmk), hsplit]
      obtain ⟨hlen, hwalk⟩ := ih a m r ha' (by omega) hmk (by omega)
      refine ⟨by rw [List.length_append, hlen]; rfl, ?_⟩
      have hx : (a + m) / 2 ^ h = a / 2 ^ h := div_two_pow_of_lt ha' hmk
      have hdiv : (a + 2 ^ (h + 1)) / 2 ^ h = a / 2 ^ h + 2 := by
        rw [hpow, Nat.add_mul_div_right _ _ hP]
      have hrx : a / 2 ^ h + 2 ≤ r / 2 ^ h := hdiv ▸ Nat.div_le_div_right hr
      rw [walkPath_snoc, hlen, hx, if_pos ⟨heven, by omega⟩, hwalk, hnode]
    · -- the leaf is in the right half, a perfect subtree again; the left half joins on the left
      have hsum : a + 2 ^ (h + 1) = a + 2 ^ h + 2 ^ h := by omega
      rw [auditPath_right S L (by omega) (by rw [hsplit]; exact hmk), hsplit, hsum]
      obtain ⟨hlen, hwalk⟩ := ih (a + 2 ^ h) (m - 2 ^ h) r
        (by rw [Nat.add_mod_right]; exact ha') (by omega) (by omega) (by omega)
      have hxm : a + 2 ^ h + (m - 2 ^ h) = a + m := by omega
      rw [hxm] at hwalk
      refine ⟨by rw [List.length_append, hlen]; rfl, ?_⟩
      have hx : (a + m) / 2 ^ h = a / 2 ^ h + 1 := by
        rw [show a + m = a + 2 ^ h + (m - 2 ^ h) by omega,
          div_two_pow_of_lt (by rw [Nat.add_mod_right]; exact ha') (by omega),
          Nat.add_div_right _ hP]
      rw [walkPath_snoc, hlen, hx, if_neg (by omega), hwalk, ← hsum, hnode]

/-- **On the right edge**: in a run `L[a:b]` that ends at the last leaf `r = b - 1`, aligned to
`2 ^ h` and no longer, the walk rebuilds the run's root and ends with the two positions met. -/
theorem walkPath_auditPath_suffix (L : List β) (h : Nat) :
    ∀ a b m, a % 2 ^ h = 0 → b - a ≤ 2 ^ h → b ≤ L.length → m < b - a →
      walkPath S (auditPath S L a b m) (a + m) (b - 1) (mthRange S L (a + m) (a + m + 1)) =
          mthRange S L a b ∧
        (a + m) / 2 ^ (auditPath S L a b m).length = (b - 1) / 2 ^ (auditPath S L a b m).length := by
  induction h using Nat.strongRecOn with
  | ind h ih =>
    intro a b m ha hab hL hm
    by_cases hn : b - a ≤ 1
    · -- a single leaf
      have hm0 : m = 0 := by omega
      have hb : b = a + 1 := by omega
      subst hm0 hb
      rw [auditPath_of_le_one S L hn]
      exact ⟨rfl, by simp⟩
    · -- the split point is `2 ^ e`, a level below `h`
      set e := Nat.log2 (b - a - 1) with he
      have hk : split (b - a) = 2 ^ e := rfl
      have hklt := split_lt (n := b - a) (by omega)
      have hk2 := le_two_mul_split (n := b - a) (by omega)
      rw [hk] at hklt hk2
      have h2 : 2 ^ e < 2 ^ h := by omega
      have heh : e < h := (Nat.pow_lt_pow_iff_right (by decide : 1 < 2)).mp h2
      have hpow : 2 ^ (e + 1) = 2 * 2 ^ e := Nat.pow_succ'
      have hP := Nat.two_pow_pos e
      have hae1 : a % 2 ^ (e + 1) = 0 := Nat.mod_eq_zero_of_dvd
        (Nat.dvd_trans (Nat.pow_dvd_pow 2 heh) (Nat.dvd_of_mod_eq_zero ha))
      have hae : a % 2 ^ e = 0 := Nat.mod_eq_zero_of_dvd
        (Nat.dvd_trans (Nat.pow_dvd_pow 2 (Nat.le_succ e)) (Nat.dvd_of_mod_eq_zero hae1))
      have hnode := mthRange_node S (a := a) (c := a + 2 ^ e) (b := b) (by omega) (by omega) hL
        (by rw [Nat.add_sub_cancel_left, hk])
      rcases Nat.lt_or_ge m (2 ^ e) with hmk | hmk
      · -- the leaf is in the perfect left part; the right part's root joins on the right
        rw [auditPath_left S L (by omega) (by rw [hk]; exact hmk), hk]
        obtain ⟨hlen, hwalk⟩ := walkPath_auditPath_perfect S L e a m (b - 1) hae (by omega) hmk
          (by omega)
        have hx : (a + m) / 2 ^ e = a / 2 ^ e := div_two_pow_of_lt hae hmk
        have heven : a / 2 ^ e % 2 = 0 := by
          obtain ⟨q, hq⟩ := Nat.dvd_of_mod_eq_zero hae1
          rw [hq, hpow, Nat.mul_comm 2, Nat.mul_assoc, Nat.mul_div_cancel_left _ hP]
          omega
        have hr : a / 2 ^ e + 1 ≤ (b - 1) / 2 ^ e := by
          have := Nat.div_le_div_right (c := 2 ^ e) (show a + 1 * 2 ^ e ≤ b - 1 by omega)
          rwa [Nat.add_mul_div_right _ _ hP] at this
        refine ⟨?_, ?_⟩
        · rw [walkPath_snoc, hlen, hx, if_pos ⟨heven, by omega⟩, hwalk, hnode]
        · -- both positions end in the block of `a` at level `e + 1`
          rw [List.length_append, hlen, List.length_singleton, div_two_pow_of_lt hae1 (by omega),
            show b - 1 = a + (b - 1 - a) by omega, div_two_pow_of_lt hae1 (by omega)]
      · -- the leaf is in the right part, again on the right edge; the left part joins on the left
        rw [auditPath_right S L (by omega) (by rw [hk]; exact hmk), hk]
        obtain ⟨hwalk, hmet⟩ := ih e heh (a + 2 ^ e) b (m - 2 ^ e)
          (by rw [Nat.add_mod_right]; exact hae) (by omega) hL (by omega)
        have hxm : a + 2 ^ e + (m - 2 ^ e) = a + m := by omega
        rw [hxm] at hwalk hmet
        refine ⟨?_, ?_⟩
        · rw [walkPath_snoc, hmet, if_neg (by omega), hwalk, hnode]
        · rw [List.length_append, List.length_singleton, Nat.pow_succ, ← Nat.div_div_eq_div_mul,
            ← Nat.div_div_eq_div_mul, hmet]

/-- **The verifier accepts every audit path**: for leaf `i` of the first `W` leaves, walking its
path from the leaf's digest with the positions `i` and `W - 1` gives the tree hash, and the
positions have met at the end. -/
theorem walkPath_auditPath (L : List β) {W i : Nat} (hW : W ≤ L.length) (hi : i < W) :
    walkPath S (auditPath S L 0 W i) i (W - 1) (mthRange S L i (i + 1)) = mth S (L.take W) ∧
      i / 2 ^ (auditPath S L 0 W i).length = (W - 1) / 2 ^ (auditPath S L 0 W i).length := by
  have h := walkPath_auditPath_suffix S L W 0 W i (by simp) (by have := Nat.lt_two_pow_self (n := W); omega)
    hW (by omega)
  rw [Nat.zero_add, mthRange_zero] at h
  exact h

/-! ## 5. Binding

With hashes that can be read back, the tree hash of a non-empty list determines the list: a
leaf is not a node, and a node gives back both its children. A verifier that rebuilds a root
from a proof learns the subtrees the root was made of, and nothing else can produce it. -/

/-- A scheme whose digests can be read back: leaves and nodes are injective, and no leaf hash is
a node hash. -/
structure Scheme.Binding (S : Scheme β α) : Prop where
  leaf_injective : Function.Injective S.leaf
  node_injective : ∀ a b c d, S.node a b = S.node c d → a = c ∧ b = d
  leaf_ne_node : ∀ x a b, S.leaf x ≠ S.node a b

namespace Scheme.Binding

variable {S} (hS : S.Binding)
include hS

/-- A non-empty list whose tree hash is a node has two leaves or more, and the node's children
are the hashes of its two parts. -/
theorem eq_node {X : List β} (hX : X ≠ []) {a b : α} (h : mth S X = S.node a b) :
    2 ≤ X.length ∧ a = mth S (X.take (split X.length)) ∧ b = mth S (X.drop (split X.length)) := by
  match X, hX with
  | [x], _ => exact absurd h (by rw [mth_singleton]; exact hS.leaf_ne_node x a b)
  | x :: y :: rest, _ =>
    rw [mth_of_two_le S (by simp)] at h
    obtain ⟨ha, hb⟩ := hS.node_injective _ _ _ _ h
    exact ⟨by simp, ha.symm, hb.symm⟩

/-- **The tree hash of a non-empty list determines it.** -/
theorem mth_injective {X Y : List β} (hX : X ≠ []) (hY : Y ≠ []) (h : mth S X = mth S Y) :
    X = Y := by
  match X, hX with
  | [x], _ =>
    match Y, hY with
    | [y], _ =>
      rw [mth_singleton, mth_singleton] at h
      rw [hS.leaf_injective h]
    | _ :: _ :: _, _ =>
      rw [mth_singleton, mth_of_two_le S (by simp)] at h
      exact absurd h (hS.leaf_ne_node _ _ _)
  | x :: x' :: rest, _ =>
    -- `X` is a node, so `Y` is one too, with the same children
    have hX2 : 2 ≤ (x :: x' :: rest).length := by simp
    rw [mth_of_two_le S hX2] at h
    obtain ⟨hY2, htake, hdrop⟩ := hS.eq_node hY h.symm
    obtain ⟨hXl, hXr, -, -⟩ := split_parts hX2
    obtain ⟨hYl, hYr, -, -⟩ := split_parts hY2
    have hL := mth_injective hXl hYl htake
    have hR := mth_injective hXr hYr hdrop
    rw [← List.take_append_drop (split (x :: x' :: rest).length) (x :: x' :: rest), hL, hR,
      List.take_append_drop]
termination_by X.length
decreasing_by
  · exact (split_parts hX2).2.2.1
  · exact (split_parts hX2).2.2.2

end Scheme.Binding

/-! ## 6. What a verifier's walk binds

A verifier rebuilds a root from a leaf's digest, joining one digest at a time on one side or the
other. Under a binding scheme each join is read back from the top: a root of two leaves or more is
a node, so the last digest joined was one child and the walk before it built the other. Read down
to the start, the walk began at the hash of one leaf of the list, whatever sides it took
(`Binding.mem_of_climbs`).

Which leaf is decided by the sides, and `walkPath` takes them from the bits of two positions.
Inside a perfect subtree of height `h` the walk takes exactly `h` digests, and while the positions
differ it follows the bits of `x` down to the leaf they name (`walkPath_perfect_sound`). On the
right edge, a walk that ends with the positions met followed `x` into the perfect left part or
into the right part, whichever holds it, so it began at the leaf `x` itself
(`walkPath_suffix_sound`): a verifier that checks the positions meet cannot be led to another
leaf, for any number of digests. -/

/-- The digests a walk builds from the leaf hash of `x`, joining one digest at a time on either
side. -/
inductive Climbs (x : β) : α → Prop
  | leaf : Climbs x (S.leaf x)
  | left {c : α} (t : α) : Climbs x c → Climbs x (S.node c t)
  | right {c : α} (t : α) : Climbs x c → Climbs x (S.node t c)

/-- A list of at most `2 ^ (h + 1)` leaves splits at most at `2 ^ h`. -/
theorem split_le {n h : Nat} (hn : 2 ≤ n) (hh : n ≤ 2 ^ (h + 1)) : split n ≤ 2 ^ h := by
  unfold split
  apply Nat.pow_le_pow_right (by decide)
  have := (Nat.log2_lt (n := n - 1) (k := h + 1) (by omega)).mpr (by omega)
  omega

namespace Scheme.Binding

variable {S} (hS : S.Binding)
include hS

/-- **A walk that builds a tree hash started at one of its leaves.** -/
theorem mem_of_climbs {x : β} {c : α} (hc : Climbs S x c) :
    ∀ {X : List β}, X ≠ [] → c = mth S X → x ∈ X := by
  induction hc with
  | leaf =>
    intro X hX h
    rcases X with _ | ⟨z, _ | ⟨z', rest⟩⟩
    · exact absurd rfl hX
    · rw [mth_singleton, hS.leaf_injective.eq_iff] at h
      simp [h]
    · rw [mth_of_two_le S (by simp)] at h
      exact absurd h (hS.leaf_ne_node _ _ _)
  | left t _ ih =>
    intro X hX h
    obtain ⟨h2, hc, -⟩ := hS.eq_node hX h.symm
    exact List.mem_of_mem_take (ih (split_parts h2).1 hc)
  | right t _ ih =>
    intro X hX h
    obtain ⟨h2, -, hc⟩ := hS.eq_node hX h.symm
    exact List.mem_of_mem_drop (ih (split_parts h2).2.1 hc)

/-- A walk from a leaf that ends at a leaf's hash took no digest, and started at that leaf. -/
theorem walkPath_eq_leaf {ts : List α} {x r : Nat} {y z : β}
    (h : walkPath S ts x r (S.leaf y) = S.leaf z) : ts = [] ∧ y = z := by
  rcases List.eq_nil_or_concat ts with rfl | ⟨ts, t, rfl⟩
  · exact ⟨rfl, hS.leaf_injective h⟩
  · rw [List.concat_eq_append, walkPath_snoc] at h
    split_ifs at h <;> exact absurd h.symm (hS.leaf_ne_node _ _ _)

/-- Over a run of one leaf, a walk took no digest and started at that leaf. -/
theorem walkPath_eq_mthRange_succ {L : List β} {a x r : Nat} {ts : List α} {y : β}
    (ha : a < L.length) (h : walkPath S ts x r (S.leaf y) = mthRange S L a (a + 1)) :
    ts = [] ∧ L[a]? = some y := by
  rw [mthRange_succ S (List.getElem?_eq_getElem ha)] at h
  obtain ⟨rfl, hy⟩ := hS.walkPath_eq_leaf h
  exact ⟨rfl, by rw [List.getElem?_eq_getElem ha, hy]⟩

/-- **The last step of a walk that builds a node**: the positions at that level decide the side
the last digest joined, and the walk before it built the other child. -/
theorem walkPath_eq_node {ts : List α} {x r : Nat} {y : β} {A B : α}
    (h : walkPath S ts x r (S.leaf y) = S.node A B) :
    ∃ ts' t, ts = ts' ++ [t] ∧
      (x / 2 ^ ts'.length % 2 = 0 ∧ x / 2 ^ ts'.length ≠ r / 2 ^ ts'.length ∧
          walkPath S ts' x r (S.leaf y) = A ∨
        ¬ (x / 2 ^ ts'.length % 2 = 0 ∧ x / 2 ^ ts'.length ≠ r / 2 ^ ts'.length) ∧
          walkPath S ts' x r (S.leaf y) = B) := by
  rcases List.eq_nil_or_concat ts with rfl | ⟨ts', t, rfl⟩
  · exact absurd h (hS.leaf_ne_node _ _ _)
  · refine ⟨ts', t, List.concat_eq_append .., ?_⟩
    rw [List.concat_eq_append, walkPath_snoc] at h
    split_ifs at h with hside
    · exact .inl ⟨hside.1, hside.2, (hS.node_injective _ _ _ _ h).1⟩
    · exact .inr ⟨hside, (hS.node_injective _ _ _ _ h).2⟩

/-- A walk that builds the hash of a run of at most `2 ^ h` leaves took at most `h` digests: no
leaf of such a run is deeper. -/
theorem walkPath_length_le (L : List β) (x r : Nat) (y : β) (h : Nat) :
    ∀ {a b : Nat} {ts : List α}, a < b → b - a ≤ 2 ^ h → b ≤ L.length →
      walkPath S ts x r (S.leaf y) = mthRange S L a b → ts.length ≤ h := by
  induction h with
  | zero =>
    intro a b ts hab hh hb hw
    rw [show b = a + 1 by simp at hh; omega] at hw
    simp [(hS.walkPath_eq_mthRange_succ (by omega) hw).1]
  | succ h ih =>
    intro a b ts hab hh hb hw
    by_cases hn : b - a = 1
    · rw [show b = a + 1 by omega] at hw
      simp [(hS.walkPath_eq_mthRange_succ (by omega) hw).1]
    · -- a node: each of its two parts has at most `2 ^ h` leaves
      have hk := split_lt (n := b - a) (by omega)
      have hk0 := split_pos (b - a)
      have hk2 := le_two_mul_split (n := b - a) (by omega)
      have hkh := split_le (n := b - a) (by omega) hh
      rw [mthRange_node S (c := a + split (b - a)) (by omega) (by omega) hb (by omega)] at hw
      obtain ⟨ts', t, rfl, ⟨-, -, hl⟩ | ⟨-, hr⟩⟩ := hS.walkPath_eq_node hw
      · have := ih (by omega) (by omega) (by omega) hl
        rw [List.length_append, List.length_singleton]
        omega
      · have := ih (by omega) (by omega) hb hr
        rw [List.length_append, List.length_singleton]
        omega

/-- **Inside a perfect subtree.** A walk that builds the hash of a run of `2 ^ h` leaves took
exactly `h` digests; and if the positions still differ at level `h`, every step took the side of
its bit of `x`, so the walk started at the leaf `x mod 2 ^ h` of the run. -/
theorem walkPath_perfect_sound (L : List β) (x r : Nat) (y : β) (h : Nat) :
    ∀ {a : Nat} {ts : List α}, a + 2 ^ h ≤ L.length →
      walkPath S ts x r (S.leaf y) = mthRange S L a (a + 2 ^ h) →
      ts.length = h ∧ (x / 2 ^ h ≠ r / 2 ^ h → L[a + x % 2 ^ h]? = some y) := by
  induction h with
  | zero =>
    intro a ts hL hw
    rw [Nat.pow_zero] at hL hw
    obtain ⟨rfl, hy⟩ := hS.walkPath_eq_mthRange_succ (by omega) hw
    exact ⟨rfl, fun _ => by rw [Nat.pow_zero, Nat.mod_one, Nat.add_zero]; exact hy⟩
  | succ h ih =>
    intro a ts hL hw
    have hP := Nat.two_pow_pos h
    have hpow : 2 ^ (h + 1) = 2 ^ h + 2 ^ h := by rw [Nat.pow_succ]; omega
    have hsplit : split (a + 2 ^ (h + 1) - a) = 2 ^ h := by
      rw [Nat.add_sub_cancel_left]
      exact split_eq (by omega) (Nat.le_refl _)
    rw [mthRange_node S (c := a + 2 ^ h) (by omega) (by omega) hL (by rw [hsplit]; omega)] at hw
    obtain ⟨ts', t, rfl, ⟨heven, hne, hl⟩ | ⟨hside, hr⟩⟩ := hS.walkPath_eq_node hw
    · -- the last digest joined on the right: the walk before built the left half
      obtain ⟨hlen, hleaf⟩ := ih (by omega) hl
      rw [hlen] at heven hne
      refine ⟨by rw [List.length_append, List.length_singleton, hlen], fun _ => ?_⟩
      rw [Nat.mod_pow_succ, heven, Nat.mul_zero, Nat.add_zero]
      exact hleaf hne
    · -- the last digest joined on the left: the walk before built the right half
      rw [hpow, ← Nat.add_assoc] at hr
      obtain ⟨hlen, hleaf⟩ := ih (by omega) hr
      rw [hlen] at hside
      refine ⟨by rw [List.length_append, List.length_singleton, hlen], fun hne => ?_⟩
      -- the positions differ at level `h` too, so the side was the bit of `x`, a one
      have hne' : x / 2 ^ h ≠ r / 2 ^ h := fun he => hne (div_two_pow_eq_of_le (Nat.le_succ h) he)
      have hodd : x / 2 ^ h % 2 = 1 := by omega
      rw [Nat.mod_pow_succ, hodd, Nat.mul_one,
        show a + (x % 2 ^ h + 2 ^ h) = a + 2 ^ h + x % 2 ^ h by omega]
      exact hleaf hne'

/-- **On the right edge.** A walk from the leaf hash of `y`, with `x` in a run `L[a:b]` aligned to
`2 ^ h` and no longer, and `r` the run's last leaf, that builds the run's hash and ends with the
positions met, started at the leaf `x`. -/
theorem walkPath_suffix_sound (L : List β) (x : Nat) (y : β) (h : Nat) :
    ∀ {a b : Nat} {ts : List α}, a % 2 ^ h = 0 → a ≤ x → x < b → b - a ≤ 2 ^ h → b ≤ L.length →
      walkPath S ts x (b - 1) (S.leaf y) = mthRange S L a b →
      x / 2 ^ ts.length = (b - 1) / 2 ^ ts.length → L[x]? = some y := by
  induction h using Nat.strongRecOn with
  | ind h ih =>
    intro a b ts ha hax hxb hab hL hw hmet
    by_cases hn : b - a ≤ 1
    · -- a single leaf, which is `x`
      obtain rfl : b = a + 1 := by omega
      obtain rfl : x = a := by omega
      exact (hS.walkPath_eq_mthRange_succ (by omega) hw).2
    · -- the split point is `2 ^ e`, a level below `h`
      set e := Nat.log2 (b - a - 1)
      have hk : split (b - a) = 2 ^ e := rfl
      have hklt := split_lt (n := b - a) (by omega)
      have hk2 := le_two_mul_split (n := b - a) (by omega)
      rw [hk] at hklt hk2
      have heh : e < h := (Nat.pow_lt_pow_iff_right (by decide : 1 < 2)).mp (by omega)
      have hpow : 2 ^ (e + 1) = 2 * 2 ^ e := Nat.pow_succ'
      have hae1 : a % 2 ^ (e + 1) = 0 := Nat.mod_eq_zero_of_dvd
        (Nat.dvd_trans (Nat.pow_dvd_pow 2 heh) (Nat.dvd_of_mod_eq_zero ha))
      have hae : a % 2 ^ e = 0 := Nat.mod_eq_zero_of_dvd
        (Nat.dvd_trans (Nat.pow_dvd_pow 2 (Nat.le_succ e)) (Nat.dvd_of_mod_eq_zero hae1))
      -- the last leaf is in the second half of the block of `a` at level `e + 1`
      obtain ⟨heven, hrhalf⟩ :=
        halves_of_block hae1 (show a ≤ b - 1 by omega) (show b - 1 < a + 2 ^ (e + 1) by omega)
      have hrdiv : (b - 1) / 2 ^ e = a / 2 ^ e + 1 := by
        rcases hrhalf with ⟨hlt, -⟩ | ⟨-, hr⟩
        · omega
        · exact hr
      rw [mthRange_node S (c := a + 2 ^ e) (by omega) (by omega) hL
        (by rw [Nat.add_sub_cancel_left, hk])] at hw
      obtain ⟨ts', t, rfl, ⟨hev, hne, hl⟩ | ⟨hside, hr⟩⟩ := hS.walkPath_eq_node hw
      · -- the last digest joined on the right: the walk before built the perfect left half, so
        -- it took `e` digests and started at the leaf `a + x mod 2 ^ e`
        obtain ⟨hlen, hleaf⟩ := hS.walkPath_perfect_sound L x (b - 1) y e (by omega) hl
        rw [hlen] at hev hne
        rw [List.length_append, List.length_singleton, hlen] at hmet
        -- the positions met at level `e + 1`, in the block of `a`; `x` is in its first half
        have hxblk : x < a + 2 ^ (e + 1) := by
          refine lt_of_div_eq (hmet.trans ?_)
          rw [show b - 1 = a + (b - 1 - a) by omega]
          exact div_two_pow_of_lt hae1 (by omega)
        have hxa : x - a < 2 ^ e := by
          rcases (halves_of_block hae1 hax hxblk).2 with ⟨hlt, -⟩ | ⟨-, hxdiv⟩
          · omega
          · omega
        have hx : a + x % 2 ^ e = x := by
          have hmod := mod_two_pow_of_lt hae hxa
          rw [Nat.add_sub_cancel' hax] at hmod
          omega
        rw [← hx]
        exact hleaf hne
      · -- the last digest joined on the left: the walk before built the right part, on the
        -- right edge again and no deeper than `e`
        have hlen : ts'.length ≤ e :=
          hS.walkPath_length_le L x (b - 1) y e (by omega) (by omega) hL hr
        -- the positions had met already, or the last step would have taken the right side
        have hmet' : x / 2 ^ ts'.length = (b - 1) / 2 ^ ts'.length := by
          have hxr : x / 2 ^ ts'.length ≤ (b - 1) / 2 ^ ts'.length :=
            Nat.div_le_div_right (by omega)
          have hhalf : x / 2 ^ ts'.length / 2 = (b - 1) / 2 ^ ts'.length / 2 := by
            rw [Nat.div_div_eq_div_mul, Nat.div_div_eq_div_mul, ← Nat.pow_succ]
            simpa using hmet
          omega
        -- so they had met at level `e`, where `x` is in the right part
        have hxe := div_two_pow_eq_of_le hlen hmet'
        have hxr : a + 2 ^ e ≤ x := by
          rcases (halves_of_block hae1 hax (by omega)).2 with ⟨-, hxdiv⟩ | ⟨hle, -⟩
          · omega
          · exact hle
        exact ih e heh (by rw [Nat.add_mod_right]; exact hae) hxr hxb (by omega) hL hr hmet'

/-- **Soundness of the bit-walking verifier.** A walk from the leaf hash of `y`, with the
positions of leaf `x` and of the last of the first `W` leaves, that builds their tree hash and
ends with the positions met, started at the leaf `x`. -/
theorem walkPath_sound (L : List β) {W x : Nat} {ts : List α} {y : β} (hW : W ≤ L.length)
    (hx : x < W) (hw : walkPath S ts x (W - 1) (S.leaf y) = mth S (L.take W))
    (hmet : x / 2 ^ ts.length = (W - 1) / 2 ^ ts.length) : L[x]? = some y := by
  rw [← mthRange_zero] at hw
  exact hS.walkPath_suffix_sound L x y W (Nat.zero_mod _) (Nat.zero_le x) hx
    (by have := Nat.lt_two_pow_self (n := W); omega) hW hw hmet

end Scheme.Binding

end Merkle
