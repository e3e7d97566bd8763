import Mathlib.Tactic.Ring
import Immudb.Ahtree.Verification

/-!
# `Immudb/Ahtree/Paths.lean` — the proofs an AHtree hands out, and why its verifiers accept them

`inclusionProof` and `consistencyProof` of `embedded/ahtree/ahtree.go` walk the set bits of
`j - 1` from the top. At a set bit `h` the tree of size `j` splits at `k = (j - 1) >> h << h`:
if the leaf (or the old tree's end) lies left of `k`, the right part's root is emitted and the
walk recurses into the left part, a perfect subtree of height `h`; otherwise the left part's
root is emitted and the walk goes on to the next set bit. `inclusionPath` and `consistencyPath`
are those two loops with every digest they read replaced by the subtree root the digest log
holds there (`nodeDigest`, `highestDigest`); `Immudb/Ahtree/Proofs.lean` proves that the Go
methods return exactly these lists.

The verifiers walk the other way, from the leaf up, and place each digest by the parity of a
position. The two codings meet in two shapes:

* inside a perfect subtree every level has a sibling, one digest per level, and the side is the
  bit of the leaf's position (`inclusionPath_perfect`, `consistencyPath_perfect`);
* on the right edge of the tree the siblings are left siblings only, folded by the verifier
  once the two positions have met (`LeftSiblings`, `inclusionPath_spine`,
  `consistencyPath_spine`).

Nodes are named by level and index: node `c` of level `H` covers the leaves
`[c * 2 ^ H, (c + 1) * 2 ^ H)`, and position `x` lies in node `x / 2 ^ H`.
-/

set_option autoImplicit false

namespace Immudb.Ahtree

open Merkle Hashing Bits

variable {D : Type} (hs : Hasher D) (L : List (List UInt8))

/-! ## 1. The paths -/

/-- What `node(k, h)` reads, for `k` a multiple of `2 ^ h`: the root of the `2 ^ h` leaves that
end at `k`. -/
def nodeDigest (k h : Nat) : D := mthRange (treeScheme hs) L (k - 2 ^ h) k

/-- What `highestNode(i, h)` reads: the root of the leaves from `i - 1` with its low `h` bits
cleared up to `i`. -/
def highestDigest (i h : Nat) : D := mthRange (treeScheme hs) L ((i - 1) / 2 ^ h * 2 ^ h) i

/-- The list `inclusionProof(i, j, h)` returns after its loop has prepended `proof`. -/
def inclusionPath (i : Nat) : Nat → Nat → List D → List D
  | 0, _, proof => proof
  | h + 1, j, proof =>
    if (j - 1) / 2 ^ h % 2 = 1 then
      let k := (j - 1) / 2 ^ h * 2 ^ h
      if i ≤ k then inclusionPath i h k [] ++ highestDigest hs L j h :: proof
      else inclusionPath i h j (nodeDigest hs L k h :: proof)
    else inclusionPath i h j proof

/-- The list `consistencyProof(i, j, h)` returns after its loop has prepended `proof`. -/
def consistencyPath (i : Nat) : Nat → Nat → List D → List D
  | 0, _, proof => proof
  | h + 1, j, proof =>
    if (j - 1) / 2 ^ h % 2 = 1 then
      let k := (j - 1) / 2 ^ h * 2 ^ h
      if i ≤ k then
        let proof := highestDigest hs L j h :: proof
        -- Go tests `i < k` and then `i == k`: one of the two holds
        if i < k then consistencyPath i h k [] ++ proof
        else highestDigest hs L i h :: proof
      else
        let proof := nodeDigest hs L k h :: proof
        if i = j then highestDigest hs L i h :: proof
        else consistencyPath i h j proof
    else consistencyPath i h j proof

/-- What the loop has prepended is the end of what it returns. -/
theorem inclusionPath_acc (i H j : Nat) (acc : List D) :
    inclusionPath hs L i H j acc = inclusionPath hs L i H j [] ++ acc := by
  induction H generalizing j acc with
  | zero => rfl
  | succ h ih =>
    simp only [inclusionPath]
    split_ifs
    · simp
    · rw [ih, ih j [_], List.append_assoc, List.singleton_append]
    · exact ih j acc

theorem consistencyPath_acc (i H j : Nat) (acc : List D) :
    consistencyPath hs L i H j acc = consistencyPath hs L i H j [] ++ acc := by
  induction H generalizing j acc with
  | zero => rfl
  | succ h ih =>
    simp only [consistencyPath]
    split_ifs
    · simp
    · simp
    · simp
    · rw [ih, ih j [_], List.append_assoc, List.singleton_append]
    · exact ih j acc

/-! ## 2. Nodes by level and index -/

section Nodes

variable {hs L}

theorem nodeDigest_odd (c h : Nat) :
    nodeDigest hs L ((2 * c + 1) * 2 ^ h) h =
      mthRange (treeScheme hs) L (2 * c * 2 ^ h) ((2 * c + 1) * 2 ^ h) := by
  rw [nodeDigest, Nat.add_mul, Nat.one_mul, Nat.add_sub_cancel]

theorem highestDigest_eq {i h q : Nat} (hq : (i - 1) / 2 ^ h = q) :
    highestDigest hs L i h = mthRange (treeScheme hs) L (q * 2 ^ h) i := by
  rw [highestDigest, hq]

/-- The last position of node `c + 1 - 1` of level `h + 1`, seen one level down: the odd child. -/
theorem last_div_two_pow (c h : Nat) : ((c + 1) * 2 ^ (h + 1) - 1) / 2 ^ h = 2 * c + 1 := by
  have hP := Nat.two_pow_pos h
  have e1 : (c + 1) * 2 ^ (h + 1) = (2 * c + 1) * 2 ^ h + 2 ^ h := by rw [Nat.pow_succ]; ring
  have e2 : (2 * c + 1 + 1) * 2 ^ h = (2 * c + 1) * 2 ^ h + 2 ^ h := by ring
  apply Nat.div_eq_of_lt_le <;> omega

/-- Two levels of one position: the node above is the node below halved. -/
theorem div_two_pow_succ_of {x h q : Nat} (hq : x / 2 ^ h = q) : x / 2 ^ (h + 1) = q / 2 := by
  rw [Nat.pow_succ, ← Nat.div_div_eq_div_mul, hq]

theorem shiftRight_eq_of {x h q : Nat} (hq : x / 2 ^ h = q) : x >>> h = q := by
  rw [Nat.shiftRight_eq_div_pow, hq]

/-- The positions of a node end before the next node starts. -/
theorem lt_of_div_two_pow {x h q : Nat} (hq : x / 2 ^ h = q) : x < (q + 1) * 2 ^ h := by
  have := (Nat.div_eq_iff (Nat.two_pow_pos h)).mp hq
  have hP := Nat.two_pow_pos h
  rw [Nat.add_mul, Nat.one_mul]
  omega

theorem le_of_div_two_pow {x h q : Nat} (hq : x / 2 ^ h = q) : q * 2 ^ h ≤ x :=
  ((Nat.div_eq_iff (Nat.two_pow_pos h)).mp hq).1

end Nodes

/-! ## 3. The right edge of a tree -/

/-- `acc` holds the left siblings, from the bottom up, of node `c` of level `H`: folded on the
left onto the part of that node that a tree ending inside it has, they give that tree's root. -/
def LeftSiblings (H c : Nat) (acc : List D) : Prop :=
  ∀ n, 1 ≤ n → (n - 1) / 2 ^ H = c → n ≤ L.length →
    evalLastInclusion hs acc n (mthRange (treeScheme hs) L (c * 2 ^ H) n) =
      mth (treeScheme hs) (L.take n)

section LeftSiblings

variable {hs L}

/-- The first node of a level has no left sibling. -/
theorem leftSiblings_nil (H : Nat) : LeftSiblings hs L H 0 [] := by
  intro n _ _ _
  rw [Nat.zero_mul, mthRange_zero]
  rfl

theorem two_mul_mul_two_pow (c h : Nat) : 2 * c * 2 ^ h = c * 2 ^ (h + 1) := by
  rw [Nat.pow_succ]; ring

/-- Going down to the even child adds no sibling. -/
theorem LeftSiblings.even {H c : Nat} {acc : List D} (h : LeftSiblings hs L (H + 1) c acc) :
    LeftSiblings hs L H (2 * c) acc := by
  intro n hn hq hL
  have hup := h n hn (by rw [div_two_pow_succ_of hq]; omega) hL
  rwa [← two_mul_mul_two_pow] at hup

/-- Going down to the odd child adds the even child as the lowest left sibling. -/
theorem LeftSiblings.odd {H c : Nat} {acc : List D} (h : LeftSiblings hs L (H + 1) c acc) :
    LeftSiblings hs L H (2 * c + 1)
      (mthRange (treeScheme hs) L (2 * c * 2 ^ H) ((2 * c + 1) * 2 ^ H) :: acc) := by
  intro n hn hq hL
  have hup := h n hn (by rw [div_two_pow_succ_of hq]; omega) hL
  rw [← two_mul_mul_two_pow, mthRange_halves (treeScheme hs) hq hL] at hup
  exact hup

end LeftSiblings

/-! ## 4. Inclusion -/

/-- **Inside a perfect subtree** — node `c` of level `H` — the path of a leaf has one digest per
level, and the verifier, which sees the leaf's position apart from the tree's last one, folds
it to the subtree's root. -/
theorem inclusionPath_perfect (H : Nat) :
    ∀ c i, 1 ≤ i → (i - 1) / 2 ^ H = c → (c + 1) * 2 ^ H ≤ L.length →
      (inclusionPath hs L i H ((c + 1) * 2 ^ H) []).length = H ∧
      ∀ J1, (i - 1) / 2 ^ H ≠ J1 / 2 ^ H →
        evalInclusionLoop hs (inclusionPath hs L i H ((c + 1) * 2 ^ H) []) (i - 1) J1
            (mthRange (treeScheme hs) L (i - 1) i) =
          mthRange (treeScheme hs) L (c * 2 ^ H) ((c + 1) * 2 ^ H) := by
  induction H with
  | zero =>
    intro c i hi hc _
    have hci : i - 1 = c := by simpa using hc
    subst hci
    have hsucc : i - 1 + 1 = i := by omega
    exact ⟨rfl, fun _ _ => by simp [inclusionPath, evalInclusionLoop, hsucc]⟩
  | succ h ih =>
    intro c i hi hc hL
    -- the node ends at `j`, its two halves meet at `(2 * c + 1) * 2 ^ h`
    have hj := last_div_two_pow c h
    have hodd : ((c + 1) * 2 ^ (h + 1) - 1) / 2 ^ h % 2 = 1 := by rw [hj]; omega
    have hsize : (c + 1) * 2 ^ (h + 1) = (2 * c + 1 + 1) * 2 ^ h := by rw [Nat.pow_succ]; ring
    have hhalves := mthRange_halves (treeScheme hs) hj hL
    have hJ' : ∀ J1, (i - 1) / 2 ^ (h + 1) ≠ J1 / 2 ^ (h + 1) → (i - 1) >>> h ≠ J1 >>> h := by
      intro J1 hJ e
      rw [Nat.shiftRight_eq_div_pow, Nat.shiftRight_eq_div_pow] at e
      exact hJ (by rw [div_two_pow_succ_of rfl, div_two_pow_succ_of rfl, e])
    rcases div_two_pow_halves hc with hq | hq
    · -- the leaf is in the even half: its path, then the odd half on the right
      have hik : i ≤ (2 * c + 1) * 2 ^ h := by have := lt_of_div_two_pow hq; omega
      have hpath : inclusionPath hs L i (h + 1) ((c + 1) * 2 ^ (h + 1)) [] =
          inclusionPath hs L i h ((2 * c + 1) * 2 ^ h) [] ++
            [highestDigest hs L ((c + 1) * 2 ^ (h + 1)) h] := by
        rw [inclusionPath, if_pos hodd, hj, if_pos hik]
      obtain ⟨hlen, heval⟩ :=
        ih (2 * c) i hi hq ((Nat.mul_le_mul_right _ (Nat.le_succ _)).trans (hsize ▸ hL))
      refine ⟨by rw [hpath, List.length_append, hlen]; rfl, fun J1 hJ => ?_⟩
      have hne : (i - 1) / 2 ^ h ≠ J1 / 2 ^ h := by
        simpa [Nat.shiftRight_eq_div_pow] using hJ' J1 hJ
      rw [hpath, evalInclusionLoop_append, hlen, heval J1 hne,
        evalInclusionLoop_cons_even hs (by rw [shiftRight_eq_of hq]; omega) (hJ' J1 hJ),
        highestDigest_eq hj, ← hhalves, two_mul_mul_two_pow]
      rfl
    · -- the leaf is in the odd half: the even half on the left, then its path
      have hik : ¬ i ≤ (2 * c + 1) * 2 ^ h := by have := le_of_div_two_pow hq; omega
      have hpath : inclusionPath hs L i (h + 1) ((c + 1) * 2 ^ (h + 1)) [] =
          inclusionPath hs L i h ((c + 1) * 2 ^ (h + 1)) [] ++
            [nodeDigest hs L ((2 * c + 1) * 2 ^ h) h] := by
        rw [inclusionPath, if_pos hodd, hj, if_neg hik, inclusionPath_acc]
      obtain ⟨hlen, heval⟩ := ih (2 * c + 1) i hi hq (hsize ▸ hL)
      rw [← hsize] at hlen heval
      refine ⟨by rw [hpath, List.length_append, hlen]; rfl, fun J1 hJ => ?_⟩
      have hne : (i - 1) / 2 ^ h ≠ J1 / 2 ^ h := by
        simpa [Nat.shiftRight_eq_div_pow] using hJ' J1 hJ
      rw [hpath, evalInclusionLoop_append, hlen, heval J1 hne,
        evalInclusionLoop_cons_odd hs _ (by rw [shiftRight_eq_of hq]; omega), nodeDigest_odd,
        ← hhalves, two_mul_mul_two_pow]
      rfl

/-- **On the right edge**, with `acc` the left siblings of the node the leaf and the last leaf
share at level `H`, the verifier folds what the loop returns to the root of the tree; and the
path is not empty when the leaf is not the last one, as `VerifyInclusion` requires. -/
theorem inclusionPath_spine (H : Nat) :
    ∀ j acc i, LeftSiblings hs L H ((j - 1) / 2 ^ H) acc → 1 ≤ i →
      (i - 1) / 2 ^ H = (j - 1) / 2 ^ H → i ≤ j → j ≤ L.length →
      evalInclusionLoop hs (inclusionPath hs L i H j acc) (i - 1) (j - 1)
          (mthRange (treeScheme hs) L (i - 1) i) = mth (treeScheme hs) (L.take j) ∧
        (i < j → inclusionPath hs L i H j acc ≠ []) := by
  induction H with
  | zero =>
    intro j acc i hsib hi hij hle hL
    have hji : i = j := by simp at hij; omega
    subst hji
    refine ⟨?_, fun h => absurd h (Nat.lt_irrefl i)⟩
    rw [inclusionPath, evalInclusionLoop_self hs acc _ i]
    simpa using hsib i hi (by simp) hL
  | succ h ih =>
    intro j acc i hsib hi hij hle hL
    obtain ⟨c, hc⟩ : ∃ c, (j - 1) / 2 ^ (h + 1) = c := ⟨_, rfl⟩
    rw [hc] at hsib hij
    have hqle : (i - 1) / 2 ^ h ≤ (j - 1) / 2 ^ h := Nat.div_le_div_right (by omega)
    rcases div_two_pow_halves hc with hqj | hqj <;> rcases div_two_pow_halves hij with hqi | hqi
    · -- bit `h` of `j - 1` is clear: one level down, same node
      have hpath : inclusionPath hs L i (h + 1) j acc = inclusionPath hs L i h j acc := by
        rw [inclusionPath, if_neg (by omega)]
      rw [hpath]
      exact ih j acc i (hqj ▸ hsib.even) hi (hqi.trans hqj.symm) hle hL
    · omega
    · -- the leaf is left of the split: its perfect path, then the right part on the right
      have hik : i ≤ (2 * c + 1) * 2 ^ h := by have := lt_of_div_two_pow hqi; omega
      have hpath : inclusionPath hs L i (h + 1) j acc =
          inclusionPath hs L i h ((2 * c + 1) * 2 ^ h) [] ++ highestDigest hs L j h :: acc := by
        rw [inclusionPath, if_pos (by omega), hqj, if_pos hik]
      have hk : (2 * c + 1) * 2 ^ h ≤ L.length := by have := le_of_div_two_pow hqj; omega
      obtain ⟨hlen, heval⟩ := inclusionPath_perfect hs L h (2 * c) i hi hqi hk
      refine ⟨?_, fun _ => by simp [hpath]⟩
      rw [hpath, evalInclusionLoop_append, hlen, heval (j - 1) (by omega),
        evalInclusionLoop_cons_even hs (by rw [shiftRight_eq_of hqi]; omega)
          (by rw [shiftRight_eq_of hqi, shiftRight_eq_of hqj]; omega),
        highestDigest_eq hqj, ← mthRange_halves (treeScheme hs) hqj hL, ← Nat.shiftRight_add,
        ← Nat.shiftRight_add, shiftRight_eq_of hij, shiftRight_eq_of hc,
        evalInclusionLoop_self hs acc c j, two_mul_mul_two_pow]
      exact hsib j (by omega) hc hL
    · -- the leaf is right of the split: the left part joins the left siblings
      have hik : ¬ i ≤ (2 * c + 1) * 2 ^ h := by have := le_of_div_two_pow hqi; omega
      have hpath : inclusionPath hs L i (h + 1) j acc =
          inclusionPath hs L i h j (nodeDigest hs L ((2 * c + 1) * 2 ^ h) h :: acc) := by
        rw [inclusionPath, if_pos (by omega), hqj, if_neg hik]
      rw [hpath, nodeDigest_odd]
      exact ih j _ i (hqj ▸ hsib.odd) hi (hqi.trans hqj.symm) hle hL

/-! ## 5. Consistency -/

/-- **Inside a perfect subtree** — node `c` of level `H` — that the old tree ends in, the first
digest of the path is the one the verifier starts both roots from, after stripping the levels
where the old tree's end is a right child; the rest brings the old root to the old tree's part
of the node, and the new root to the whole node. -/
theorem consistencyPath_perfect (H : Nat) :
    ∀ c i, 1 ≤ i → (i - 1) / 2 ^ H = c → i < (c + 1) * 2 ^ H → (c + 1) * 2 ^ H ≤ L.length →
      ∃ q0 qs, consistencyPath hs L i H ((c + 1) * 2 ^ H) [] = q0 :: qs ∧
        ∀ J1 rest, (i - 1) / 2 ^ H ≠ J1 / 2 ^ H →
          evalConsistencyLoop hs (qs ++ rest) (shiftWhileOdd (i - 1) J1).1
              (shiftWhileOdd (i - 1) J1).2 q0 q0 =
            evalConsistencyLoop hs rest ((i - 1) >>> H) (J1 >>> H)
              (mthRange (treeScheme hs) L (c * 2 ^ H) i)
              (mthRange (treeScheme hs) L (c * 2 ^ H) ((c + 1) * 2 ^ H)) := by
  induction H with
  | zero =>
    intro c i hi hc hlt _
    simp at hc
    omega
  | succ h ih =>
    intro c i hi hc hlt hL
    have hj := last_div_two_pow c h
    have hodd : ((c + 1) * 2 ^ (h + 1) - 1) / 2 ^ h % 2 = 1 := by rw [hj]; omega
    have hsize : (c + 1) * 2 ^ (h + 1) = (2 * c + 1 + 1) * 2 ^ h := by rw [Nat.pow_succ]; ring
    have hhalves := mthRange_halves (treeScheme hs) hj hL
    have hne : ∀ J1, (i - 1) / 2 ^ (h + 1) ≠ J1 / 2 ^ (h + 1) → (i - 1) / 2 ^ h ≠ J1 / 2 ^ h :=
      fun J1 hJ e => hJ (by rw [div_two_pow_succ_of rfl, div_two_pow_succ_of rfl, e])
    have hshift : ∀ J1, (i - 1) / 2 ^ (h + 1) ≠ J1 / 2 ^ (h + 1) → (i - 1) >>> h ≠ J1 >>> h := by
      intro J1 hJ
      rw [Nat.shiftRight_eq_div_pow, Nat.shiftRight_eq_div_pow]
      exact hne J1 hJ
    rcases div_two_pow_halves hc with hq | hq
    · by_cases hik : i < (2 * c + 1) * 2 ^ h
      · -- the old tree ends inside the even half: its path, then the odd half, new root only
        have hpath : consistencyPath hs L i (h + 1) ((c + 1) * 2 ^ (h + 1)) [] =
            consistencyPath hs L i h ((2 * c + 1) * 2 ^ h) [] ++
              [highestDigest hs L ((c + 1) * 2 ^ (h + 1)) h] := by
          rw [consistencyPath, if_pos hodd, hj, if_pos hik.le, if_pos hik]
        obtain ⟨q0, qs, hQ, hev⟩ :=
          ih (2 * c) i hi hq hik ((Nat.mul_le_mul_right _ (Nat.le_succ _)).trans (hsize ▸ hL))
        refine ⟨q0, qs ++ [highestDigest hs L ((c + 1) * 2 ^ (h + 1)) h],
          by rw [hpath, hQ]; rfl, fun J1 rest hJ => ?_⟩
        rw [List.append_assoc, List.singleton_append, hev J1 _ (hne J1 hJ),
          evalConsistencyLoop_cons_even hs (by rw [shiftRight_eq_of hq]; omega) (hshift J1 hJ),
          highestDigest_eq hj, ← hhalves, ← Nat.shiftRight_add, ← Nat.shiftRight_add,
          two_mul_mul_two_pow]
      · -- the old tree is the even half: its root, then the odd half, new root only
        have hik' : i = (2 * c + 1) * 2 ^ h := by have := lt_of_div_two_pow hq; omega
        have hpath : consistencyPath hs L i (h + 1) ((c + 1) * 2 ^ (h + 1)) [] =
            [highestDigest hs L i h, highestDigest hs L ((c + 1) * 2 ^ (h + 1)) h] := by
          rw [consistencyPath, if_pos hodd, hj, if_pos (by omega), if_neg hik]
        -- the old tree's end has `h` trailing ones and then a clear bit
        have hmod : (i - 1) % 2 ^ (h + 1) = 2 ^ h - 1 := by
          have hP := Nat.two_pow_pos h
          have hdecomp : i - 1 = (2 ^ h - 1) + 2 ^ (h + 1) * c := by
            rw [hik', Nat.pow_succ]
            have : (2 * c + 1) * 2 ^ h = 2 ^ h * 2 * c + 2 ^ h := by ring
            omega
          rw [hdecomp, Nat.add_mul_mod_self_left, Nat.mod_eq_of_lt (by rw [Nat.pow_succ]; omega)]
        refine ⟨_, _, hpath, fun J1 rest hJ => ?_⟩
        rw [List.singleton_append, shiftWhileOdd_eq h _ _ hmod,
          evalConsistencyLoop_cons_even hs (by rw [shiftRight_eq_of hq]; omega) (hshift J1 hJ),
          highestDigest_eq hq, highestDigest_eq hj, ← Nat.shiftRight_add, ← Nat.shiftRight_add]
        nth_rewrite 3 [hik']
        rw [← hhalves, two_mul_mul_two_pow]
    · -- the old tree ends inside the odd half: its path, then the even half on both roots
      have hik : ¬ i ≤ (2 * c + 1) * 2 ^ h := by have := le_of_div_two_pow hq; omega
      have hpath : consistencyPath hs L i (h + 1) ((c + 1) * 2 ^ (h + 1)) [] =
          consistencyPath hs L i h ((c + 1) * 2 ^ (h + 1)) [] ++
            [nodeDigest hs L ((2 * c + 1) * 2 ^ h) h] := by
        rw [consistencyPath, if_pos hodd, hj, if_neg hik, if_neg (by omega), consistencyPath_acc]
      obtain ⟨q0, qs, hQ, hev⟩ := ih (2 * c + 1) i hi hq (hsize ▸ hlt) (hsize ▸ hL)
      rw [← hsize] at hQ hev
      refine ⟨q0, qs ++ [nodeDigest hs L ((2 * c + 1) * 2 ^ h) h],
        by rw [hpath, hQ]; rfl, fun J1 rest hJ => ?_⟩
      rw [List.append_assoc, List.singleton_append, hev J1 _ (hne J1 hJ),
        evalConsistencyLoop_cons_odd hs _ (by rw [shiftRight_eq_of hq]; omega), nodeDigest_odd,
        ← mthRange_halves (treeScheme hs) hq (by omega), ← hhalves, ← Nat.shiftRight_add,
        ← Nat.shiftRight_add, two_mul_mul_two_pow]

/-- The last step on the right edge: the old tree ends in the even half of node `c` of level
`h + 1` and the new one in its odd half. The odd half's root joins the new root on the right;
the positions have then met, and the left siblings fold both roots up to the two trees'. -/
theorem consistency_spine_last {h c i j : Nat} {acc : List D}
    (hsib : LeftSiblings hs L (h + 1) c acc) (hi : 1 ≤ i) (hij : (i - 1) / 2 ^ (h + 1) = c)
    (hc : (j - 1) / 2 ^ (h + 1) = c) (hqi : (i - 1) / 2 ^ h = 2 * c)
    (hqj : (j - 1) / 2 ^ h = 2 * c + 1) (hL : j ≤ L.length) :
    evalConsistencyLoop hs (highestDigest hs L j h :: acc) ((i - 1) >>> h) ((j - 1) >>> h)
        (mthRange (treeScheme hs) L (2 * c * 2 ^ h) i)
        (mthRange (treeScheme hs) L (2 * c * 2 ^ h) ((2 * c + 1) * 2 ^ h)) =
      (mth (treeScheme hs) (L.take i), mth (treeScheme hs) (L.take j)) := by
  have hj1 : 1 ≤ j := Nat.pos_of_ne_zero fun h0 => by simp [h0] at hqj
  have hiL : i ≤ L.length := by have := lt_of_div_two_pow hqi; have := le_of_div_two_pow hqj; omega
  rw [evalConsistencyLoop_cons_even hs (by rw [shiftRight_eq_of hqi]; omega)
      (by rw [shiftRight_eq_of hqi, shiftRight_eq_of hqj]; omega),
    highestDigest_eq hqj, ← mthRange_halves (treeScheme hs) hqj hL, ← Nat.shiftRight_add,
    ← Nat.shiftRight_add, shiftRight_eq_of hij, shiftRight_eq_of hc, evalConsistencyLoop_self,
    two_mul_mul_two_pow]
  exact Prod.ext (hsib i hi hij hiL) (hsib j hj1 hc hL)

/-- **On the right edge**, with `acc` the left siblings of the node both trees' ends share at
level `H`, the verifier computes the two trees' roots from what the loop returns. -/
theorem consistencyPath_spine (H : Nat) :
    ∀ j acc i, LeftSiblings hs L H ((j - 1) / 2 ^ H) acc → 1 ≤ i →
      (i - 1) / 2 ^ H = (j - 1) / 2 ^ H → i < j → j ≤ L.length →
      evalConsistency hs (consistencyPath hs L i H j acc) i j =
        some (mth (treeScheme hs) (L.take i), mth (treeScheme hs) (L.take j)) := by
  induction H with
  | zero =>
    intro j acc i _ hi hij hlt _
    simp at hij
    omega
  | succ h ih =>
    intro j acc i hsib hi hij hlt hL
    obtain ⟨c, hc⟩ : ∃ c, (j - 1) / 2 ^ (h + 1) = c := ⟨_, rfl⟩
    rw [hc] at hsib hij
    have hqle : (i - 1) / 2 ^ h ≤ (j - 1) / 2 ^ h := Nat.div_le_div_right (by omega)
    rcases div_two_pow_halves hc with hqj | hqj <;> rcases div_two_pow_halves hij with hqi | hqi
    · -- bit `h` of `j - 1` is clear: one level down, same node
      have hpath : consistencyPath hs L i (h + 1) j acc = consistencyPath hs L i h j acc := by
        rw [consistencyPath, if_neg (by omega)]
      rw [hpath]
      exact ih j acc i (hqj ▸ hsib.even) hi (hqi.trans hqj.symm) hlt hL
    · omega
    · have hk : (2 * c + 1) * 2 ^ h ≤ L.length := by have := le_of_div_two_pow hqj; omega
      by_cases hik : i < (2 * c + 1) * 2 ^ h
      · -- the old tree ends left of the split, strictly inside the even half
        have hpath : consistencyPath hs L i (h + 1) j acc =
            consistencyPath hs L i h ((2 * c + 1) * 2 ^ h) [] ++ highestDigest hs L j h :: acc := by
          rw [consistencyPath, if_pos (by omega), hqj, if_pos hik.le, if_pos hik]
        obtain ⟨q0, qs, hQ, hev⟩ := consistencyPath_perfect hs L h (2 * c) i hi hqi hik hk
        rw [hpath, hQ, List.cons_append]
        simp only [evalConsistency]
        rw [hev (j - 1) _ (by omega), consistency_spine_last hs L hsib hi hij hc hqi hqj hL]
      · -- the old tree ends at the split
        have hik' : i = (2 * c + 1) * 2 ^ h := by have := lt_of_div_two_pow hqi; omega
        have hpath : consistencyPath hs L i (h + 1) j acc =
            highestDigest hs L i h :: highestDigest hs L j h :: acc := by
          rw [consistencyPath, if_pos (by omega), hqj, if_pos (by omega), if_neg hik]
        have hmod : (i - 1) % 2 ^ (h + 1) = 2 ^ h - 1 := by
          have hP := Nat.two_pow_pos h
          have hdecomp : i - 1 = (2 ^ h - 1) + 2 ^ (h + 1) * c := by
            rw [hik', Nat.pow_succ]
            have : (2 * c + 1) * 2 ^ h = 2 ^ h * 2 * c + 2 ^ h := by ring
            omega
          rw [hdecomp, Nat.add_mul_mod_self_left, Nat.mod_eq_of_lt (by rw [Nat.pow_succ]; omega)]
        rw [hpath]
        simp only [evalConsistency]
        rw [shiftWhileOdd_eq h _ _ hmod, highestDigest_eq hqi]
        have hlast := consistency_spine_last hs L hsib hi hij hc hqi hqj hL
        rw [← hik'] at hlast
        rw [hlast]
    · -- the old tree ends right of the split: the left part joins the left siblings
      have hik : ¬ i ≤ (2 * c + 1) * 2 ^ h := by have := le_of_div_two_pow hqi; omega
      have hpath : consistencyPath hs L i (h + 1) j acc =
          consistencyPath hs L i h j (nodeDigest hs L ((2 * c + 1) * 2 ^ h) h :: acc) := by
        rw [consistencyPath, if_pos (by omega), hqj, if_neg hik, if_neg (by omega)]
      rw [hpath, nodeDigest_odd]
      exact ih j _ i (hqj ▸ hsib.odd) hi (hqi.trans hqj.symm) hlt hL

/-- A tree consistent with itself: at the first set bit of `j - 1`, the path is the two halves'
roots, which the verifier joins on both sides. -/
theorem consistencyPath_self (H : Nat) :
    ∀ j, 2 ≤ j → (j - 1) / 2 ^ H = 0 → j ≤ L.length →
      evalConsistency hs (consistencyPath hs L j H j []) j j =
        some (mth (treeScheme hs) (L.take j), mth (treeScheme hs) (L.take j)) := by
  induction H with
  | zero =>
    intro j hj h0 _
    simp at h0
    omega
  | succ h ih =>
    intro j hj h0 hL
    rcases div_two_pow_halves h0 with hq | hq
    · have hpath : consistencyPath hs L j (h + 1) j [] = consistencyPath hs L j h j [] := by
        rw [consistencyPath, if_neg (by omega)]
      rw [hpath]
      exact ih j hj (by omega) hL
    · -- the top bit: `j` lies right of the split at `2 ^ h`
      have hik : ¬ j ≤ (j - 1) / 2 ^ h * 2 ^ h := by
        rw [hq]
        have := le_of_div_two_pow hq
        omega
      have hpath : consistencyPath hs L j (h + 1) j [] =
          [highestDigest hs L j h, nodeDigest hs L ((2 * 0 + 1) * 2 ^ h) h] := by
        rw [consistencyPath, if_pos (by omega), if_neg hik, if_pos rfl, hq]
      obtain ⟨m, hm⟩ := shiftWhileOdd_self (j - 1)
      rw [hpath]
      simp only [evalConsistency]
      rw [hm, evalConsistencyLoop_self, nodeDigest_odd, highestDigest_eq hq,
        evalLastInclusion_cons, evalLastInclusion_nil, ← mthRange_halves (treeScheme hs) hq hL,
        Nat.mul_zero, Nat.zero_mul, mthRange_zero]

/-- The path of a one-leaf tree is empty. -/
theorem consistencyPath_one (H : Nat) : consistencyPath hs L 1 H 1 [] = [] := by
  induction H with
  | zero => rfl
  | succ h ih => rw [consistencyPath, if_neg (by simp), ih]

/-! ## 6. The verifiers accept the paths -/

/-- The top of a tree of size `j`: both the leaf and the last leaf are in node `0` of the level
`bits.Len64(j - 1)`, and there are no left siblings. -/
theorem div_size_eq_zero {i j : Nat} (hij : i ≤ j) : (i - 1) / 2 ^ Nat.size (j - 1) = 0 :=
  Nat.div_eq_of_lt (lt_of_le_of_lt (by omega) (Nat.lt_size_self _))

theorem leaf_eq_mthRange {i : Nat} {d : List UInt8} (hi : 1 ≤ i) (hd : L[i - 1]? = some d) :
    (treeScheme hs).leaf d = mthRange (treeScheme hs) L (i - 1) i := by
  have h := mthRange_succ (treeScheme hs) hd
  rw [Nat.sub_add_cancel hi] at h
  exact h.symm

variable [DecidableEq D]

/-- **`VerifyInclusion` accepts the inclusion path** of every leaf of every tree. -/
theorem verifyInclusion_inclusionPath {i j : Nat} {d : List UInt8} (hi : 1 ≤ i) (hij : i ≤ j)
    (hj : j ≤ L.length) (hd : L[i - 1]? = some d) :
    verifyInclusion hs (inclusionPath hs L i (Nat.size (j - 1)) j []) i j ((treeScheme hs).leaf d)
      (mth (treeScheme hs) (L.take j)) = true := by
  have h0 := div_size_eq_zero (Nat.le_refl j)
  obtain ⟨heval, hne⟩ := inclusionPath_spine hs L (Nat.size (j - 1)) j [] i
    (by rw [h0]; exact leftSiblings_nil _) hi ((div_size_eq_zero hij).trans h0.symm) hij hj
  unfold verifyInclusion evalInclusion
  rw [if_neg (fun hg => by
      rcases hg with hg | hg | ⟨hlt, hlen⟩
      · omega
      · omega
      · exact hne hlt (List.eq_nil_of_length_eq_zero hlen)),
    leaf_eq_mthRange hs L hi hd, heval]
  exact decide_eq_true rfl

/-- **`VerifyLastInclusion` accepts the inclusion path of the last leaf.** -/
theorem verifyLastInclusion_inclusionPath {j : Nat} {d : List UInt8} (hj1 : 1 ≤ j)
    (hj : j ≤ L.length) (hd : L[j - 1]? = some d) :
    verifyLastInclusion hs (inclusionPath hs L j (Nat.size (j - 1)) j []) j ((treeScheme hs).leaf d)
      (mth (treeScheme hs) (L.take j)) = true := by
  have h0 := div_size_eq_zero (Nat.le_refl j)
  obtain ⟨heval, -⟩ := inclusionPath_spine hs L (Nat.size (j - 1)) j [] j
    (by rw [h0]; exact leftSiblings_nil _) hj1 rfl (Nat.le_refl j) hj
  rw [evalInclusionLoop_self hs _ _ j] at heval
  unfold verifyLastInclusion
  rw [if_neg (by omega), leaf_eq_mthRange hs L hj1 hd, heval]
  exact decide_eq_true rfl

/-- **`VerifyConsistency` accepts the consistency path** between every two sizes of every tree. -/
theorem verifyConsistency_consistencyPath {i j : Nat} (hi : 1 ≤ i) (hij : i ≤ j)
    (hj : j ≤ L.length) :
    verifyConsistency hs (consistencyPath hs L i (Nat.size (j - 1)) j []) i j
      (mth (treeScheme hs) (L.take i)) (mth (treeScheme hs) (L.take j)) = true := by
  -- the path, once it is known to be read by `EvalConsistency`
  have haccept : ∀ p, evalConsistency hs p i j =
      some (mth (treeScheme hs) (L.take i), mth (treeScheme hs) (L.take j)) →
      verifyConsistency hs p i j (mth (treeScheme hs) (L.take i)) (mth (treeScheme hs) (L.take j))
        = true := by
    intro p hp
    have hlen : p.length ≠ 0 := fun h0 => by
      rw [List.eq_nil_of_length_eq_zero h0] at hp
      cases hp
    unfold verifyConsistency
    rw [if_neg (by omega), if_neg (by omega), hp]
    exact decide_eq_true ⟨rfl, rfl⟩
  rcases Nat.lt_or_ge i j with hlt | hge
  · have h0 := div_size_eq_zero (Nat.le_refl j)
    exact haccept _ (consistencyPath_spine hs L _ j [] i (by rw [h0]; exact leftSiblings_nil _) hi
      ((div_size_eq_zero hij).trans h0.symm) hlt hj)
  · have hji : i = j := by omega
    subst hji
    rcases Nat.lt_or_ge i 2 with h1 | h2
    · -- a tree of one leaf: the path is empty and the verifier compares the roots
      have hi1 : i = 1 := by omega
      subst hi1
      rw [consistencyPath_one]
      unfold verifyConsistency
      rw [if_neg (by simp), if_pos ⟨rfl, rfl⟩]
      exact decide_eq_true rfl
    · exact haccept _ (consistencyPath_self hs L _ i h2 (div_size_eq_zero (Nat.le_refl i)) hj)

end Immudb.Ahtree
