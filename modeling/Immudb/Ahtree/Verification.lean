import Immudb.Ahtree.Layout

/-!
# `Immudb/Ahtree/Verification.lean` — the verifiers of AHtree proofs

`embedded/ahtree/verification.go`, line for line. A verifier never sees the tree: it folds the
proof's digests into a root, choosing at each step whether the running digest is a left or a
right child from the bits of the positions it was given. `EvalInclusion` walks `i - 1` and
`j - 1` together, `EvalConsistency` first skips the levels where the old tree's last node is a
right child and then folds two roots at once, and `EvalLastInclusion` folds every sibling in
on the left.

**What the verifiers do not check.** None of them compares the length of the proof with the
height the positions imply. A proof that is too short or too long is folded all the same, and
each digest it holds is placed by the parity of a position that has already run out: past the
top, `i1 = j1 = 0`, and every further digest goes on the left. That is the fact behind the
forged dual proofs of `Immudb/Store/Verification.lean`.

Go's `i - 1` on `uint64` wraps at `i = 0`; the verifiers reject `i = 0` before they evaluate,
so the model's truncated subtraction agrees with the code on every call that is made.
-/

set_option autoImplicit false

namespace Immudb.Ahtree

open Merkle Hashing

variable {D : Type} (hs : Hasher D)

/-! ## 1. Inclusion -/

/-- The loop of `EvalInclusion`: the running digest is a left child while `i1` is even and has
not met `j1`, a right child otherwise. -/
def evalInclusionLoop : List D → Nat → Nat → D → D
  | [], _, _, ciRoot => ciRoot
  | h :: iproof, i1, j1, ciRoot =>
    let ciRoot :=
      if i1 % 2 = 0 ∧ i1 ≠ j1 then (treeScheme hs).node ciRoot h else (treeScheme hs).node h ciRoot
    evalInclusionLoop iproof (i1 >>> 1) (j1 >>> 1) ciRoot

/-- `EvalInclusion`: the root the proof leads to from the leaf at position `i` of a tree of
size `j`. -/
def evalInclusion (iproof : List D) (i j : Nat) (iLeaf : D) : D :=
  evalInclusionLoop hs iproof (i - 1) (j - 1) iLeaf

/-- `VerifyInclusion`. -/
def verifyInclusion [DecidableEq D] (iproof : List D) (i j : Nat) (iLeaf jRoot : D) : Bool :=
  if i > j ∨ i = 0 ∨ (i < j ∧ iproof.length = 0) then false
  else decide (jRoot = evalInclusion hs iproof i j iLeaf)

/-! ## 2. Consistency -/

/-- The first loop of `EvalConsistency`: `for fn%2 == 1 { fn >>= 1; sn >>= 1 }`. -/
def shiftWhileOdd (fn sn : Nat) : Nat × Nat :=
  if fn % 2 = 1 then shiftWhileOdd (fn >>> 1) (sn >>> 1) else (fn, sn)
termination_by fn
decreasing_by rw [Nat.shiftRight_one]; omega

/-- The inner loop of `EvalConsistency`: `for fn%2 == 0 && fn != 0 { fn >>= 1; sn >>= 1 }`. -/
def shiftWhileEven (fn sn : Nat) : Nat × Nat :=
  if fn % 2 = 0 ∧ fn ≠ 0 then shiftWhileEven (fn >>> 1) (sn >>> 1) else (fn, sn)
termination_by fn
decreasing_by rw [Nat.shiftRight_one]; omega

/-- The main loop of `EvalConsistency`, over `cproof[1:]`. A digest joins both roots on the
left where the old tree's node is a right child or the two paths have met; otherwise it
extends the new root alone, on the right. -/
def evalConsistencyLoop : List D → Nat → Nat → D → D → D × D
  | [], _, _, ciRoot, cjRoot => (ciRoot, cjRoot)
  | h :: cproof, fn, sn, ciRoot, cjRoot =>
    if fn % 2 = 1 ∨ fn = sn then
      let p := shiftWhileEven fn sn
      evalConsistencyLoop cproof (p.1 >>> 1) (p.2 >>> 1)
        ((treeScheme hs).node h ciRoot) ((treeScheme hs).node h cjRoot)
    else
      evalConsistencyLoop cproof (fn >>> 1) (sn >>> 1) ciRoot ((treeScheme hs).node cjRoot h)

/-- `EvalConsistency`: the roots of the trees of sizes `i` and `j` the proof leads to. Go reads
`cproof[0]` unguarded and panics on an empty proof: that is `none`. -/
def evalConsistency (cproof : List D) (i j : Nat) : Option (D × D) :=
  let p := shiftWhileOdd (i - 1) (j - 1)
  match cproof with
  | [] => none
  | c :: cproof => some (evalConsistencyLoop hs cproof p.1 p.2 c c)

/-- `VerifyConsistency`. -/
def verifyConsistency [DecidableEq D] (cproof : List D) (i j : Nat) (iRoot jRoot : D) : Bool :=
  if i > j ∨ i = 0 ∨ (i < j ∧ cproof.length = 0) then false
  else if i = j ∧ cproof.length = 0 then decide (iRoot = jRoot)
  else
    match evalConsistency hs cproof i j with
    | some (ciRoot, cjRoot) => decide (iRoot = ciRoot ∧ jRoot = cjRoot)
    -- not reached: the proof is not empty here
    | none => false

/-! ## 3. Inclusion of the last leaf -/

/-- `EvalLastInclusion`: every sibling joins on the left. Go shifts `i - 1` along and never
reads it. -/
def evalLastInclusion (iproof : List D) (_i : Nat) (leaf : D) : D :=
  iproof.foldl (fun root h => (treeScheme hs).node h root) leaf

/-- `VerifyLastInclusion`. -/
def verifyLastInclusion [DecidableEq D] (iproof : List D) (i : Nat) (leaf root : D) : Bool :=
  if i = 0 then false else decide (root = evalLastInclusion hs iproof i leaf)

/-! ## 4. How the loops unfold -/

theorem shiftWhileOdd_of_even {fn : Nat} (sn : Nat) (h : fn % 2 = 0) :
    shiftWhileOdd fn sn = (fn, sn) := by
  rw [shiftWhileOdd, if_neg (by omega)]

theorem shiftWhileEven_of_odd {fn : Nat} (sn : Nat) (h : fn % 2 = 1) :
    shiftWhileEven fn sn = (fn, sn) := by
  rw [shiftWhileEven, if_neg (by omega)]

@[simp] theorem shiftWhileEven_zero (sn : Nat) : shiftWhileEven 0 sn = (0, sn) := by
  rw [shiftWhileEven, if_neg (by omega)]

/-- The first loop of `EvalConsistency` strips the `H` trailing ones of a position whose bit `H`
is clear. -/
theorem shiftWhileOdd_eq (H : Nat) :
    ∀ x y, x % 2 ^ (H + 1) = 2 ^ H - 1 → shiftWhileOdd x y = (x >>> H, y >>> H) := by
  induction H with
  | zero =>
    intro x y hx
    rw [shiftWhileOdd_of_even y (by simpa using hx)]
    rfl
  | succ H ih =>
    intro x y hx
    have hsplit := Bits.mod_two_pow_succ x (H + 1)
    have hpow : 2 ^ (H + 1) = 2 * 2 ^ H := Nat.pow_succ'
    have hodd : x % 2 = 1 := by omega
    have hhalf : (x >>> 1) % 2 ^ (H + 1) = 2 ^ H - 1 := by
      rw [Nat.shiftRight_one]
      omega
    rw [shiftWhileOdd, if_pos hodd, ih _ _ hhalf, ← Nat.shiftRight_add, ← Nat.shiftRight_add,
      Nat.add_comm 1 H]

/-- On positions that have met, the inner loop of `EvalConsistency` keeps them met. -/
theorem shiftWhileEven_self (n : Nat) : ∃ m, shiftWhileEven n n = (m, m) := by
  induction n using Nat.strong_induction_on with
  | _ n ih =>
    rw [shiftWhileEven]
    split
    · exact ih _ (by rw [Nat.shiftRight_one]; omega)
    · exact ⟨n, rfl⟩

theorem shiftWhileOdd_self (n : Nat) : ∃ m, shiftWhileOdd n n = (m, m) := by
  induction n using Nat.strong_induction_on with
  | _ n ih =>
    rw [shiftWhileOdd]
    split
    · exact ih _ (by rw [Nat.shiftRight_one]; omega)
    · exact ⟨n, rfl⟩

theorem evalInclusionLoop_append (p q : List D) (i1 j1 : Nat) (r : D) :
    evalInclusionLoop hs (p ++ q) i1 j1 r =
      evalInclusionLoop hs q (i1 >>> p.length) (j1 >>> p.length) (evalInclusionLoop hs p i1 j1 r) := by
  induction p generalizing i1 j1 r with
  | nil => rfl
  | cons x p ih =>
    rw [List.cons_append, evalInclusionLoop, evalInclusionLoop, ih, List.length_cons,
      Nat.add_comm p.length 1, Nat.shiftRight_add, Nat.shiftRight_add]

/-- A digest joins on the right of an even position that has not met the other. -/
theorem evalInclusionLoop_cons_even {i1 j1 : Nat} (h1 : i1 % 2 = 0) (h2 : i1 ≠ j1) (x : D)
    (p : List D) (r : D) :
    evalInclusionLoop hs (x :: p) i1 j1 r =
      evalInclusionLoop hs p (i1 >>> 1) (j1 >>> 1) ((treeScheme hs).node r x) := by
  rw [evalInclusionLoop, if_pos ⟨h1, h2⟩]

/-- A digest joins on the left of an odd position. -/
theorem evalInclusionLoop_cons_odd {i1 : Nat} (j1 : Nat) (h : i1 % 2 = 1) (x : D)
    (p : List D) (r : D) :
    evalInclusionLoop hs (x :: p) i1 j1 r =
      evalInclusionLoop hs p (i1 >>> 1) (j1 >>> 1) ((treeScheme hs).node x r) := by
  rw [evalInclusionLoop, if_neg (by omega)]

/-- Where the old tree's node is a right child, a digest joins both roots on the left. -/
theorem evalConsistencyLoop_cons_odd {fn : Nat} (sn : Nat) (h : fn % 2 = 1) (x : D)
    (p : List D) (ci cj : D) :
    evalConsistencyLoop hs (x :: p) fn sn ci cj =
      evalConsistencyLoop hs p (fn >>> 1) (sn >>> 1)
        ((treeScheme hs).node x ci) ((treeScheme hs).node x cj) := by
  rw [evalConsistencyLoop, if_pos (Or.inl h), shiftWhileEven_of_odd sn h]

/-- Where it is a left child of a node the new tree extends, a digest joins the new root on the
right. -/
theorem evalConsistencyLoop_cons_even {fn sn : Nat} (h1 : fn % 2 = 0) (h2 : fn ≠ sn) (x : D)
    (p : List D) (ci cj : D) :
    evalConsistencyLoop hs (x :: p) fn sn ci cj =
      evalConsistencyLoop hs p (fn >>> 1) (sn >>> 1) ci ((treeScheme hs).node cj x) := by
  rw [evalConsistencyLoop, if_neg (by omega)]

@[simp] theorem evalLastInclusion_nil (i : Nat) (r : D) : evalLastInclusion hs [] i r = r := rfl

@[simp] theorem evalLastInclusion_cons (x : D) (p : List D) (i : Nat) (r : D) :
    evalLastInclusion hs (x :: p) i r = evalLastInclusion hs p i ((treeScheme hs).node x r) := rfl

/-- Once the two positions have met, the inclusion loop puts every digest on the left: a proof
read past the top of the tree is folded as the proof of a last leaf. -/
theorem evalInclusionLoop_self (iproof : List D) (n i : Nat) (r : D) :
    evalInclusionLoop hs iproof n n r = evalLastInclusion hs iproof i r := by
  induction iproof generalizing n r with
  | nil => rfl
  | cons h iproof ih =>
    simp only [evalInclusionLoop, ne_eq, not_true_eq_false, and_false, if_false]
    exact ih (n >>> 1) _

/-- Once the two positions have met, both roots take every digest on the left. -/
theorem evalConsistencyLoop_self (p : List D) (n : Nat) (ci cj : D) :
    evalConsistencyLoop hs p n n ci cj = (evalLastInclusion hs p 0 ci, evalLastInclusion hs p 0 cj) := by
  induction p generalizing n ci cj with
  | nil => rfl
  | cons x p ih =>
    obtain ⟨m, hm⟩ := shiftWhileEven_self n
    rw [evalConsistencyLoop, if_pos (Or.inr rfl), hm]
    exact ih _ _ _

/-! ## 5. What an inclusion proof binds

Under an ideal hash a node determines its two children, so two proofs *of the same length* that
lead from two leaves at one position to one root have the same leaf. The verifier does not fix
the length: `verifyInclusion_length_ne` is all that is left of the binding without it. -/

section Binding

variable {hs} (hi : hs.Ideal)
include hi

theorem node_inj {a b c d : D} (h : (treeScheme hs).node a b = (treeScheme hs).node c d) :
    a = c ∧ b = d := by
  have hbytes : [NodePrefix] ++ hs.bytes a ++ hs.bytes b = [NodePrefix] ++ hs.bytes c ++ hs.bytes d :=
    by simpa using hi.sum_injective h
  obtain ⟨-, hac, hbd⟩ := hi.of_append_bytes rfl hbytes
  exact ⟨hac, hi.bytes_injective hbd⟩

/-- The inclusion loop is injective in the leaf and the proof, over proofs of one length. -/
theorem evalInclusionLoop_injective {p q : List D} (hl : p.length = q.length) {i1 j1 : Nat}
    {r s : D} (h : evalInclusionLoop hs p i1 j1 r = evalInclusionLoop hs q i1 j1 s) :
    r = s ∧ p = q := by
  induction p generalizing q i1 j1 r s with
  | nil =>
    cases q with
    | nil => exact ⟨h, rfl⟩
    | cons _ _ => simp at hl
  | cons x p ih =>
    cases q with
    | nil => simp at hl
    | cons y q =>
      simp only [evalInclusionLoop] at h
      obtain ⟨hnode, rfl⟩ := ih (by simpa using hl) h
      -- both proofs take the same side at this level: the positions are the same
      split_ifs at hnode
      · obtain ⟨rfl, rfl⟩ := node_inj hi hnode
        exact ⟨rfl, rfl⟩
      · obtain ⟨rfl, rfl⟩ := node_inj hi hnode
        exact ⟨rfl, rfl⟩

/-- **Two leaves that verify at one position against one root need proofs of different
lengths.** -/
theorem verifyInclusion_length_ne [DecidableEq D] {p q : List D} {i j : Nat} {l1 l2 root : D}
    (h1 : verifyInclusion hs p i j l1 root = true) (h2 : verifyInclusion hs q i j l2 root = true)
    (hne : l1 ≠ l2) : p.length ≠ q.length := by
  intro hl
  unfold verifyInclusion at h1 h2
  split_ifs at h1 h2
  have he1 : root = evalInclusion hs p i j l1 := of_decide_eq_true h1
  have he2 : root = evalInclusion hs q i j l2 := of_decide_eq_true h2
  exact hne (evalInclusionLoop_injective hi hl (he1.symm.trans he2)).1

end Binding

/-- In a tree of one leaf, the root verifies as the leaf itself with no proof, and the leaf `[2]`
verifies at the same position with a proof of one digest. -/
theorem verifyInclusion_length_ne_one_leaf :
    verifyInclusion escape [] 1 1 (evalInclusion escape [[9]] 1 1 [2])
        (evalInclusion escape [[9]] 1 1 [2]) = true ∧
      verifyInclusion escape [[9]] 1 1 [2] (evalInclusion escape [[9]] 1 1 [2]) = true ∧
      ([] : List (List UInt8)).length ≠ [[9]].length :=
  have h1 : verifyInclusion escape [] 1 1 (evalInclusion escape [[9]] 1 1 [2])
      (evalInclusion escape [[9]] 1 1 [2]) = true := by decide
  have h2 : verifyInclusion escape [[9]] 1 1 [2] (evalInclusion escape [[9]] 1 1 [2]) = true := by
    decide
  ⟨h1, h2, verifyInclusion_length_ne escape_ideal h1 h2 (by decide)⟩

section Binding

variable {hs} (hi : hs.Ideal)
include hi

/-! ## 6. What a consistency proof binds

The consistency loop never needs the positions to be right: at each step a digest joins both
roots on the left or the new root alone on the right, and under an ideal hash either step, read
backwards from two tree hashes, peels a node off them. Joining both on the left takes the same
left subtree off both trees; joining the new one on the right takes the new tree's right part
away. Read back to the proof's first digest, which starts both roots, the two trees left are
equal, so the old tree is a prefix of the new one, whatever the proof's length. -/

/-- Under an ideal hash the tree hash can be read back. -/
theorem treeScheme_binding : (treeScheme hs).Binding where
  leaf_injective a b h := by simpa using hi.sum_injective h
  node_injective _ _ _ _ h := node_inj hi h
  leaf_ne_node x a b h := by
    have := hi.sum_injective h
    simp [LeafPrefix, NodePrefix] at this

/-- **The consistency loop, read backwards.** If the loop ends at the tree hashes of `A` and `B`,
it started from the tree hashes of two lists `A₀` and `B₀` such that `A` is a prefix of `B`
as soon as `A₀` is one of `B₀`. -/
theorem evalConsistencyLoop_sound {A B : List (List UInt8)} (hA : A ≠ []) (hB : B ≠ []) :
    ∀ (p : List D) (fn sn : Nat) (ci cj : D),
      evalConsistencyLoop hs p fn sn ci cj = (mth (treeScheme hs) A, mth (treeScheme hs) B) →
      ∃ A₀ B₀, A₀ ≠ [] ∧ B₀ ≠ [] ∧ ci = mth (treeScheme hs) A₀ ∧ cj = mth (treeScheme hs) B₀ ∧
        (A₀ <+: B₀ → A <+: B) := by
  have hS := treeScheme_binding hi
  intro p
  induction p with
  | nil =>
    intro fn sn ci cj h
    obtain ⟨rfl, rfl⟩ := Prod.mk.inj h
    exact ⟨A, B, hA, hB, rfl, rfl, id⟩
  | cons x p ih =>
    intro fn sn ci cj h
    rw [evalConsistencyLoop] at h
    split_ifs at h
    · -- `x` joins both roots on the left: it is the left subtree of both trees
      obtain ⟨A₁, B₁, hA₁, hB₁, hci, hcj, himp⟩ := ih _ _ _ _ h
      obtain ⟨hA₂, hxA, hciA⟩ := hS.eq_node hA₁ hci.symm
      obtain ⟨hB₂, hxB, hcjB⟩ := hS.eq_node hB₁ hcj.symm
      obtain ⟨hAl, hAr, -, -⟩ := split_parts hA₂
      obtain ⟨hBl, hBr, -, -⟩ := split_parts hB₂
      have hleft := hS.mth_injective hAl hBl (hxA.symm.trans hxB)
      refine ⟨_, _, hAr, hBr, hciA, hcjB, fun hpre => himp ?_⟩
      rw [← List.take_append_drop (split A₁.length) A₁, ← List.take_append_drop (split B₁.length) B₁,
        hleft]
      exact (List.prefix_append_right_inj _).mpr hpre
    · -- `x` joins the new root on the right: the new tree loses its right part
      obtain ⟨A₁, B₁, hA₁, hB₁, hci, hcj, himp⟩ := ih _ _ _ _ h
      obtain ⟨hB₂, hcjB, -⟩ := hS.eq_node hB₁ hcj.symm
      obtain ⟨hBl, -, -, -⟩ := split_parts hB₂
      exact ⟨A₁, _, hA₁, hBl, hci, hcjB, fun hpre => himp (hpre.trans (List.take_prefix _ _))⟩

/-- **A verified consistency proof binds the old tree to a prefix of the new one**: whatever the
proof, if `VerifyConsistency` accepts the tree hashes of `A` and `B` at their sizes, then `A` is
a prefix of `B`, unless `sum` has a collision. -/
theorem verifyConsistency_sound [DecidableEq D] {A B : List (List UInt8)} (hA : 1 ≤ A.length)
    (hAB : A.length ≤ B.length) (p : List D)
    (h : verifyConsistency hs p A.length B.length (mth (treeScheme hs) A)
      (mth (treeScheme hs) B) = true) :
    A <+: B := by
  have hS := treeScheme_binding hi
  have hA0 : A ≠ [] := List.ne_nil_of_length_pos hA
  have hB0 : B ≠ [] := List.ne_nil_of_length_pos (by omega)
  unfold verifyConsistency at h
  split_ifs at h with h1 h2
  · -- equal sizes and no proof: the two roots are compared
    rw [hS.mth_injective hA0 hB0 (of_decide_eq_true h)]
  · cases p with
    | nil => simp at h1 h2; omega
    | cons c p =>
      -- the proof's first digest starts both roots
      simp only [evalConsistency] at h
      obtain ⟨hci, hcj⟩ := of_decide_eq_true h
      obtain ⟨A₀, B₀, hA₀, hB₀, hc1, hc2, himp⟩ :=
        evalConsistencyLoop_sound hi hA0 hB0 p _ _ c c (by rw [hci, hcj])
      have hAB₀ : A₀ = B₀ := hS.mth_injective hA₀ hB₀ (hc1.symm.trans hc2)
      exact himp (hAB₀ ▸ List.prefix_refl A₀)

end Binding

/-- A tree of one leaf and its extension by a second, with the proof `ConsistencyProof(1, 2)`
gives: the leaf and the new one. -/
theorem verifyConsistency_sound_one_two :
    verifyConsistency escape [(treeScheme escape).leaf [1], (treeScheme escape).leaf [2]] 1 2
      (mth (treeScheme escape) [[1]]) (mth (treeScheme escape) [[1], [2]]) = true ∧
    ([[1]] : List (List UInt8)) <+: [[1], [2]] := by
  have hsplit : split 2 = 1 := split_eq (b := 0) (by decide) (by decide)
  have hv : verifyConsistency escape [(treeScheme escape).leaf [1], (treeScheme escape).leaf [2]]
      1 2 (mth (treeScheme escape) [[1]]) (mth (treeScheme escape) [[1], [2]]) = true := by
    rw [mth_of_two_le _ (show 2 ≤ ([[1], [2]] : List (List UInt8)).length by decide)]
    simp [verifyConsistency, evalConsistency, shiftWhileOdd_of_even, evalConsistencyLoop, hsplit]
  exact ⟨hv, verifyConsistency_sound escape_ideal (A := [[1]]) (B := [[1], [2]]) (by decide)
    (by decide) _ hv⟩

end Immudb.Ahtree
