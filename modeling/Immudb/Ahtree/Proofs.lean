import Immudb.Ahtree.Paths
import Immudb.Ahtree.Refinement

/-!
# `Immudb/Ahtree/Proofs.lean` — `InclusionProof` and `ConsistencyProof`

`embedded/ahtree/ahtree.go`, the proof generators, as the Go code computes them: a loop over the
bits of `j - 1` from the top that reads digests with `node` and `highestNode` and, at the split
that holds the leaf, calls itself on the left part and returns.

Section 2 proves that on a tree whose digest log holds the layout of its leaves, each loop
returns the path of `Immudb/Ahtree/Paths.lean` and touches only the digest cache; section 3 puts
that together with the verifiers' acceptance of the paths, for every tree a run of calls can
build.

Go's `j - 1` wraps at `j = 0`, where `InclusionProof(0, 0)` walks 64 set bits; the model's
`j - 1` is `0` there and it returns the empty proof. No call with `1 ≤ i` meets the difference.
-/

set_option autoImplicit false

namespace Immudb.Ahtree

open Merkle Hashing Bits Machine

variable {D : Type}

/-! ## 1. The generators -/

/-- The loop of `highestNode`: `l` plus the set bits of `x` among its bits `r - 1, …, 0`. -/
def highestNodeLoop (x : Nat) : Nat → Nat → Nat
  | 0, l => l
  | r + 1, l => highestNodeLoop x r (if x &&& (1 <<< r) > 0 then l + 1 else l)

/-- `highestNode(i, d)`: the digest of the highest subtree below level `d` that ends at leaf
`i`. -/
def highestNode (i d : Nat) : AhtM D D := node i (highestNodeLoop (i - 1) d 0)

/-- The loop of `inclusionProof(i, j, height)`: bits `h - 1, …, 0` of `j - 1` are left, and
`proof` holds the digests prepended so far. -/
def inclusionProofLoop (i : Nat) : Nat → Nat → List D → AhtM D (List D)
  | 0, _, proof => pure proof
  | h + 1, j, proof =>
    if (j - 1) &&& (1 <<< h) > 0 then
      let k := (j - 1) >>> h <<< h
      if i ≤ k then do
        let hNode ← highestNode j h
        let p ← inclusionProofLoop i h k []
        pure (p ++ hNode :: proof)
      else do
        let n ← node k h
        inclusionProofLoop i h j (n :: proof)
    else inclusionProofLoop i h j proof

/-- `inclusionProof(i, j, height)`. -/
def inclusionProof (i j height : Nat) : AhtM D (List D) := inclusionProofLoop i height j []

/-- `InclusionProof(i, j)`. -/
def InclusionProof (i j : Nat) : AhtM D (List D) := do
  let t ← get
  if t.closed then throw .alreadyClosed
  if i > j then throw .illegalArguments
  if j > t.size then throw .unexistentData
  -- `bits.Len64(j-1)`
  inclusionProof i j (Nat.size (j - 1))

/-- The loop of `consistencyProof(i, j, height)`. -/
def consistencyProofLoop (i : Nat) : Nat → Nat → List D → AhtM D (List D)
  | 0, _, proof => pure proof
  | h + 1, j, proof =>
    if (j - 1) &&& (1 <<< h) > 0 then
      let k := (j - 1) >>> h <<< h
      if i ≤ k then do
        let hNode ← highestNode j h
        let proof := hNode :: proof
        let proof ← if i < k then do
            let p ← consistencyProofLoop i h k []
            pure (p ++ proof)
          else pure proof
        if i = k then do
          let hNode ← highestNode i h
          pure (hNode :: proof)
        else pure proof
      else do
        let n ← node k h
        let proof := n :: proof
        if i = j then do
          let hNode ← highestNode i h
          pure (hNode :: proof)
        else consistencyProofLoop i h j proof
    else consistencyProofLoop i h j proof

/-- `consistencyProof(i, j, height)`. -/
def consistencyProof (i j height : Nat) : AhtM D (List D) := consistencyProofLoop i height j []

/-- `ConsistencyProof(i, j)`. -/
def ConsistencyProof (i j : Nat) : AhtM D (List D) := do
  let t ← get
  if t.closed then throw .alreadyClosed
  if i > j then throw .illegalArguments
  if j > t.size then throw .unexistentData
  consistencyProof i j (Nat.size (j - 1))

/-! ## 2. What the generators read -/

section Run

variable {hs : Hasher D} {L : List (List UInt8)}

theorem highestNodeLoop_eq (x : Nat) : ∀ d l, highestNodeLoop x d l = l + ones (x % 2 ^ d) := by
  intro d
  induction d with
  | zero => intro l; rw [highestNodeLoop, Nat.pow_zero, Nat.mod_one, ones_zero, Nat.add_zero]
  | succ d ih =>
    intro l
    rw [highestNodeLoop, ih, ones_mod_two_pow_succ]
    by_cases hbit : x / 2 ^ d % 2 = 1
    · rw [if_pos ((and_one_shiftLeft_pos_iff _ _).mpr hbit)]
      omega
    · rw [if_neg fun hc => hbit ((and_one_shiftLeft_pos_iff _ _).mp hc)]
      omega

/-- `node(k, h)` at a multiple of `2 ^ h` reads the root of the `2 ^ h` leaves ending there. -/
theorem node_run {t : AHtree D} (hd : Digests t.dLog t.dCache (layout (treeScheme hs) L))
    {w h : Nat} (hw : 1 ≤ w) (hk : w * 2 ^ h ≤ L.length) :
    ∃ c, (node (w * 2 ^ h) h).run t = .ok (nodeDigest hs L (w * 2 ^ h) h) { t with dCache := c } ∧
      Digests t.dLog c (layout (treeScheme hs) L) := by
  apply nodeAt_run hd
  rw [getElem?_layout_level _ hw hk, nodeDigest, Nat.sub_one_mul]

theorem highestNode_run {t : AHtree D} (hd : Digests t.dLog t.dCache (layout (treeScheme hs) L))
    {i : Nat} (h : Nat) (hi : 1 ≤ i) (hiL : i ≤ L.length) :
    ∃ c, (highestNode i h).run t = .ok (highestDigest hs L i h) { t with dCache := c } ∧
      Digests t.dLog c (layout (treeScheme hs) L) := by
  unfold highestNode
  rw [highestNodeLoop_eq, Nat.zero_add]
  exact nodeAt_run hd (getElem?_layout _ h hi hiL)

/-- The facts about bit `h` of `j - 1` that every step of the two loops reads. -/
theorem split_facts {j h : Nat} (hbit : (j - 1) / 2 ^ h % 2 = 1) :
    (j - 1) &&& (1 <<< h) > 0 ∧ (j - 1) >>> h <<< h = (j - 1) / 2 ^ h * 2 ^ h ∧
      1 ≤ (j - 1) / 2 ^ h ∧ (j - 1) / 2 ^ h * 2 ^ h ≤ j - 1 ∧ 1 ≤ j :=
  ⟨(and_one_shiftLeft_pos_iff _ _).mpr hbit, shiftRight_shiftLeft _ _,
    Nat.pos_of_ne_zero fun h0 => by rw [h0] at hbit; simp at hbit,
    Nat.div_mul_le_self _ _, Nat.pos_of_ne_zero fun h0 => by simp [h0] at hbit⟩

theorem not_split {j h : Nat} (hbit : ¬ (j - 1) / 2 ^ h % 2 = 1) :
    ¬ (j - 1) &&& (1 <<< h) > 0 :=
  fun hc => hbit ((and_one_shiftLeft_pos_iff _ _).mp hc)

/-- **The inclusion loop returns the inclusion path**, and changes nothing but the cache. -/
theorem inclusionProofLoop_run (i H : Nat) :
    ∀ j acc (t : AHtree D), Digests t.dLog t.dCache (layout (treeScheme hs) L) → j ≤ L.length →
      ∃ c, (inclusionProofLoop i H j acc).run t =
          .ok (inclusionPath hs L i H j acc) { t with dCache := c } ∧
        Digests t.dLog c (layout (treeScheme hs) L) := by
  induction H with
  | zero => exact fun _ acc t hd _ => ⟨t.dCache, rfl, hd⟩
  | succ h ih =>
    intro j acc t hd hj
    by_cases hbit : (j - 1) / 2 ^ h % 2 = 1
    · obtain ⟨hcond, hk, hw, hkj, hj1⟩ := split_facts hbit
      by_cases hik : i ≤ (j - 1) / 2 ^ h * 2 ^ h
      · -- the right part's root, then the path in the left part
        obtain ⟨c1, hr1, hd1⟩ := highestNode_run hd h hj1 hj
        obtain ⟨c2, hr2, hd2⟩ := ih ((j - 1) / 2 ^ h * 2 ^ h) [] { t with dCache := c1 } hd1 (by omega)
        refine ⟨c2, ?_, hd2⟩
        rw [inclusionProofLoop, if_pos hcond, hk, if_pos hik, run_bind_ok hr1, run_bind_ok hr2,
          inclusionPath, if_pos hbit, if_pos hik]
        rfl
      · -- the left part's root, and on
        have hkL : (j - 1) / 2 ^ h * 2 ^ h ≤ L.length := by omega
        obtain ⟨c1, hr1, hd1⟩ := node_run hd hw hkL
        obtain ⟨c2, hr2, hd2⟩ := ih j _ { t with dCache := c1 } hd1 hj
        refine ⟨c2, ?_, hd2⟩
        rw [inclusionProofLoop, if_pos hcond, hk, if_neg hik, run_bind_ok hr1, hr2,
          inclusionPath, if_pos hbit, if_neg hik]
    · obtain ⟨c, hr, hd'⟩ := ih j acc t hd hj
      exact ⟨c, by rw [inclusionProofLoop, if_neg (not_split hbit), hr, inclusionPath,
        if_neg hbit], hd'⟩

/-- **The consistency loop returns the consistency path**, and changes nothing but the cache. -/
theorem consistencyProofLoop_run (i H : Nat) :
    ∀ j acc (t : AHtree D), Digests t.dLog t.dCache (layout (treeScheme hs) L) → j ≤ L.length →
      ∃ c, (consistencyProofLoop i H j acc).run t =
          .ok (consistencyPath hs L i H j acc) { t with dCache := c } ∧
        Digests t.dLog c (layout (treeScheme hs) L) := by
  induction H with
  | zero => exact fun _ acc t hd _ => ⟨t.dCache, rfl, hd⟩
  | succ h ih =>
    intro j acc t hd hj
    by_cases hbit : (j - 1) / 2 ^ h % 2 = 1
    · obtain ⟨hcond, hk, hw, hkj, hj1⟩ := split_facts hbit
      have hkL : (j - 1) / 2 ^ h * 2 ^ h ≤ L.length := by omega
      by_cases hik : i ≤ (j - 1) / 2 ^ h * 2 ^ h
      · obtain ⟨c1, hr1, hd1⟩ := highestNode_run hd h hj1 hj
        rcases Nat.lt_or_eq_of_le hik with hlt | heq
        · -- the old size ends inside the left part: its path there, then the right part's root
          obtain ⟨c2, hr2, hd2⟩ :=
            ih ((j - 1) / 2 ^ h * 2 ^ h) [] { t with dCache := c1 } hd1 hkL
          refine ⟨c2, ?_, hd2⟩
          rw [consistencyProofLoop, if_pos hcond, hk, if_pos hik, run_bind_ok hr1, if_pos hlt,
            run_bind_ok hr2, pure_bind]
          beta_reduce
          rw [if_neg (Nat.ne_of_lt hlt), consistencyPath, if_pos hbit, if_pos hik, if_pos hlt]
          rfl
        · -- the old size is the split: the roots of both parts
          have hi1 : 1 ≤ i := by
            have := Nat.mul_le_mul hw (Nat.one_le_two_pow (n := h))
            omega
          have hnlt : ¬ i < (j - 1) / 2 ^ h * 2 ^ h := by omega
          obtain ⟨c2, hr2, hd2⟩ := highestNode_run (t := { t with dCache := c1 }) hd1 h hi1 (by omega)
          refine ⟨c2, ?_, hd2⟩
          rw [consistencyProofLoop, if_pos hcond, hk, if_pos hik, run_bind_ok hr1,
            if_neg hnlt, pure_bind]
          beta_reduce
          rw [if_pos heq, run_bind_ok hr2, consistencyPath, if_pos hbit, if_pos hik,
            if_neg hnlt]
          rfl
      · -- the left part's root; then the old size is the new one, or the walk goes on
        obtain ⟨c1, hr1, hd1⟩ := node_run hd hw hkL
        by_cases hij : i = j
        · have hi1 : 1 ≤ i := by omega
          obtain ⟨c2, hr2, hd2⟩ := highestNode_run (t := { t with dCache := c1 }) hd1 h hi1 (by omega)
          refine ⟨c2, ?_, hd2⟩
          rw [consistencyProofLoop, if_pos hcond, hk, if_neg hik, run_bind_ok hr1, if_pos hij,
            run_bind_ok hr2, consistencyPath, if_pos hbit, if_neg hik, if_pos hij]
          rfl
        · obtain ⟨c2, hr2, hd2⟩ := ih j _ { t with dCache := c1 } hd1 hj
          refine ⟨c2, ?_, hd2⟩
          rw [consistencyProofLoop, if_pos hcond, hk, if_neg hik, run_bind_ok hr1, if_neg hij,
            hr2, consistencyPath, if_pos hbit, if_neg hik, if_neg hij]
    · obtain ⟨c, hr, hd'⟩ := ih j acc t hd hj
      exact ⟨c, by rw [consistencyProofLoop, if_neg (not_split hbit), hr, consistencyPath,
        if_neg hbit], hd'⟩

/-- **`InclusionProof(i, j)`** of an open tree, for `i ≤ j ≤ size`, returns the inclusion path. -/
theorem InclusionProof_run {t : AHtree D} {c : Content} (h : Stores hs t c)
    (hopen : t.closed = false) {i j : Nat} (hij : i ≤ j) (hj : j ≤ c.cur.length) :
    ∃ cache, (InclusionProof i j).run t =
        .ok (inclusionPath hs c.cur i (Nat.size (j - 1)) j []) { t with dCache := cache } ∧
      Stores hs { t with dCache := cache } c := by
  obtain ⟨cache, hrun, hd⟩ := inclusionProofLoop_run i (Nat.size (j - 1)) j [] t h.digests hj
  refine ⟨cache, ?_, h.withCache hd⟩
  have hsz : t.size = c.cur.length := h.size
  simp only [InclusionProof, inclusionProof, hopen, EStateM.run_bind, EStateM.run_get,
    Bool.false_eq_true, if_false, gt_iff_lt, if_neg (Nat.not_lt_of_le hij), hsz,
    if_neg (Nat.not_lt_of_le hj)]
  rw [hopen] at hrun
  exact hrun

/-- **`ConsistencyProof(i, j)`** of an open tree, for `i ≤ j ≤ size`, returns the consistency
path. -/
theorem ConsistencyProof_run {t : AHtree D} {c : Content} (h : Stores hs t c)
    (hopen : t.closed = false) {i j : Nat} (hij : i ≤ j) (hj : j ≤ c.cur.length) :
    ∃ cache, (ConsistencyProof i j).run t =
        .ok (consistencyPath hs c.cur i (Nat.size (j - 1)) j []) { t with dCache := cache } ∧
      Stores hs { t with dCache := cache } c := by
  obtain ⟨cache, hrun, hd⟩ := consistencyProofLoop_run i (Nat.size (j - 1)) j [] t h.digests hj
  refine ⟨cache, ?_, h.withCache hd⟩
  have hsz : t.size = c.cur.length := h.size
  simp only [ConsistencyProof, consistencyProof, hopen, EStateM.run_bind, EStateM.run_get,
    Bool.false_eq_true, if_false, gt_iff_lt, if_neg (Nat.not_lt_of_le hij), hsz,
    if_neg (Nat.not_lt_of_le hj)]
  rw [hopen] at hrun
  exact hrun

end Run

/-! ## 3. The verifiers accept what the tree generates -/

section Complete

variable [DecidableEq D] {hs : Hasher D}

/-- From a tree that stores `c`: the proof `InclusionProof(i, j)`, then the root `RootAt(j)`, and
`VerifyInclusion` accepts the first against the second for leaf `i`. -/
theorem inclusionProof_verifies {t : AHtree D} {c : Content} (h : Stores hs t c)
    (hopen : t.closed = false) {i j : Nat} (hi : 1 ≤ i) (hij : i ≤ j) (hj : j ≤ c.cur.length) :
    ∃ p rj t₁ t₂, (InclusionProof i j).run t = .ok p t₁ ∧ (rootAt j).run t₁ = .ok rj t₂ ∧
      ∀ d, c.cur[i - 1]? = some d → verifyInclusion hs p i j ((treeScheme hs).leaf d) rj = true := by
  obtain ⟨c1, hp, h1⟩ := InclusionProof_run h hopen hij hj
  obtain ⟨c2, hr, -⟩ := rootAt_run h1 hopen (by omega) hj
  exact ⟨_, _, _, _, hp, hr, fun d hd => verifyInclusion_inclusionPath hs c.cur hi hij hj hd⟩

/-- From a tree that stores `c`: the proof `ConsistencyProof(i, j)`, the roots `RootAt(i)` and
`RootAt(j)`, and `VerifyConsistency` accepts the proof between them. -/
theorem consistencyProof_verifies {t : AHtree D} {c : Content} (h : Stores hs t c)
    (hopen : t.closed = false) {i j : Nat} (hi : 1 ≤ i) (hij : i ≤ j) (hj : j ≤ c.cur.length) :
    ∃ p ri rj t₁ t₂ t₃, (ConsistencyProof i j).run t = .ok p t₁ ∧ (rootAt i).run t₁ = .ok ri t₂ ∧
      (rootAt j).run t₂ = .ok rj t₃ ∧ verifyConsistency hs p i j ri rj = true := by
  obtain ⟨c1, hp, h1⟩ := ConsistencyProof_run h hopen hij hj
  obtain ⟨c2, hri, h2⟩ := rootAt_run h1 hopen hi (by omega)
  obtain ⟨c3, hrj, -⟩ := rootAt_run h2 hopen (by omega) hj
  exact ⟨_, _, _, _, _, _, hp, hri, hrj, verifyConsistency_consistencyPath hs c.cur hi hij hj⟩

/-- From a tree that stores `c`: the proof `InclusionProof(j, j)`, the root `RootAt(j)`, and
`VerifyLastInclusion` accepts the first against the second for leaf `j`. -/
theorem lastInclusionProof_verifies {t : AHtree D} {c : Content} (h : Stores hs t c)
    (hopen : t.closed = false) {j : Nat} (hj1 : 1 ≤ j) (hj : j ≤ c.cur.length) :
    ∃ p rj t₁ t₂, (InclusionProof j j).run t = .ok p t₁ ∧ (rootAt j).run t₁ = .ok rj t₂ ∧
      ∀ d, c.cur[j - 1]? = some d → verifyLastInclusion hs p j ((treeScheme hs).leaf d) rj = true := by
  obtain ⟨c1, hp, h1⟩ := InclusionProof_run h hopen (Nat.le_refl j) hj
  obtain ⟨c2, hr, -⟩ := rootAt_run h1 hopen hj1 hj
  exact ⟨_, _, _, _, hp, hr, fun d hd => verifyLastInclusion_inclusionPath hs c.cur hj1 hj hd⟩

/-- **The generators and the verifiers agree.** After any sequence of calls from a new tree
whose reopens find no stale record, while it is open, for every `1 ≤ i ≤ j ≤ size`: `InclusionProof(i, j)` verifies leaf `i` against
`RootAt(j)`, `ConsistencyProof(i, j)` verifies `RootAt(i)` against `RootAt(j)`, and
`InclusionProof(j, j)` verifies leaf `j` against `RootAt(j)` by `VerifyLastInclusion`. -/
theorem run_proofs_verify (hs : Hasher D) (opts : Options) (ops : List Op)
    (hclean : Content.ReopensClean opts ops) (hopen : (Content.run opts ops).closed = false) {i j : Nat} (hi : 1 ≤ i) (hij : i ≤ j)
    (hj : j ≤ (Content.run opts ops).cur.length) :
    (∃ p rj t₁ t₂, (InclusionProof i j).run (run hs (empty opts) ops) = .ok p t₁ ∧
      (rootAt j).run t₁ = .ok rj t₂ ∧ ∀ d, (Content.run opts ops).cur[i - 1]? = some d →
        verifyInclusion hs p i j ((treeScheme hs).leaf d) rj = true) ∧
    (∃ p ri rj t₁ t₂ t₃, (ConsistencyProof i j).run (run hs (empty opts) ops) = .ok p t₁ ∧
      (rootAt i).run t₁ = .ok ri t₂ ∧ (rootAt j).run t₂ = .ok rj t₃ ∧
        verifyConsistency hs p i j ri rj = true) ∧
    (∃ p rj t₁ t₂, (InclusionProof j j).run (run hs (empty opts) ops) = .ok p t₁ ∧
      (rootAt j).run t₁ = .ok rj t₂ ∧ ∀ d, (Content.run opts ops).cur[j - 1]? = some d →
        verifyLastInclusion hs p j ((treeScheme hs).leaf d) rj = true) := by
  have h := run_refines hs opts ops hclean
  have ho : (run hs (empty opts) ops).closed = false := h.closed.trans hopen
  exact ⟨inclusionProof_verifies h.stores ho hi hij hj,
    consistencyProof_verifies h.stores ho hi hij hj,
    lastInclusionProof_verifies h.stores ho (by omega) hj⟩

/-- Three appends, then the proofs between sizes `2` and `3`. -/
theorem run_proofs_verify_two_three :
    (∃ p rj t₁ t₂, (InclusionProof 2 3).run (run escape (empty ⟨2, false, fun _ => by decide⟩)
        [.append [1], .append [2], .append [3]]) = .ok p t₁ ∧
      (rootAt 3).run t₁ = .ok rj t₂ ∧ ∀ d, (Content.run ⟨2, false, fun _ => by decide⟩
        [.append [1], .append [2], .append [3]]).cur[2 - 1]? = some d →
        verifyInclusion escape p 2 3 ((treeScheme escape).leaf d) rj = true) ∧
    (∃ p ri rj t₁ t₂ t₃, (ConsistencyProof 2 3).run (run escape
        (empty ⟨2, false, fun _ => by decide⟩) [.append [1], .append [2], .append [3]]) =
        .ok p t₁ ∧
      (rootAt 2).run t₁ = .ok ri t₂ ∧ (rootAt 3).run t₂ = .ok rj t₃ ∧
        verifyConsistency escape p 2 3 ri rj = true) ∧
    (∃ p rj t₁ t₂, (InclusionProof 3 3).run (run escape (empty ⟨2, false, fun _ => by decide⟩)
        [.append [1], .append [2], .append [3]]) = .ok p t₁ ∧
      (rootAt 3).run t₁ = .ok rj t₂ ∧ ∀ d, (Content.run ⟨2, false, fun _ => by decide⟩
        [.append [1], .append [2], .append [3]]).cur[3 - 1]? = some d →
        verifyLastInclusion escape p 3 ((treeScheme escape).leaf d) rj = true) :=
  run_proofs_verify escape ⟨2, false, fun _ => by decide⟩ [.append [1], .append [2], .append [3]]
    (by decide) (by decide) (by decide) (by decide) (by decide)

end Complete

/-! ## 4. What a verified inclusion proof does not bind

`VerifyInclusion` reads the side of each digest off the bits of `i - 1` and `j - 1`, and never
compares the proof's length with the height of leaf `i`'s path. In a tree of three leaves, leaf
`3` hangs directly under the root, and its path is one digest, the node of leaves `1` and `2`.
Read at position `2`, that one digest is also put on the left (`i - 1 = 1` is odd), so the
third leaf verifies as the second. -/

section Position

variable [DecidableEq D]

/-- **`VerifyInclusion` accepts the third leaf at position `2`.** After three appends to a new
writable tree, the proof made of the node of the first two leaves verifies the third payload as
leaf `2` against `RootAt(3)`. -/
theorem verifyInclusion_accepts_wrong_position (hs : Hasher D) (opts : Options)
    (hw : opts.readOnly = false) (d₁ d₂ d₃ : List UInt8) :
    ∃ r t, (rootAt 3).run (run hs (empty opts) [.append d₁, .append d₂, .append d₃]) = .ok r t ∧
      verifyInclusion hs [(treeScheme hs).node ((treeScheme hs).leaf d₁) ((treeScheme hs).leaf d₂)]
        2 3 ((treeScheme hs).leaf d₃) r = true := by
  have hops : ([.append d₁, .append d₂, .append d₃] : List Op) = [d₁, d₂, d₃].map Op.append := rfl
  have h := run_refines hs opts [.append d₁, .append d₂, .append d₃]
    (Content.ReopensClean.of_forall_ne (by simp))
  obtain ⟨hcur, hclosed⟩ := Content.run_appends hw [d₁, d₂, d₃]
  rw [← hops] at hcur hclosed
  have hc3 : 3 ≤ (Content.run opts [.append d₁, .append d₂, .append d₃]).cur.length := by
    rw [hcur]; rfl
  obtain ⟨cache, hroot, -⟩ := rootAt_run h.stores (h.closed.trans hclosed) (by omega) hc3
  refine ⟨_, _, hroot, ?_⟩
  -- the root of three leaves is the node of the first two's node and the third leaf
  have hsplit2 : split 2 = 1 := split_eq (b := 0) (by decide) (by decide)
  have hsplit3 : split 3 = 2 := split_eq (b := 1) (by decide) (by decide)
  rw [hcur, List.take_of_length_le (by simp), mth_of_two_le _ (by simp)]
  simp [hsplit2, hsplit3, mth_of_two_le, verifyInclusion, evalInclusion, evalInclusionLoop]

/-- Payloads `[1]`, `[2]`, `[3]`: the third verifies as the second. -/
theorem verifyInclusion_accepts_wrong_position_three :
    ([3] : List UInt8) ≠ [2] ∧
    ∃ r t, (rootAt 3).run (run escape (empty ⟨2, false, fun _ => by decide⟩)
        [.append [1], .append [2], .append [3]]) = .ok r t ∧
      verifyInclusion escape [(treeScheme escape).node ((treeScheme escape).leaf [1])
        ((treeScheme escape).leaf [2])] 2 3 ((treeScheme escape).leaf [3]) r = true :=
  ⟨by decide, verifyInclusion_accepts_wrong_position escape ⟨2, false, fun _ => by decide⟩ rfl
    [1] [2] [3]⟩

end Position

end Immudb.Ahtree
