import Immudb.Store.Tx
import Immudb.Ahtree.Verification

/-!
# `Immudb/Store/Verification.lean` — what a client checks of a dual proof

`embedded/store/verification.go`. A client that trusts the `Alh` of some transaction asks the
server to prove that a later state extends it. The server answers with a *dual proof*: the two
headers, a Merkle part over the AHtree of `Alh`s that the newer header commits to in its
`BlRoot`, and a linear part that walks the `Alh` chain from the last transaction in that tree
to the newer one (`advanceLinearHash`). `VerifyDualProof` checks all of it;
`VerifyDualProofV2`, for stores whose every header links its predecessor (`BlTxID = ID - 1`),
checks the Merkle part alone.

A nil pointer is `none`; the panics of `Alh` on a header of unknown version are `none` of the
result: `verifyDualProof` answers in `Option Bool`, `verifyDualProofV2` in
`Option (Except ProofError Unit)`.

Section 4 is where the module stops being a translation: both verifiers accept proofs of two
different transactions at the same id against one trusted target state, for any hash at all,
because the Merkle verifiers they call never check a proof's length.
-/

set_option autoImplicit false

namespace Immudb.Store

open Hashing Bytes Ahtree

/-! ## 1. Proofs -/

/-- `LinearProof`: the terms that walk the `Alh` chain from `SourceTxID` to `TargetTxID`. -/
structure LinearProof (D : Type) where
  SourceTxID : Nat
  TargetTxID : Nat
  Terms : List D
  deriving DecidableEq, Repr

/-- `LinearAdvanceProof`: the chain terms past the old tree, each with its inclusion proof in
the new one. -/
structure LinearAdvanceProof (D : Type) where
  LinearProofTerms : List D
  InclusionProofs : List (List D)
  deriving DecidableEq, Repr

/-- `DualProof`. -/
structure DualProof (D : Type) where
  SourceTxHeader : Option (TxHeader D)
  TargetTxHeader : Option (TxHeader D)
  InclusionProof : List D
  ConsistencyProof : List D
  TargetBlTxAlh : D
  LastInclusionProof : List D
  LinearProof : Option (LinearProof D)
  LinearAdvanceProof : Option (LinearAdvanceProof D)
  deriving DecidableEq, Repr

/-- `DualProofV2`. -/
structure DualProofV2 (D : Type) where
  SourceTxHeader : Option (TxHeader D)
  TargetTxHeader : Option (TxHeader D)
  InclusionProof : List D
  ConsistencyProof : List D
  deriving DecidableEq, Repr

/-- The errors `VerifyDualProofV2` returns. -/
inductive ProofError where
  /-- `ErrIllegalArguments` -/
  | illegalArguments
  /-- `ErrSourceTxNewerThanTargetTx` -/
  | sourceTxNewerThanTargetTx
  /-- `ErrUnexpectedLinkingError` -/
  | unexpectedLinkingError
  /-- "inclusion proof does NOT validate" -/
  | inclusionProofInvalid
  /-- "consistency proof does NOT validate" -/
  | consistencyProofInvalid
  deriving DecidableEq, Repr

/-! ## 2. The verifiers -/

section Verifiers

variable {D : Type} (hs : Hasher D)

/-- `advanceLinearHash`: `hash(txID + prevAlh + innerHash)`, one link of the `Alh` chain. -/
def advanceLinearHash (alh : D) (txID : Nat) (term : D) : D :=
  hs.sum (be 8 txID ++ hs.bytes alh ++ hs.bytes term)

/-- `leafFor`: the AHtree leaf hash of an `Alh`. -/
def leafFor (d : D) : D := hs.sum (LeafPrefix :: hs.bytes d)

/-- The loop of `VerifyLinearProof`: from `calculatedAlh` at `txID - 1`, one term per
transaction. -/
def linearHashLoop : Nat → D → List D → D
  | _, calculatedAlh, [] => calculatedAlh
  | txID, calculatedAlh, term :: terms =>
    linearHashLoop (txID + 1) (advanceLinearHash hs calculatedAlh txID term) terms

variable [DecidableEq D]

/-- `VerifyLinearProof`. -/
def verifyLinearProof (proof : Option (LinearProof D)) (sourceTxID targetTxID : Nat)
    (sourceAlh targetAlh : D) : Bool :=
  match proof with
  | none => false
  | some proof =>
    if proof.SourceTxID ≠ sourceTxID ∨ proof.TargetTxID ≠ targetTxID then false
    else if proof.SourceTxID = 0 ∨ proof.SourceTxID > proof.TargetTxID then false
    else
      match proof.Terms with
      | [] => false
      | term :: terms =>
        if sourceAlh ≠ term then false
        else if terms.length + 1 ≠ targetTxID - sourceTxID + 1 then false
        else decide (targetAlh = linearHashLoop hs (proof.SourceTxID + 1) term terms)

/-- The loop of `VerifyLinearAdvanceProof`: the `Alh` of `txID` must be a leaf of the tree, and
the next term gives the `Alh` of `txID + 1`. A failed inclusion is `none`. -/
def linearAdvanceLoop (treeRoot : D) (treeSize : Nat) :
    Nat → D → List (List D) → List D → Option D
  | _, calculatedAlh, [], _ => some calculatedAlh
  | txID, calculatedAlh, iproof :: iproofs, term :: terms =>
    if verifyInclusion hs iproof txID treeSize (leafFor hs calculatedAlh) treeRoot then
      linearAdvanceLoop treeRoot treeSize (txID + 1)
        (advanceLinearHash hs calculatedAlh (txID + 1) term) iproofs terms
    else none
  -- not reached: the lengths were checked
  | _, _, _ :: _, [] => none

/-- `VerifyLinearAdvanceProof`. -/
def verifyLinearAdvanceProof (proof : Option (LinearAdvanceProof D)) (startTxID endTxID : Nat)
    (endAlh treeRoot : D) (treeSize : Nat) : Bool :=
  if endTxID < startTxID then false
  -- Linear Advance Proof is not needed
  else if endTxID ≤ startTxID + 1 then true
  else
    match proof with
    | none => false
    | some proof =>
      if proof.LinearProofTerms.length ≠ endTxID - startTxID ∨
          proof.InclusionProofs.length ≠ endTxID - startTxID - 1 then false
      else
        match proof.LinearProofTerms with
        -- not reached: there are at least two terms
        | [] => false
        | term :: terms =>
          match linearAdvanceLoop hs treeRoot treeSize (startTxID + 1) term
              proof.InclusionProofs terms with
          | some calculatedAlh => decide (calculatedAlh = endAlh)
          | none => false

/-- `VerifyDualProof`. -/
def verifyDualProof (proof : DualProof D) (sourceTxID targetTxID : Nat)
    (sourceAlh targetAlh : D) : Option Bool := do
  let some src := proof.SourceTxHeader | pure false
  let some tgt := proof.TargetTxHeader | pure false
  if src.ID ≠ sourceTxID ∨ tgt.ID ≠ targetTxID then return false
  if src.ID = 0 ∨ src.ID > tgt.ID then return false
  let cSourceAlh ← src.alh hs
  if sourceAlh ≠ cSourceAlh then return false
  let cTargetAlh ← tgt.alh hs
  if targetAlh ≠ cTargetAlh then return false
  if sourceTxID < tgt.BlTxID ∧ verifyInclusion hs proof.InclusionProof sourceTxID tgt.BlTxID
      (leafFor hs sourceAlh) tgt.BlRoot = false then return false
  if src.BlTxID > 0 ∧ verifyConsistency hs proof.ConsistencyProof src.BlTxID tgt.BlTxID
      src.BlRoot tgt.BlRoot = false then return false
  if tgt.BlTxID > 0 ∧ verifyLastInclusion hs proof.LastInclusionProof tgt.BlTxID
      (leafFor hs proof.TargetBlTxAlh) tgt.BlRoot = false then return false
  if sourceTxID < tgt.BlTxID then
    -- the chain from the last leaf of the new tree to the target, and the part of the old
    -- state's chain that the new tree consumed
    return verifyLinearProof hs proof.LinearProof tgt.BlTxID targetTxID proof.TargetBlTxAlh
        targetAlh &&
      verifyLinearAdvanceProof hs proof.LinearAdvanceProof src.BlTxID sourceTxID sourceAlh
        tgt.BlRoot tgt.BlTxID
  else
    return verifyLinearProof hs proof.LinearProof sourceTxID targetTxID sourceAlh targetAlh &&
      verifyLinearAdvanceProof hs proof.LinearAdvanceProof src.BlTxID tgt.BlTxID
        proof.TargetBlTxAlh tgt.BlRoot tgt.BlTxID

/-- `VerifyDualProofV2`: `some (.error e)` where Go returns the error `e`, `some (.ok ())` where
it returns nil. -/
def verifyDualProofV2 (proof : DualProofV2 D) (sourceTxID targetTxID : Nat)
    (sourceAlh targetAlh : D) : Option (Except ProofError Unit) := do
  let some src := proof.SourceTxHeader | return .error .illegalArguments
  let some tgt := proof.TargetTxHeader | return .error .illegalArguments
  if src.ID = 0 ∨ src.ID ≠ sourceTxID ∨ tgt.ID ≠ targetTxID then return .error .illegalArguments
  if sourceTxID > targetTxID then return .error .sourceTxNewerThanTargetTx
  let cSourceAlh ← src.alh hs
  if sourceAlh ≠ cSourceAlh then return .error .illegalArguments
  let cTargetAlh ← tgt.alh hs
  if targetAlh ≠ cTargetAlh then return .error .illegalArguments
  if src.ID - 1 ≠ src.BlTxID ∨ tgt.ID - 1 ≠ tgt.BlTxID then
    return .error .unexpectedLinkingError
  if sourceTxID = targetTxID then return .ok ()
  if verifyInclusion hs proof.InclusionProof sourceTxID tgt.BlTxID (leafFor hs sourceAlh)
      tgt.BlRoot = false then return .error .inclusionProofInvalid
  let verifies :=
    -- corner case to validate the first transaction
    if sourceTxID = 1 then
      verifyConsistency hs proof.ConsistencyProof sourceTxID tgt.BlTxID (leafFor hs sourceAlh)
        tgt.BlRoot
    else
      verifyConsistency hs proof.ConsistencyProof src.BlTxID tgt.BlTxID src.BlRoot tgt.BlRoot
  if verifies = false then return .error .consistencyProofInvalid
  return .ok ()

/-! ## 3. What acceptance takes -/

omit [DecidableEq D] in
/-- The `Alh` of a header is the link of the chain from its `PrevAlh` by its inner hash. -/
theorem alh_eq_advanceLinearHash {hdr : TxHeader D} {ih : D} (h : hdr.innerHash hs = some ih) :
    hdr.alh hs = some (advanceLinearHash hs hdr.PrevAlh hdr.ID ih) :=
  TxHeader.alh_eq hs h

/-- A linear proof is accepted when its terms are the chain's own. -/
theorem verifyLinearProof_of_chain {s t : Nat} (hs1 : 1 ≤ s) (hst : s ≤ t) (alh : D) (terms : List D)
    (hlen : terms.length = t - s) :
    verifyLinearProof hs (some ⟨s, t, alh :: terms⟩) s t alh (linearHashLoop hs (s + 1) alh terms) = true := by
  simp only [verifyLinearProof]
  rw [if_neg (by simp), if_neg (by omega), if_neg (by simp), if_neg (by omega)]
  simp

theorem verifyLinearAdvanceProof_of_le (proof : Option (LinearAdvanceProof D)) {startTxID endTxID : Nat}
    (h1 : startTxID ≤ endTxID) (h2 : endTxID ≤ startTxID + 1) (endAlh treeRoot : D) (treeSize : Nat) :
    verifyLinearAdvanceProof hs proof startTxID endTxID endAlh treeRoot treeSize = true := by
  unfold verifyLinearAdvanceProof
  rw [if_neg (by omega), if_pos h2]

/-- What `VerifyDualProof` takes to answer `true`: the headers match, and every sub-check it
makes in the branches it takes passes. -/
theorem verifyDualProof_of_checks {proof : DualProof D} {src tgt : TxHeader D}
    {sourceTxID targetTxID : Nat} {sourceAlh targetAlh : D}
    (hsrc : proof.SourceTxHeader = some src) (htgt : proof.TargetTxHeader = some tgt)
    (hsid : src.ID = sourceTxID) (htid : tgt.ID = targetTxID) (h0 : 0 < sourceTxID)
    (hst : sourceTxID ≤ targetTxID)
    (hsa : src.alh hs = some sourceAlh) (hta : tgt.alh hs = some targetAlh)
    (hincl : sourceTxID < tgt.BlTxID → verifyInclusion hs proof.InclusionProof sourceTxID tgt.BlTxID
      (leafFor hs sourceAlh) tgt.BlRoot = true)
    (hcons : 0 < src.BlTxID → verifyConsistency hs proof.ConsistencyProof src.BlTxID tgt.BlTxID
      src.BlRoot tgt.BlRoot = true)
    (hlast : 0 < tgt.BlTxID → verifyLastInclusion hs proof.LastInclusionProof tgt.BlTxID
      (leafFor hs proof.TargetBlTxAlh) tgt.BlRoot = true)
    (hlin : if sourceTxID < tgt.BlTxID then
        verifyLinearProof hs proof.LinearProof tgt.BlTxID targetTxID proof.TargetBlTxAlh targetAlh &&
          verifyLinearAdvanceProof hs proof.LinearAdvanceProof src.BlTxID sourceTxID sourceAlh
            tgt.BlRoot tgt.BlTxID
      else
        verifyLinearProof hs proof.LinearProof sourceTxID targetTxID sourceAlh targetAlh &&
          verifyLinearAdvanceProof hs proof.LinearAdvanceProof src.BlTxID tgt.BlTxID
            proof.TargetBlTxAlh tgt.BlRoot tgt.BlTxID) :
    verifyDualProof hs proof sourceTxID targetTxID sourceAlh targetAlh = some true := by
  subst hsid htid
  simp only [verifyDualProof, hsrc, htgt, hsa, hta]
  rw [if_neg (by simp), if_neg (by omega)]
  simp only [Option.bind_eq_bind, Option.bind_some, ne_eq, not_true_eq_false, if_false]
  rw [if_neg fun ⟨hlt, hf⟩ => by simp [hincl hlt] at hf, if_neg fun ⟨hlt, hf⟩ => by simp [hcons hlt] at hf,
    if_neg fun ⟨hlt, hf⟩ => by simp [hlast hlt] at hf]
  by_cases hb : src.ID < tgt.BlTxID
  · rw [if_pos hb] at hlin
    rw [if_pos hb, hlin]
    rfl
  · rw [if_neg hb] at hlin
    rw [if_neg hb, hlin]
    rfl

/-- What `VerifyDualProofV2` takes to return nil. -/
theorem verifyDualProofV2_of_checks {proof : DualProofV2 D} {src tgt : TxHeader D}
    {sourceTxID targetTxID : Nat} {sourceAlh targetAlh : D}
    (hsrc : proof.SourceTxHeader = some src) (htgt : proof.TargetTxHeader = some tgt)
    (hsid : src.ID = sourceTxID) (htid : tgt.ID = targetTxID) (h0 : 0 < sourceTxID)
    (hst : sourceTxID ≤ targetTxID)
    (hsa : src.alh hs = some sourceAlh) (hta : tgt.alh hs = some targetAlh)
    (hsl : src.ID - 1 = src.BlTxID) (htl : tgt.ID - 1 = tgt.BlTxID)
    (hincl : sourceTxID < targetTxID → verifyInclusion hs proof.InclusionProof sourceTxID tgt.BlTxID
      (leafFor hs sourceAlh) tgt.BlRoot = true)
    (hcons : sourceTxID < targetTxID →
      (if sourceTxID = 1 then
        verifyConsistency hs proof.ConsistencyProof sourceTxID tgt.BlTxID (leafFor hs sourceAlh) tgt.BlRoot
      else
        verifyConsistency hs proof.ConsistencyProof src.BlTxID tgt.BlTxID src.BlRoot tgt.BlRoot) = true) :
    verifyDualProofV2 hs proof sourceTxID targetTxID sourceAlh targetAlh = some (.ok ()) := by
  subst hsid htid
  simp only [verifyDualProofV2, hsrc, htgt, hsa, hta]
  rw [if_neg (by omega), if_neg (by omega)]
  simp only [Option.bind_eq_bind, Option.bind_some, ne_eq, not_true_eq_false, if_false]
  rw [if_neg (by omega)]
  by_cases heq : src.ID = tgt.ID
  · rw [if_pos heq]
    rfl
  · have hlt : src.ID < tgt.ID := by omega
    rw [if_neg heq, if_neg (by simp [hincl hlt]), if_neg (by simp [hcons hlt])]
    rfl

/-! ## 4. One trusted state, two sources

`Immudb/Ahtree/Verification.lean` shows that two leaves at one position under one root need
inclusion proofs of different lengths (`verifyInclusion_length_ne`), and that the verifier
folds a proof of any length. The root below is built for that: `leafFor a1` is its left child,
and `leafFor a2` the left child of its right child. Read as a tree of size 2, the root has
`leafFor a1` at position 1 with one sibling, and `leafFor a2` at position 1 with two: the second
sibling is folded past the top of the tree, on the left, where `leafFor a1` sits. -/

/-- **One target state vouches for any two sources at id 1.** Whatever the two headers, a
target at id 3 whose tree has size 2 accepts a dual proof of each. -/
theorem verifyDualProof_forks (s1 s2 : TxHeader D) {a1 a2 : D}
    (hid1 : s1.ID = 1) (hbl1 : s1.BlTxID = 0) (ha1 : s1.alh hs = some a1)
    (hid2 : s2.ID = 1) (hbl2 : s2.BlTxID = 0) (ha2 : s2.alh hs = some a2) :
    ∃ p1 p2 : DualProof D, ∃ targetAlh : D,
      verifyDualProof hs p1 1 3 a1 targetAlh = some true ∧
      verifyDualProof hs p2 1 3 a2 targetAlh = some true := by
  -- one root over three nodes: `leafFor a1` is its left child, `leafFor a2` the left child of
  -- its right child; a tree of size 2 of which either is the first leaf
  let node := (treeScheme hs).node
  let lf := leafFor hs a1
  let X := node (leafFor hs a2) lf
  let R := node (leafFor hs a1) X
  let tgt : TxHeader D := ⟨3, 0, 2, R, a1, 0, [], 0, a1⟩
  obtain ⟨it, hit⟩ : ∃ it, tgt.innerHash hs = some it := ⟨_, rfl⟩
  have hta := alh_eq_advanceLinearHash hs hit
  let p (s : TxHeader D) (ip : List D) : DualProof D :=
    ⟨some s, some tgt, ip, [], a1, [leafFor hs a2, leafFor hs a1], some ⟨2, 3, [a1, it]⟩, none⟩
  -- the Merkle checks: a proof of one sibling and a proof of two, for one root
  have hincl1 : verifyInclusion hs [X] 1 2 (leafFor hs a1) R = true := by
    simp [verifyInclusion, evalInclusion, evalInclusionLoop, R, node]
  have hincl2 : verifyInclusion hs [lf, leafFor hs a1] 1 2 (leafFor hs a2) R = true := by
    simp [verifyInclusion, evalInclusion, evalInclusionLoop, R, X, node]
  have hlast : verifyLastInclusion hs [leafFor hs a2, leafFor hs a1] 2 lf R = true := by
    simp [verifyLastInclusion, evalLastInclusion, R, X, node]
  -- the linear checks: one link from the last leaf to the target, nothing consumed
  have hlin : (verifyLinearProof hs (some ⟨2, 3, [a1, it]⟩) 2 3 a1 (advanceLinearHash hs a1 3 it) &&
      verifyLinearAdvanceProof hs none 0 1 a1 R 2) = true := by
    rw [verifyLinearAdvanceProof_of_le hs none (by omega) (by omega)]
    exact Bool.and_eq_true_iff.mpr ⟨verifyLinearProof_of_chain hs (by omega) (by omega) a1 [it] rfl, rfl⟩
  have hbl : 1 < tgt.BlTxID := Nat.one_lt_two
  refine ⟨p s1 [X], p s2 [lf, leafFor hs a1], advanceLinearHash hs a1 3 it, ?_, ?_⟩
  · refine verifyDualProof_of_checks hs rfl rfl hid1 rfl (by omega) (by omega) ha1 hta
      (fun _ => hincl1) (fun h => by omega) (fun _ => hlast) ?_
    rw [if_pos hbl, hbl1]
    exact hlin
  · refine verifyDualProof_of_checks hs rfl rfl hid2 rfl (by omega) (by omega) ha2 hta
      (fun _ => hincl2) (fun h => by omega) (fun _ => hlast) ?_
    rw [if_pos hbl, hbl2]
    exact hlin



/-- The same for `VerifyDualProofV2`, at ids 2 and 4, for two sources that name one old tree. -/
theorem verifyDualProofV2_forks (s1 s2 : TxHeader D) {a1 a2 : D}
    (hid1 : s1.ID = 2) (hbl1 : s1.BlTxID = 1) (ha1 : s1.alh hs = some a1)
    (hid2 : s2.ID = 2) (hbl2 : s2.BlTxID = 1) (ha2 : s2.alh hs = some a2)
    (hroot : s1.BlRoot = s2.BlRoot) :
    ∃ p1 p2 : DualProofV2 D, ∃ targetAlh : D,
      verifyDualProofV2 hs p1 2 4 a1 targetAlh = some (.ok ()) ∧
      verifyDualProofV2 hs p2 2 4 a2 targetAlh = some (.ok ()) := by
  -- a tree of size 3 whose second leaf is `leafFor a1` and, read with one more level,
  -- `leafFor a2` as well; its first leaf is the sources' own tree of size 1
  let node := (treeScheme hs).node
  let a := s1.BlRoot
  let b := node (node a (leafFor hs a2)) a
  let R := node (node a (leafFor hs a1)) b
  let tgt : TxHeader D := ⟨4, 0, 3, R, a1, 0, [], 0, a1⟩
  obtain ⟨it, hit⟩ : ∃ it, tgt.innerHash hs = some it := ⟨_, rfl⟩
  have hta := alh_eq_advanceLinearHash hs hit
  have hincl1 : verifyInclusion hs [a, b] 2 3 (leafFor hs a1) R = true := by
    simp [verifyInclusion, evalInclusion, evalInclusionLoop, R, node]
  have hincl2 : verifyInclusion hs [a, a, node a (leafFor hs a1)] 2 3 (leafFor hs a2) R = true := by
    simp [verifyInclusion, evalInclusion, evalInclusionLoop, R, b, node]
  have hcons : verifyConsistency hs [a, leafFor hs a1, b] 1 3 a R = true := by
    simp [verifyConsistency, evalConsistency, shiftWhileOdd_of_even, evalConsistencyLoop, R, node]
  refine ⟨⟨some s1, some tgt, [a, b], [a, leafFor hs a1, b]⟩,
    ⟨some s2, some tgt, [a, a, node a (leafFor hs a1)], [a, leafFor hs a1, b]⟩,
    advanceLinearHash hs a1 4 it, ?_, ?_⟩
  · refine verifyDualProofV2_of_checks hs rfl rfl hid1 rfl (by omega) (by omega) ha1 hta
      (by omega) rfl (fun _ => hincl1) (fun _ => ?_)
    rw [if_neg (by omega), hbl1]
    exact hcons
  · refine verifyDualProofV2_of_checks hs rfl rfl hid2 rfl (by omega) (by omega) ha2 hta
      (by omega) rfl (fun _ => hincl2) (fun _ => ?_)
    rw [if_neg (by omega), hbl2, ← hroot]
    exact hcons

/-- The two forks above for the ideal hasher `escape`, with two sources whose `Alh`s differ. -/
theorem verifyDualProof_accepts_fork :
    (∃ a1 a2 : List UInt8,
      (⟨1, 1, 0, [], [], 0, [], 0, []⟩ : TxHeader (List UInt8)).alh escape = some a1 ∧
      (⟨1, 2, 0, [], [], 0, [], 0, []⟩ : TxHeader (List UInt8)).alh escape = some a2 ∧ a1 ≠ a2 ∧
      ∃ p1 p2 targetAlh, verifyDualProof escape p1 1 3 a1 targetAlh = some true ∧
        verifyDualProof escape p2 1 3 a2 targetAlh = some true) ∧
    (∃ a1 a2 : List UInt8,
      (⟨2, 1, 1, [], [], 0, [], 0, []⟩ : TxHeader (List UInt8)).alh escape = some a1 ∧
      (⟨2, 2, 1, [], [], 0, [], 0, []⟩ : TxHeader (List UInt8)).alh escape = some a2 ∧ a1 ≠ a2 ∧
      ∃ p1 p2 targetAlh, verifyDualProofV2 escape p1 2 4 a1 targetAlh = some (.ok ()) ∧
        verifyDualProofV2 escape p2 2 4 a2 targetAlh = some (.ok ())) :=
by
  refine ⟨⟨_, _, rfl, rfl, by decide, ?_⟩, ⟨_, _, rfl, rfl, by decide, ?_⟩⟩
  · exact verifyDualProof_forks escape ⟨1, 1, 0, [], [], 0, [], 0, []⟩ ⟨1, 2, 0, [], [], 0, [], 0, []⟩
      rfl rfl rfl rfl rfl rfl
  · exact verifyDualProofV2_forks escape ⟨2, 1, 1, [], [], 0, [], 0, []⟩ ⟨2, 2, 1, [], [], 0, [], 0, []⟩
      rfl rfl rfl rfl rfl rfl rfl

end Verifiers

end Immudb.Store
