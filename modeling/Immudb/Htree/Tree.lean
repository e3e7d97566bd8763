import Mathlib.Data.Nat.Size
import Immudb.Lib.Hashing
import Immudb.Lib.MerkleTree

/-!
# `Immudb/Htree/Tree.lean` — the in-memory hash tree of a transaction's entries

`embedded/htree/htree.go`, line for line. An `HTree` keeps one array per level, allocated once
by `New(maxWidth)` for the widest tree it will hold. `BuildWith(digests)` writes the leaf
hashes into level `0` and pairs each level into the next, bottom up; a last node without a
partner is carried up unhashed. `InclusionProof(i)` walks the other way, from the root down:
it splits the current subtree at the largest power of two below its width, as RFC 6962 does,
and reads the sibling subtree's root out of the level and index where `BuildWith` left it.
`VerifyInclusion` folds a proof from the leaf up by the bits of the leaf's index and of the
last index.

The arrays are reused: a build over fewer digests leaves what a wider build wrote past its own
width. A Go index out of range, or a negative shift, is a runtime panic; the model returns
`indexOutOfRange` there, so that "no panic" is a statement about the result.

Go's `int` is `Nat` where the code only ever holds a non-negative value (widths, indices,
offsets); the proof's `Leaf` and `Width`, which a verifier receives from anyone, are `Int`,
with Go's truncating division and remainder.
-/

set_option autoImplicit false

namespace Immudb.Htree

open Hashing Merkle

variable {D : Type}

/-- `LeafPrefix`. -/
def LeafPrefix : UInt8 := 0

/-- `NodePrefix`. -/
def NodePrefix : UInt8 := 1

/-- The hashes of `htree.go`: a leaf is `sum (LeafPrefix ‖ d)` of a digest `d`, a node is
`sum (NodePrefix ‖ l ‖ r)`; the root of no digests is the hash of nothing. -/
def htreeScheme (hs : Hasher D) : Scheme D D where
  leaf d := hs.sum (LeafPrefix :: hs.bytes d)
  node l r := hs.sum (NodePrefix :: (hs.bytes l ++ hs.bytes r))
  empty := hs.sum []

/-- The errors of `htree.go`, and the runtime panic of an index out of range. -/
inductive HtreeError where
  | maxWidthExceeded
  | illegalArguments
  | illegalState
  | indexOutOfRange
  deriving DecidableEq, Repr

/-- `HTree`. -/
structure HTree (D : Type) where
  levels : List (List D)
  maxWidth : Nat
  width : Nat
  root : D

/-- `InclusionProof`. -/
structure InclusionProof (D : Type) where
  Leaf : Int
  Width : Int
  Terms : List D

/-! ## 1. The levels -/

/-- `t.levels[l][i]`. -/
def readLevel (levels : List (List D)) (l i : Nat) : Except HtreeError D :=
  match levels[l]? with
  | some lv =>
    match lv[i]? with
    | some d => .ok d
    | none => .error .indexOutOfRange
  | none => .error .indexOutOfRange

/-- `t.levels[l][i] = d`. -/
def writeLevel (levels : List (List D)) (l i : Nat) (d : D) : Except HtreeError (List (List D)) :=
  match levels[l]? with
  | some lv => if i < lv.length then .ok (levels.set l (lv.set i d)) else .error .indexOutOfRange
  | none => .error .indexOutOfRange

/-- The loop of `New` that finds `lw`, the least power of two not below `maxWidth`, kept as
`lw = 1 << e`. -/
def lwLoop (maxWidth e : Nat) : Nat :=
  if 1 <<< e < maxWidth then lwLoop maxWidth (e + 1) else 1 <<< e
termination_by maxWidth - e
decreasing_by
  have := Nat.lt_two_pow_self (n := e)
  rw [Nat.one_shiftLeft] at *
  omega

/-- `New(maxWidth)`: `bits.Len64(maxWidth - 1) + 1` levels, level `l` of `lw >> l` zero
digests. -/
def New (hs : Hasher D) (maxWidth : Nat) : HTree D :=
  let levels :=
    if maxWidth > 0 then
      let lw := lwLoop maxWidth 0
      let height := Nat.size (maxWidth - 1) + 1
      (List.range height).map fun l => List.replicate (lw >>> l) hs.zero
    else []
  { levels, maxWidth, width := 0, root := hs.zero }

/-! ## 2. `BuildWith` -/

/-- `for i, d := range digests { t.levels[0][i] = leaf(d) }`. -/
def leavesLoop (hs : Hasher D) : List (List D) → Nat → List D → Except HtreeError (List (List D))
  | levels, _, [] => .ok levels
  | levels, i, d :: ds => do
    let levels ← writeLevel levels 0 i ((htreeScheme hs).leaf d)
    leavesLoop hs levels (i + 1) ds

/-- `for i := 0; i+1 < w; i += 2`: the pairs of level `l` hashed into level `l + 1` from index
`wn` on. -/
def pairLoop (hs : Hasher D) (l w : Nat) (levels : List (List D)) (i wn : Nat) :
    Except HtreeError (List (List D) × Nat) :=
  if i + 1 < w then do
    let a ← readLevel levels l i
    let b ← readLevel levels l (i + 1)
    let levels ← writeLevel levels (l + 1) wn ((htreeScheme hs).node a b)
    pairLoop hs l w levels (i + 2) (wn + 1)
  else .ok (levels, wn)
termination_by w - i

/-- `for w > 1`: level `l` of width `w` paired into the next, and on; the top level is
returned. `fuel` is the number of levels above `l`: with none left, Go's first write to level
`l + 1` panics. -/
def levelLoop (hs : Hasher D) : Nat → List (List D) → Nat → Nat →
    Except HtreeError (List (List D) × Nat)
  | fuel, levels, l, w =>
    if w > 1 then
      match fuel with
      | 0 => .error .indexOutOfRange
      | fuel + 1 => do
        let (levels, wn) ← pairLoop hs l w levels 0 0
        -- the last node of an odd level is carried up as it is
        let (levels, wn) ← if w % 2 = 1 then do
            let d ← readLevel levels l (w - 1)
            let levels ← writeLevel levels (l + 1) wn d
            pure (levels, wn + 1)
          else pure (levels, wn)
        levelLoop hs fuel levels (l + 1) wn
    else .ok (levels, l)

/-- `BuildWith(digests)`. -/
def HTree.BuildWith (hs : Hasher D) (t : HTree D) (digests : List D) :
    Except HtreeError (HTree D) := do
  if digests.length > t.maxWidth then throw .maxWidthExceeded
  if digests.length = 0 then return { t with width := 0, root := hs.sum [] }
  let levels ← leavesLoop hs t.levels 0 digests
  let (levels, l) ← levelLoop hs (t.levels.length - 1) levels 0 digests.length
  let root ← readLevel levels l 0
  return { t with levels, width := digests.length, root }

/-- `Root()`. -/
def HTree.Root (t : HTree D) : D := t.root

/-! ## 3. Inclusion proofs -/

/-- The node `InclusionProof` reads for the leaves `l, …, r`: `layer := bits.Len(r - l)`,
`index := l / (1 << layer)`, `t.levels[layer][index]`. -/
def readSubtree (levels : List (List D)) (l r : Nat) : Except HtreeError D :=
  let layer := Nat.size (r - l)
  let index := l / (1 <<< layer)
  readLevel levels layer index

/-- The loop of `InclusionProof`: the leaf is at `m` in the subtree of width `n` at `offset`.
The subtree is split at `k`, the largest power of two below `n`; the root of the part without
the leaf is read and prepended, and the loop goes on in the other part. A width of `1` reaches
the loop only with `m > 0`, where Go shifts by `-1` and panics. -/
def proofLoop (levels : List (List D)) (m n offset : Nat) (terms : List D) :
    Except HtreeError (List D) :=
  if n ≤ 1 then .error .indexOutOfRange
  else
    let d := Nat.size (n - 1)
    let k := 1 <<< (d - 1)
    if m < k then
      match readSubtree levels (offset + k) (offset + n - 1) with
      | .error e => .error e
      | .ok term =>
        if k < 1 ∨ (k = 1 ∧ m = 0) then .ok (term :: terms)
        else proofLoop levels m k offset (term :: terms)
    else
      match readSubtree levels offset (offset + k - 1) with
      | .error e => .error e
      | .ok term =>
        if n - k < 1 ∨ (n - k = 1 ∧ m - k = 0) then .ok (term :: terms)
        else proofLoop levels (m - k) (n - k) (offset + k) (term :: terms)
termination_by n
decreasing_by
  all_goals
    have hk : 1 <<< (Nat.size (n - 1) - 1) < n := by
      rw [Nat.one_shiftLeft]
      have := (Nat.lt_size (m := Nat.size (n - 1) - 1) (n := n - 1)).mp
        (by have := Nat.size_pos.mpr (show 0 < n - 1 by omega); omega)
      omega
    have hk0 : 0 < 1 <<< (Nat.size (n - 1) - 1) := by
      rw [Nat.one_shiftLeft]; exact Nat.two_pow_pos _
    omega

/-- `InclusionProof(i)`. -/
def HTree.InclusionProof (t : HTree D) (i : Nat) : Except HtreeError (InclusionProof D) :=
  if i ≥ t.width then .error .illegalArguments
  else if t.width = 1 then .ok ⟨i, t.width, []⟩
  else do
    let terms ← proofLoop t.levels i t.width 0 []
    pure ⟨i, t.width, terms⟩

/-- The loop of `VerifyInclusion`: the running root, and the two positions. -/
def verifyLoop (hs : Hasher D) : List D → Int → Int → D → D × Int × Int
  | [], i, r, calcRoot => (calcRoot, i, r)
  | t :: terms, i, r, calcRoot =>
    let calcRoot :=
      if i.tmod 2 = 0 ∧ i ≠ r then (htreeScheme hs).node calcRoot t
      else (htreeScheme hs).node t calcRoot
    verifyLoop hs terms (i.tdiv 2) (r.tdiv 2) calcRoot

/-- `VerifyInclusion(proof, digest, root)`, for a proof that is not `nil`. -/
def VerifyInclusion [DecidableEq D] (hs : Hasher D) (proof : InclusionProof D) (digest root : D) :
    Bool :=
  let (calcRoot, i, r) :=
    verifyLoop hs proof.Terms proof.Leaf (proof.Width - 1) ((htreeScheme hs).leaf digest)
  decide (i = r ∧ root = calcRoot)

/-! ## 4. Runs -/

/-- A tree after `New(maxWidth)` and a `BuildWith` of each list in turn; a call that fails
leaves the tree as it was. -/
def buildAll (hs : Hasher D) (maxWidth : Nat) (dss : List (List D)) : HTree D :=
  dss.foldl (fun t ds => match t.BuildWith hs ds with
    | .ok t' => t'
    | .error _ => t) (New hs maxWidth)

end Immudb.Htree
