import Mathlib.Data.List.Forall2
import Immudb.Tbtree.Read

/-!
# `Immudb/Tbtree/RoundTrip.lean` — a tree that `writeTo` wrote reads back

`Snapshot.WriteTo` writes a tree post-order into the node log, and the leaves' older versions
into the history log, and it computes every offset it records instead of asking the logs: a
child's offset is `BaseNLogOffset` plus what its earlier siblings' subtrees wrote, a history
chunk's is `BaseHLogOffset` plus the chunks written before it in the leaf. With `OnlyMutated`, it
skips a node that is not mutated and lies at or above `MinOffset`, and records the offsets the
node already has; a `nodeRef` at or above `MinOffset` is skipped the same way, and one below it is
loaded and written again.

When the bases are where the logs end, these offsets are where the bytes are (`writeTo_wrote`),
provided what the write skips is already where it says (`Node.Held`): a skipped node, or the tree
a `nodeRef` stands for, held by the logs at its offset. A node the logs hold at an offset reads
back with `readNodeAt` (`Stored.readsBack`) when its fields fit the widths they are written in.

`Stored` says what the logs hold for a tree: each node's record at its offset, after its
children's, for each leaf value the chunk of its older versions where its record points, and
for a `nodeRef` a tree with its `minKey` and `ts`. It only grows with the logs
(`Stored.append_right`), which is what lets an inner node rely on the children written before
its later siblings.
-/
set_option autoImplicit false

namespace Immudb.Tbtree

open Bytes Appendable

/-! ## 1. What the logs hold for a tree -/

/-- A leaf value whose fields fit the widths its record and its history chunk hold them in. -/
def LeafValue.Fits (v : LeafValue) : Prop :=
  v.key.length < 2 ^ 16 ∧ v.newest.Fits ∧ v.older.length < 2 ^ 32 ∧ (∀ tv ∈ v.older, tv.Fits) ∧
    v.hOff < 2 ^ 64 ∧ v.historyCount - 1 < 2 ^ 64

mutual

/-- A tree whose counts, keys, values and `ts` fit their widths; of a `nodeRef`, the `minKey` and
`ts` its parent's record holds again. -/
def Node.Fits : Node → Prop
  | .inner nodes ts _ _ _ => nodes.length < 2 ^ 16 ∧ ts < 2 ^ 64 ∧ Node.FitsAll nodes
  | .leaf values ts _ _ => values.length < 2 ^ 16 ∧ ts < 2 ^ 64 ∧ ∀ v ∈ values, v.Fits
  | .ref minKey ts _ _ => minKey.length < 2 ^ 16 ∧ ts < 2 ^ 64

/-- Every tree of the list fits. -/
def Node.FitsAll : List Node → Prop
  | [] => True
  | c :: cs => c.Fits ∧ Node.FitsAll cs

end

/-- The record `leafNode.writeTo` writes: the node type, the value count, and each value with the
offset of its history. -/
def leafBytes (values : List LeafValue) (hOffs : List Nat) : List UInt8 :=
  [LeafNodeType] ++ be 2 values.length ++ (List.zipWith leafValueBytes values hOffs).flatten

/-- The record `innerNode.writeTo` writes: the node type, the child count, and a `nodeRef` to
each child at the offsets it was written at. -/
def innerBytes (nodes : List Node) (ws : List Written) : List UInt8 :=
  [InnerNodeType] ++ be 2 nodes.length ++
    (List.zipWith (fun c w => nodeRefBytes c w.nOff w.minOff) nodes ws).flatten

/-- Where the history of a written value starts: where it started, when the value had no older
version in memory, or at a chunk of its older versions. -/
def ChunkAt (hLog : List UInt8) (v : LeafValue) (h : Nat) : Prop :=
  (v.older = [] ∧ h = v.hOff) ∨ (v.older ≠ [] ∧ HoldsAt hLog h (historyChunk v))

mutual

/-- The logs hold the tree `n` as written at `nOff`: its record there, and its children's and
its values' histories where the record points; for a `nodeRef`, a tree that fits with its
`minKey` and `ts`. -/
inductive Stored (nLog hLog : List UInt8) : Node → Nat → Prop
  | leaf {values : List LeafValue} {ts off nOff : Nat} {isMut : Bool} (hOffs : List Nat)
      (hbytes : HoldsAt nLog nOff (leafBytes values hOffs))
      (hchunks : List.Forall₂ (ChunkAt hLog) values hOffs) :
      Stored nLog hLog (.leaf values ts off isMut) nOff
  | inner {nodes : List Node} {ts off minOff nOff : Nat} {isMut : Bool} (ws : List Written)
      (hbytes : HoldsAt nLog nOff (innerBytes nodes ws))
      (hchildren : StoredAll nLog hLog nodes ws) :
      Stored nLog hLog (.inner nodes ts off minOff isMut) nOff
  | ref {minKey : List UInt8} {ts off minOff nOff : Nat} (m : Node) (hm : Stored nLog hLog m nOff)
      (hfit : m.Fits) (hkey : m.minKey = minKey) (hts : m.ts = ts) :
      Stored nLog hLog (.ref minKey ts off minOff) nOff

/-- The children of an inner node, each held where `writeTo` said it wrote it; the smallest
offset below a child is its own, or one an inner node computed. -/
inductive StoredAll (nLog hLog : List UInt8) : List Node → List Written → Prop
  | nil : StoredAll nLog hLog [] []
  | cons {c : Node} {cs : List Node} {w : Written} {ws : List Written}
      (hc : Stored nLog hLog c w.nOff) (hmin : w.minOff = w.nOff ∨ w.minOff ≤ MaxInt64)
      (hcs : StoredAll nLog hLog cs ws) : StoredAll nLog hLog (c :: cs) (w :: ws)

end

theorem ChunkAt.append_right {hLog : List UInt8} {v : LeafValue} {h : Nat}
    (hc : ChunkAt hLog v h) (d : List UInt8) : ChunkAt (hLog ++ d) v h :=
  hc.imp id fun ⟨hne, hb⟩ => ⟨hne, hb.append_right d⟩

mutual

/-- What the logs hold stays there when they grow. -/
theorem Stored.append_right {nLog hLog : List UInt8} (c d : List UInt8) :
    ∀ {n : Node} {nOff : Nat}, Stored nLog hLog n nOff → Stored (nLog ++ c) (hLog ++ d) n nOff
  | _, _, .leaf hOffs hbytes hchunks =>
    .leaf hOffs (hbytes.append_right c) (hchunks.imp fun _ _ hc => hc.append_right d)
  | _, _, .inner ws hbytes hchildren =>
    .inner ws (hbytes.append_right c) (StoredAll.append_right c d hchildren)
  | _, _, .ref m hm hfit hkey hts => .ref m (Stored.append_right c d hm) hfit hkey hts

theorem StoredAll.append_right {nLog hLog : List UInt8} (c d : List UInt8) :
    ∀ {cs : List Node} {ws : List Written},
      StoredAll nLog hLog cs ws → StoredAll (nLog ++ c) (hLog ++ d) cs ws
  | _, _, .nil => .nil
  | _, _, .cons hc hmin hcs => .cons (Stored.append_right c d hc) hmin (StoredAll.append_right c d hcs)

end

theorem StoredAll.length_eq {nLog hLog : List UInt8} :
    ∀ {cs : List Node} {ws : List Written}, StoredAll nLog hLog cs ws → cs.length = ws.length
  | _, _, .nil => rfl
  | _, _, .cons _ _ hcs => by simp [hcs.length_eq]

/-! ## 2. What `writeTo` does not write itself -/

/-- `loadWrite` writes a tree the logs hold at `off` again, as `writeTo` writes one: behind the
logs, at the bases, returning what it appended, and the logs then hold the tree where it says. -/
def LoadWrites (loadWrite : WriteOpts → Nat → Logs → Except TbtreeError Written × Logs) : Prop :=
  ∀ opts off logs m, Stored logs.nLog logs.hLog m off → m.Fits →
    opts.BaseNLogOffset = logs.nLog.length → opts.BaseHLogOffset = logs.hLog.length →
    ∃ w cN cH, loadWrite opts off logs = (.ok w, ⟨logs.nLog ++ cN, logs.hLog ++ cH⟩) ∧
      w.wN = cN.length ∧ w.wH = cH.length ∧ (w.minOff = w.nOff ∨ w.minOff ≤ MaxInt64) ∧
      Stored (logs.nLog ++ cN) (logs.hLog ++ cH) m w.nOff

mutual

/-- What `writeTo` with `OnlyMutated = onlyMutated` and `MinOffset = minOffset` relies on for the
parts of a tree it does not write itself: a node it skips is held by the logs at its offset, with
a smallest offset an `int64` holds; a `nodeRef` stands for a tree the logs hold at its offset, and
when the write does not skip it, `loadWrite` writes that tree again as `writeTo` does. -/
def Node.Held (onlyMutated : Bool) (minOffset : Nat) (nLog hLog : List UInt8)
    (loadWrite : WriteOpts → Nat → Logs → Except TbtreeError Written × Logs) : Node → Prop
  | .inner nodes ts off minOff isMut =>
    if onlyMutated ∧ !isMut ∧ minOffset ≤ minOff then
      Stored nLog hLog (.inner nodes ts off minOff isMut) off ∧ minOff ≤ MaxInt64
    else Node.HeldAll onlyMutated minOffset nLog hLog loadWrite nodes
  | .leaf values ts off isMut =>
    onlyMutated ∧ !isMut ∧ minOffset ≤ off → Stored nLog hLog (.leaf values ts off isMut) off
  | .ref minKey ts off minOff =>
    Stored nLog hLog (.ref minKey ts off minOff) off ∧
      if onlyMutated ∧ minOffset ≤ minOff then minOff ≤ MaxInt64 else LoadWrites loadWrite

/-- `Node.Held` for each tree of the list. -/
def Node.HeldAll (onlyMutated : Bool) (minOffset : Nat) (nLog hLog : List UInt8)
    (loadWrite : WriteOpts → Nat → Logs → Except TbtreeError Written × Logs) : List Node → Prop
  | [] => True
  | c :: cs => c.Held onlyMutated minOffset nLog hLog loadWrite ∧
      Node.HeldAll onlyMutated minOffset nLog hLog loadWrite cs

end

section Held

variable {onlyMutated : Bool} {minOffset : Nat}
  {loadWrite : WriteOpts → Nat → Logs → Except TbtreeError Written × Logs}

mutual

/-- What the write relies on stays true when the logs grow. -/
theorem Node.Held.append_right {nLog hLog : List UInt8} (c d : List UInt8) :
    ∀ {n : Node}, n.Held onlyMutated minOffset nLog hLog loadWrite →
      n.Held onlyMutated minOffset (nLog ++ c) (hLog ++ d) loadWrite
  | .inner nodes ts off minOff isMut, h => by
    unfold Node.Held at h ⊢
    split_ifs at h ⊢
    · exact ⟨h.1.append_right c d, h.2⟩
    · exact Node.HeldAll.append_right c d h
  | .leaf .., h => fun hskip => (h hskip).append_right c d
  | .ref .., h => ⟨h.1.append_right c d, h.2⟩

theorem Node.HeldAll.append_right {nLog hLog : List UInt8} (c d : List UInt8) :
    ∀ {cs : List Node}, Node.HeldAll onlyMutated minOffset nLog hLog loadWrite cs →
      Node.HeldAll onlyMutated minOffset (nLog ++ c) (hLog ++ d) loadWrite cs
  | [], _ => trivial
  | _ :: _, h => ⟨Node.Held.append_right c d h.1, Node.HeldAll.append_right c d h.2⟩

end

end Held

/-! ## 3. `writeTo` writes where it says -/

/-- A record made of one piece per item, each as long as its item says, is as long as they
all say. -/
theorem length_flatten_zipWith {α β γ : Type} {f : α → β → List γ} {g : α → Nat}
    (hfg : ∀ a b, (f a b).length = g a) :
    ∀ {as : List α} {bs : List β}, as.length = bs.length →
      (List.zipWith f as bs).flatten.length = (as.map g).sum
  | [], [], _ => rfl
  | a :: as, b :: bs, h => by
    simp [hfg, length_flatten_zipWith hfg (show as.length = bs.length by simpa using h)]
  | [], _ :: _, h | _ :: _, [], h => by simp at h

/-- A leaf's record is as long as `leafNode.size()` says. -/
theorem length_leafBytes {values : List LeafValue} {hOffs : List Nat}
    (h : values.length = hOffs.length) : (leafBytes values hOffs).length = leafSize values := by
  rw [leafBytes, leafSize, List.length_append, List.length_append,
    length_flatten_zipWith
      (g := fun v => 2 + v.key.length + 2 + v.newest.Value.length + 8 + 8 + 8)
      (fun v _ => by simp [leafValueBytes]; omega) h]
  simp

/-- An inner node's record is as long as `innerNode.size()` says. -/
theorem length_innerBytes {nodes : List Node} {ws : List Written}
    (h : nodes.length = ws.length) : (innerBytes nodes ws).length = innerSize nodes := by
  rw [innerBytes, innerSize, List.length_append, List.length_append,
    length_flatten_zipWith (g := fun c => 2 + c.minKey.length + 8 + 8 + 8)
      (fun c _ => by simp [nodeRefBytes]; omega) h]
  simp

/-- `innerNode.size()` reads only the children's `minKey`s. -/
theorem innerSize_congr {cs cs' : List Node} (hk : cs'.map Node.minKey = cs.map Node.minKey) :
    innerSize cs' = innerSize cs := by
  have e : ∀ l : List Node, (l.map fun c => 2 + c.minKey.length + 8 + 8 + 8) =
      (l.map Node.minKey).map fun k => 2 + k.length + 8 + 8 + 8 := fun l => by simp
  simp only [innerSize, e, hk]

/-- A `nodeRef` record reads only the child's `minKey` and `ts`. -/
theorem zipWith_nodeRefBytes_congr :
    ∀ {cs cs' : List Node} (ws : List Written), cs'.map Node.minKey = cs.map Node.minKey →
      cs'.map Node.ts = cs.map Node.ts →
      List.zipWith (fun c w => nodeRefBytes c w.nOff w.minOff) cs' ws =
        List.zipWith (fun c w => nodeRefBytes c w.nOff w.minOff) cs ws
  | [], [], _, _, _ => rfl
  | c :: cs, c' :: cs', [], _, _ => rfl
  | c :: cs, c' :: cs', w :: ws, hk, hts => by
    simp only [List.map_cons, List.cons.injEq] at hk hts
    rw [List.zipWith_cons_cons, List.zipWith_cons_cons, zipWith_nodeRefBytes_congr ws hk.2 hts.2]
    simp [nodeRefBytes, hk.1, hts.1]
  | [], _ :: _, _, hk, _ | _ :: _, [], _, hk, _ => by simp at hk

theorem Node.minKey_leaf (values : List LeafValue) (ts off : Nat) (isMut : Bool) :
    (Node.leaf values ts off isMut).minKey = (values.map LeafValue.key).headD [] := by
  cases values <;> rfl

theorem Node.minKey_inner (nodes : List Node) (ts off minOff : Nat) (isMut : Bool) :
    (Node.inner nodes ts off minOff isMut).minKey = (nodes.map Node.minKey).headD [] := by
  cases nodes <;> rfl

theorem Node.minKey_toRef (c : Node) : c.toRef.minKey = c.minKey := by
  cases c <;> rfl

/-- The smallest of offsets folded from `a` is at most `a`. -/
theorem foldl_min_le_init : ∀ (l : List Nat) (a : Nat), l.foldl min a ≤ a
  | [], _ => le_rfl
  | x :: l, a => (foldl_min_le_init l (min a x)).trans (min_le_left a x)

/-- Into a history log that ends at `BaseHLogOffset + accH`, `writeValues` writes each value's
chunk where its record says, and keeps the values' keys. -/
theorem writeValues_stored (opts : WriteOpts) :
    ∀ (values : List LeafValue) (accH : Nat) (hLog : List UInt8),
      opts.BaseHLogOffset + accH = hLog.length →
      ∃ hOffs values' c, writeValues appendWriter opts values accH hLog =
          (.ok ((List.zipWith leafValueBytes values hOffs).flatten, accH + c.length), values',
            hLog ++ c) ∧
        List.Forall₂ (ChunkAt (hLog ++ c)) values hOffs ∧
        values'.map LeafValue.key = values.map LeafValue.key
  | [], accH, hLog, _ => ⟨[], [], [], by simp [writeValues], .nil, rfl⟩
  | v :: vs, accH, hLog, hbase => by
    by_cases h : v.older = []
    · -- no chunk: the record keeps the value's `hOff`
      obtain ⟨hOffs, vs', c, hw, hc, hk⟩ := writeValues_stored opts vs accH hLog hbase
      refine ⟨v.hOff :: hOffs, (if opts.commitLog then
          { v with older := [], hOff := v.hOff, hCount := v.historyCount - 1 } else v) :: vs', c,
        by simp [writeValues, h, hw], .cons (.inl ⟨h, rfl⟩) hc, ?_⟩
      cases opts.commitLog <;> simp [hk]
    · -- the chunk goes where the history log ends
      obtain ⟨hOffs, vs', c, hw, hc, hk⟩ := writeValues_stored opts vs
        (accH + (historyChunk v).length) (hLog ++ historyChunk v) (by simp; omega)
      have hchunk : HoldsAt (hLog ++ (historyChunk v ++ c)) (opts.BaseHLogOffset + accH)
          (historyChunk v) := by
        rw [hbase, ← List.append_assoc]
        exact holdsAt_append hLog (historyChunk v) c
      refine ⟨(opts.BaseHLogOffset + accH) :: hOffs, (if opts.commitLog then
          { v with older := [], hOff := opts.BaseHLogOffset + accH,
                   hCount := v.historyCount - 1 } else v) :: vs', historyChunk v ++ c,
        ?_, .cons (.inr ⟨h, hchunk⟩) (by simpa using hc), ?_⟩
      · simp [writeValues, h, hw, appendWriter, Nat.add_assoc]
      · cases opts.commitLog <;> simp [hk]

/-- What a write that succeeded did, for the node `n` it wrote and left as `n'`: it appended `cN`
and `cH` to the logs and returned their lengths, it kept `n`'s `minKey` and `ts`, and the logs
hold `n` where it says it wrote it. -/
structure Wrote (logs : Logs) (n n' : Node) (w : Written) (cN cH : List UInt8) : Prop where
  wN : w.wN = cN.length
  wH : w.wH = cH.length
  minKey : n'.minKey = n.minKey
  ts : n'.ts = n.ts
  minOff : w.minOff = w.nOff ∨ w.minOff ≤ MaxInt64
  stored : Stored (logs.nLog ++ cN) (logs.hLog ++ cH) n w.nOff

section Write

variable {loadWrite : WriteOpts → Nat → Logs → Except TbtreeError Written × Logs}

/-- A node that `writeTo` skips stays where the logs hold it: nothing is appended, and the offsets
returned are its own. -/
theorem wrote_skipped {logs : Logs} {n : Node} {nOff minOff : Nat}
    (hs : Stored logs.nLog logs.hLog n nOff) (hmin : minOff = nOff ∨ minOff ≤ MaxInt64) :
    Wrote logs n n ⟨nOff, minOff, 0, 0⟩ [] [] :=
  ⟨rfl, rfl, rfl, rfl, hmin, by simpa using hs⟩

/-- A leaf that `writeTo` does not skip, into logs that end at the bases: its values' chunks,
then its record at `BaseNLogOffset`. -/
theorem writeTo_leaf_wrote {opts : WriteOpts} {values : List LeafValue} {ts off : Nat}
    {isMut : Bool} {logs : Logs}
    (hskip : ¬ (opts.OnlyMutated = true ∧ (!isMut) = true ∧ opts.MinOffset ≤ off))
    (hn : opts.BaseNLogOffset = logs.nLog.length) (hh : opts.BaseHLogOffset = logs.hLog.length) :
    ∃ w n' cN cH, (Node.leaf values ts off isMut).writeTo appendWriter appendWriter loadWrite
        opts logs = (.ok w, n', ⟨logs.nLog ++ cN, logs.hLog ++ cH⟩) ∧
      Wrote logs (.leaf values ts off isMut) n' w cN cH := by
  obtain ⟨hOffs, values', c, hw, hc, hk⟩ := writeValues_stored opts values 0 logs.hLog (by simp [hh])
  refine ⟨⟨opts.BaseNLogOffset, opts.BaseNLogOffset, leafSize values, 0 + c.length⟩,
    if opts.commitLog then .leaf values' ts opts.BaseNLogOffset false else .leaf values' ts off isMut,
    leafBytes values hOffs, c, ?_, ?_⟩
  · simp only [Node.writeTo, if_neg hskip, hw, appendWriter]
    simp [leafBytes]
  · refine ⟨(length_leafBytes hc.length_eq).symm, by simp, ?_, ?_, .inl rfl, ?_⟩
    · cases opts.commitLog <;> simp [Node.minKey_leaf, hk]
    · cases opts.commitLog <;> rfl
    · rw [hn]
      exact .leaf hOffs (by simpa using holdsAt_append logs.nLog (leafBytes values hOffs) [])
        (by simpa using hc)

/-- A `nodeRef` that `writeTo` does not skip: `loadWrite` writes the tree it stands for again, and
the reference the parent records points at the copy. -/
theorem writeTo_ref_wrote {opts : WriteOpts} {minKey : List UInt8} {ts off minOff : Nat}
    {logs : Logs} (hskip : ¬ (opts.OnlyMutated = true ∧ opts.MinOffset ≤ minOff))
    (hs : Stored logs.nLog logs.hLog (.ref minKey ts off minOff) off) (hload : LoadWrites loadWrite)
    (hn : opts.BaseNLogOffset = logs.nLog.length) (hh : opts.BaseHLogOffset = logs.hLog.length) :
    ∃ w n' cN cH, (Node.ref minKey ts off minOff).writeTo appendWriter appendWriter loadWrite
        opts logs = (.ok w, n', ⟨logs.nLog ++ cN, logs.hLog ++ cH⟩) ∧
      Wrote logs (.ref minKey ts off minOff) n' w cN cH := by
  cases hs with
  | ref m hm hfit hkey hts =>
    obtain ⟨w, cN, cH, hlw, hwN, hwH, hmin, hstored⟩ := hload opts off logs m hm hfit hn hh
    refine ⟨w, if opts.commitLog then .ref minKey ts w.nOff w.minOff else .ref minKey ts off minOff,
      cN, cH, ?_, hwN, hwH, ?_, ?_, hmin, .ref m hstored hfit hkey hts⟩
    · simp only [Node.writeTo, if_neg hskip, hlw]
    · cases opts.commitLog <;> rfl
    · cases opts.commitLog <;> rfl

mutual

/-- **`writeTo` writes where it says.** A tree that fits, into logs that end at the bases, when
what the write skips is where it says (`Node.Held`): the writes succeed, and the logs then hold
the tree at the offset `writeTo` returns, with each child where its `nodeRef` points and each
value's history where its record points. -/
theorem writeTo_wrote (opts : WriteOpts) : ∀ (n : Node) (logs : Logs), n.Fits →
    n.Held opts.OnlyMutated opts.MinOffset logs.nLog logs.hLog loadWrite →
    opts.BaseNLogOffset = logs.nLog.length → opts.BaseHLogOffset = logs.hLog.length →
    ∃ w n' cN cH, n.writeTo appendWriter appendWriter loadWrite opts logs =
        (.ok w, n', ⟨logs.nLog ++ cN, logs.hLog ++ cH⟩) ∧ Wrote logs n n' w cN cH
  | .leaf values ts off isMut, logs, _, hheld, hn, hh => by
    by_cases hskip : opts.OnlyMutated = true ∧ (!isMut) = true ∧ opts.MinOffset ≤ off
    · -- an unmutated leaf at or above `MinOffset` is where an earlier write put it
      refine ⟨_, _, [], [], ?_, wrote_skipped (hheld hskip) (.inl rfl)⟩
      simp only [Node.writeTo, if_pos hskip, List.append_nil]
    · exact writeTo_leaf_wrote hskip hn hh
  | .inner nodes ts off minOff isMut, logs, hfit, hheld, hn, hh => by
    unfold Node.Held at hheld
    by_cases hskip : opts.OnlyMutated = true ∧ (!isMut) = true ∧ opts.MinOffset ≤ minOff
    · -- so is an unmutated inner node, with everything below it
      rw [if_pos hskip] at hheld
      refine ⟨_, _, [], [], ?_, wrote_skipped hheld.1 (.inr hheld.2)⟩
      simp only [Node.writeTo, if_pos hskip, List.append_nil]
    rw [if_neg hskip] at hheld
    -- the children first, from the bases
    obtain ⟨ws, nodes', cN, cH, hwc, hsN, hsH, hk, hts, hall⟩ :=
      writeChildren_wrote opts nodes 0 0 logs hfit.2.2 hheld (by simpa using hn) (by simpa using hh)
    have hlen : nodes'.length = nodes.length := by simpa using congrArg List.length hk
    have hbuf : [InnerNodeType] ++ be 2 nodes'.length ++
        (List.zipWith (fun c w => nodeRefBytes c w.nOff w.minOff) nodes' ws).flatten =
          innerBytes nodes ws := by
      rw [innerBytes, hlen, zipWith_nodeRefBytes_congr ws hk hts]
    -- then its own record, behind what the children wrote
    let nOff := opts.BaseNLogOffset + (ws.map (·.wN)).sum
    let minOff' := (ws.map (·.minOff)).foldl min MaxInt64
    refine ⟨⟨nOff, minOff', (ws.map (·.wN)).sum + innerSize nodes', (ws.map (·.wH)).sum⟩,
      if opts.commitLog then
        .inner (if isMut then nodes'.map Node.toRef else nodes') ts nOff minOff' false
      else .inner nodes' ts off minOff isMut,
      cN ++ innerBytes nodes ws, cH, ?_, ?_⟩
    · simp only [Node.writeTo, if_neg hskip, hwc, hbuf, appendWriter, List.append_assoc]
      rfl
    · have hnodes : (nodes'.map Node.toRef).map Node.minKey = nodes.map Node.minKey := by
        rw [List.map_map, ← hk]
        exact List.map_congr_left fun c _ => Node.minKey_toRef c
      refine ⟨?_, hsH, ?_, ?_, .inr (foldl_min_le_init _ _), ?_⟩
      · rw [List.length_append, length_innerBytes hall.length_eq, hsN, innerSize_congr hk]
      · cases opts.commitLog <;> cases isMut <;> simp [Node.minKey_inner, hk, hnodes]
      · cases opts.commitLog <;> rfl
      · have hpos : nOff = (logs.nLog ++ cN).length := by simp [nOff, hn, hsN]
        refine .inner ws ?_ (by simpa using hall.append_right (innerBytes nodes ws) [])
        rw [hpos, ← List.append_assoc]
        exact by simpa using holdsAt_append (logs.nLog ++ cN) (innerBytes nodes ws) []
  | .ref minKey ts off minOff, logs, _, hheld, hn, hh => by
    obtain ⟨hs, hheld⟩ := hheld
    by_cases hskip : opts.OnlyMutated = true ∧ opts.MinOffset ≤ minOff
    · -- a reference at or above `MinOffset` keeps pointing where it did
      rw [if_pos hskip] at hheld
      refine ⟨_, _, [], [], ?_, wrote_skipped hs (.inr hheld)⟩
      simp only [Node.writeTo, if_pos hskip, List.append_nil]
    · rw [if_neg hskip] at hheld
      exact writeTo_ref_wrote hskip hs hheld hn hh

/-- The loop over the children, from `cnw` and `chw` bytes written by the earlier ones: each
child where its siblings' bytes end. -/
theorem writeChildren_wrote (opts : WriteOpts) : ∀ (cs : List Node) (cnw chw : Nat) (logs : Logs),
    Node.FitsAll cs → Node.HeldAll opts.OnlyMutated opts.MinOffset logs.nLog logs.hLog loadWrite cs →
    opts.BaseNLogOffset + cnw = logs.nLog.length → opts.BaseHLogOffset + chw = logs.hLog.length →
    ∃ ws cs' cN cH, writeChildren appendWriter appendWriter loadWrite opts cs cnw chw logs =
        (.ok ws, cs', ⟨logs.nLog ++ cN, logs.hLog ++ cH⟩) ∧
      (ws.map (·.wN)).sum = cN.length ∧ (ws.map (·.wH)).sum = cH.length ∧
      cs'.map Node.minKey = cs.map Node.minKey ∧ cs'.map Node.ts = cs.map Node.ts ∧
      StoredAll (logs.nLog ++ cN) (logs.hLog ++ cH) cs ws
  | [], _, _, logs, _, _, _, _ =>
    ⟨[], [], [], [], by simp [writeChildren], rfl, rfl, rfl, rfl, by simpa using StoredAll.nil⟩
  | c :: cs, cnw, chw, logs, hfit, hheld, hn, hh => by
    -- the child where the logs end
    obtain ⟨w, c', cN₁, cH₁, hw, hwr⟩ :=
      writeTo_wrote (opts.shift cnw chw) c logs hfit.1 hheld.1 hn hh
    -- its later siblings behind it, relying on what they relied on in the longer logs
    obtain ⟨ws, cs', cN₂, cH₂, hws, hsN, hsH, hk, hts, hall⟩ :=
      writeChildren_wrote opts cs (cnw + w.wN) (chw + w.wH) ⟨logs.nLog ++ cN₁, logs.hLog ++ cH₁⟩
        hfit.2 (hheld.2.append_right cN₁ cH₁) (by simp [hwr.wN]; omega) (by simp [hwr.wH]; omega)
    refine ⟨w :: ws, c' :: cs', cN₁ ++ cN₂, cH₁ ++ cH₂, ?_, ?_, ?_, ?_, ?_, ?_⟩
    · simp [writeChildren, hw, hws]
    · simp [hsN, hwr.wN]
    · simp [hsH, hwr.wH]
    · simp [hk, hwr.minKey]
    · simp [hts, hwr.ts]
    · exact .cons (by simpa using hwr.stored.append_right cN₂ cH₂) hwr.minOff (by simpa using hall)

end

end Write

/-! ## 4. What the logs hold reads back -/

/-- What a written value reads back as: its key and newest version, no older version in memory,
its `hCount` all the versions but the newest, and a history that holds its older versions before
those its old history held. -/
def ValueReadsBack (hLog : List UInt8) (v rv : LeafValue) : Prop :=
  rv.key = v.key ∧ rv.newest = v.newest ∧ rv.older = [] ∧ rv.hCount = v.historyCount - 1 ∧
    ∀ L, HistoryAt hLog v.hOff L → HistoryAt hLog rv.hOff (v.older ++ L)

mutual

/-- What `readNodeAt` gives back for the tree `n` written at `nOff`: a leaf with the values read
back, or an inner node whose references carry the children's `minKey`s and `ts` and point where
the children read back; for a `nodeRef`, a tree with its `minKey` and `ts` that reads back. -/
inductive ReadsBack (nLog hLog : List UInt8) : Node → Nat → Prop
  | leaf {values : List LeafValue} {ts off nOff : Nat} {isMut : Bool} (rvs : List LeafValue)
      (hread : readNodeAt nLog nOff =
        .ok (.leaf rvs ((rvs.map (·.newest.Ts)).foldl max 0) nOff false))
      (hvalues : List.Forall₂ (ValueReadsBack hLog) values rvs) :
      ReadsBack nLog hLog (.leaf values ts off isMut) nOff
  | inner {nodes : List Node} {ts off minOff nOff : Nat} {isMut : Bool} (refs : List Node)
      (hread : readNodeAt nLog nOff = .ok (.inner refs ((refs.map Node.ts).foldl max 0) nOff
        ((refs.map Node.minOffset).foldl min MaxInt64) false))
      (hchildren : ReadsBackAll nLog hLog nodes refs) :
      ReadsBack nLog hLog (.inner nodes ts off minOff isMut) nOff
  | ref {minKey : List UInt8} {ts off minOff nOff : Nat} (m : Node) (hm : ReadsBack nLog hLog m nOff)
      (hkey : m.minKey = minKey) (hts : m.ts = ts) :
      ReadsBack nLog hLog (.ref minKey ts off minOff) nOff

/-- The references of an inner node, read back child by child. -/
inductive ReadsBackAll (nLog hLog : List UInt8) : List Node → List Node → Prop
  | nil : ReadsBackAll nLog hLog [] []
  | cons {c : Node} {cs rs : List Node} {o mo : Nat} (hc : ReadsBack nLog hLog c o)
      (hcs : ReadsBackAll nLog hLog cs rs) :
      ReadsBackAll nLog hLog (c :: cs) (.ref c.minKey c.ts o mo :: rs)

end

/-- A child and the offsets it was written at, as a `nodeRef` record holds them. -/
def RefFits (c : Node) (w : Written) : Prop :=
  c.minKey.length < 2 ^ 16 ∧ c.ts < 2 ^ 64 ∧ w.nOff < 2 ^ 64 ∧ w.minOff < 2 ^ 64

/-- The references `readInnerNodeFrom` makes of children written at `ws`. -/
def refsOf (nodes : List Node) (ws : List Written) : List Node :=
  List.zipWith (fun c w => .ref c.minKey c.ts w.nOff w.minOff) nodes ws

/-- A value and the offset of its history, as its record holds them. -/
def LeafValue.RecordFits (v : LeafValue) (h : Nat) : Prop :=
  v.key.length < 2 ^ 16 ∧ v.newest.Fits ∧ h < 2 ^ 64 ∧ v.historyCount - 1 < 2 ^ 64

/-- The value `readLeafNodeFrom` makes of a record of `v` with its history at `h`. -/
def LeafValue.asRead (v : LeafValue) (h : Nat) : LeafValue := ⟨v.key, v.newest, [], h, v.historyCount - 1⟩

section Read

variable {b : List UInt8}

/-- A `nodeRef` record reads back as a reference with the child's `minKey` and `ts`. -/
theorem readNodeRefFrom_of_holdsAt {i : Nat} {c : Node} {o mo : Nat}
    (hk : c.minKey.length < 2 ^ 16) (hts : c.ts < 2 ^ 64) (ho : o < 2 ^ 64) (hmo : mo < 2 ^ 64)
    (h : HoldsAt b i (nodeRefBytes c o mo)) :
    readNodeRefFrom b i = .ok (.ref c.minKey c.ts o mo, i + (nodeRefBytes c o mo).length) := by
  simp only [nodeRefBytes, List.append_assoc] at h
  obtain ⟨h1, h⟩ := holdsAt_append_iff.mp h
  obtain ⟨h2, h⟩ := holdsAt_append_iff.mp h
  obtain ⟨h3, h⟩ := holdsAt_append_iff.mp h
  obtain ⟨h4, h5⟩ := holdsAt_append_iff.mp h
  simp only [length_be] at h2 h3 h4 h5
  have r1 := Reader.readUint_of_holdsAt h1
  have r3 := Reader.readUint_of_holdsAt h3
  have r4 := Reader.readUint_of_holdsAt h4
  have r5 := Reader.readUint_of_holdsAt h5
  rw [Nat.mod_eq_of_lt hk] at r1
  rw [Nat.mod_eq_of_lt hts] at r3
  rw [Nat.mod_eq_of_lt ho] at r4
  rw [Nat.mod_eq_of_lt hmo] at r5
  simp only [readNodeRefFrom, Reader.bind_of_ok (liftRead_of_ok r1),
    Reader.bind_of_ok (liftRead_of_ok (Reader.read_of_holdsAt h2)), Reader.bind_of_ok (liftRead_of_ok r3),
    Reader.bind_of_ok (liftRead_of_ok r4), Reader.bind_of_ok (liftRead_of_ok r5), pure, StateT.pure,
    Except.pure]
  simp [nodeRefBytes]
  omega

theorem readNodeRefs_of_holdsAt : ∀ {nodes : List Node} {ws : List Written} {i : Nat},
    List.Forall₂ RefFits nodes ws →
    HoldsAt b i (List.zipWith (fun c w => nodeRefBytes c w.nOff w.minOff) nodes ws).flatten →
    readNodeRefs b nodes.length i = .ok (refsOf nodes ws,
      i + (List.zipWith (fun c w => nodeRefBytes c w.nOff w.minOff) nodes ws).flatten.length)
  | _, _, i, .nil, _ => by simp [readNodeRefs, refsOf, pure, StateT.pure, Except.pure]
  | c :: cs, w :: ws, i, .cons hf hfs, h => by
    rw [List.zipWith_cons_cons, List.flatten_cons] at h
    obtain ⟨h1, h2⟩ := holdsAt_append_iff.mp h
    have r1 := readNodeRefFrom_of_holdsAt hf.1 hf.2.1 hf.2.2.1 hf.2.2.2 h1
    have r2 := readNodeRefs_of_holdsAt hfs h2
    simp only [List.length_cons, readNodeRefs, Reader.bind_of_ok r1, Reader.bind_of_ok r2, pure,
      StateT.pure, Except.pure, refsOf, List.zipWith_cons_cons, List.flatten_cons,
      List.length_append, Nat.add_assoc]

/-- A value's record reads back as the value with its newest version only, its history where the
record points, and its count of the versions on the log. -/
theorem readLeafValue_of_holdsAt {i : Nat} {v : LeafValue} {h : Nat} (hf : v.RecordFits h)
    (hb : HoldsAt b i (leafValueBytes v h)) :
    readLeafValue b i = .ok (v.asRead h, i + (leafValueBytes v h).length) := by
  obtain ⟨hk, hv, hh, hc⟩ := hf
  simp only [leafValueBytes, List.append_assoc] at hb
  obtain ⟨h1, hb⟩ := holdsAt_append_iff.mp hb
  obtain ⟨h2, hb⟩ := holdsAt_append_iff.mp hb
  obtain ⟨h3, hb⟩ := holdsAt_append_iff.mp hb
  obtain ⟨h4, hb⟩ := holdsAt_append_iff.mp hb
  obtain ⟨h5, hb⟩ := holdsAt_append_iff.mp hb
  obtain ⟨h6, h7⟩ := holdsAt_append_iff.mp hb
  simp only [length_be] at h2 h3 h4 h5 h6 h7
  have r1 := Reader.readUint_of_holdsAt h1
  have r3 := Reader.readUint_of_holdsAt h3
  have r5 := Reader.readUint_of_holdsAt h5
  have r6 := Reader.readUint_of_holdsAt h6
  have r7 := Reader.readUint_of_holdsAt h7
  rw [Nat.mod_eq_of_lt hk] at r1
  rw [Nat.mod_eq_of_lt hv.1] at r3
  rw [Nat.mod_eq_of_lt hv.2] at r5
  rw [Nat.mod_eq_of_lt hh] at r6
  rw [Nat.mod_eq_of_lt hc] at r7
  simp only [readLeafValue, Reader.bind_of_ok (liftRead_of_ok r1),
    Reader.bind_of_ok (liftRead_of_ok (Reader.read_of_holdsAt h2)), Reader.bind_of_ok (liftRead_of_ok r3),
    Reader.bind_of_ok (liftRead_of_ok (Reader.read_of_holdsAt h4)), Reader.bind_of_ok (liftRead_of_ok r5),
    Reader.bind_of_ok (liftRead_of_ok r6), Reader.bind_of_ok (liftRead_of_ok r7), pure, StateT.pure,
    Except.pure]
  simp [leafValueBytes, LeafValue.asRead]
  omega

theorem readLeafValues_of_holdsAt : ∀ {values : List LeafValue} {hOffs : List Nat} {i : Nat},
    List.Forall₂ LeafValue.RecordFits values hOffs →
    HoldsAt b i (List.zipWith leafValueBytes values hOffs).flatten →
    readLeafValues b values.length i = .ok (List.zipWith LeafValue.asRead values hOffs,
      i + (List.zipWith leafValueBytes values hOffs).flatten.length)
  | _, _, i, .nil, _ => by simp [readLeafValues, pure, StateT.pure, Except.pure]
  | v :: vs, h :: hs, i, .cons hf hfs, hb => by
    rw [List.zipWith_cons_cons, List.flatten_cons] at hb
    obtain ⟨h1, h2⟩ := holdsAt_append_iff.mp hb
    have r1 := readLeafValue_of_holdsAt hf h1
    have r2 := readLeafValues_of_holdsAt hfs h2
    simp only [List.length_cons, readLeafValues, Reader.bind_of_ok r1, Reader.bind_of_ok r2, pure,
      StateT.pure, Except.pure, List.zipWith_cons_cons, List.flatten_cons, List.length_append,
      Nat.add_assoc]

/-- `readNodeFrom` starts at the node's offset, which it keeps as the node's `off`. -/
theorem get_nodeReader (i : Nat) : (get : NodeReader Nat) i = .ok (i, i) := rfl

/-- An inner node's record reads back as the node with a reference to each child. -/
theorem readNodeAt_inner {nodes : List Node} {ws : List Written} {nOff : Nat}
    (hlen : nodes.length < 2 ^ 16) (hfits : List.Forall₂ RefFits nodes ws)
    (h : HoldsAt b nOff (innerBytes nodes ws)) :
    readNodeAt b nOff = .ok (.inner (refsOf nodes ws) (((refsOf nodes ws).map Node.ts).foldl max 0)
      nOff (((refsOf nodes ws).map Node.minOffset).foldl min MaxInt64) false) := by
  rw [innerBytes, List.append_assoc] at h
  obtain ⟨h1, h⟩ := holdsAt_append_iff.mp h
  obtain ⟨h2, h3⟩ := holdsAt_append_iff.mp h
  simp only [List.length_singleton, length_be] at h2 h3
  have r2 := Reader.readUint_of_holdsAt h2
  rw [Nat.mod_eq_of_lt hlen] at r2
  simp only [readNodeAt, readNodeFrom, readInnerNodeFrom, StateT.run', Functor.map, Except.map,
    Reader.bind_of_ok (get_nodeReader nOff), Reader.bind_of_ok (liftRead_of_ok (Reader.readByte_of_holdsAt h1)),
    if_true, Reader.bind_of_ok (liftRead_of_ok r2), Reader.bind_of_ok (readNodeRefs_of_holdsAt hfits h3),
    pure, StateT.pure, Except.pure]

/-- A leaf's record reads back as the leaf with each value as its record holds it. -/
theorem readNodeAt_leaf {values : List LeafValue} {hOffs : List Nat} {nOff : Nat}
    (hlen : values.length < 2 ^ 16) (hfits : List.Forall₂ LeafValue.RecordFits values hOffs)
    (h : HoldsAt b nOff (leafBytes values hOffs)) :
    readNodeAt b nOff = .ok (.leaf (List.zipWith LeafValue.asRead values hOffs)
      (((List.zipWith LeafValue.asRead values hOffs).map (·.newest.Ts)).foldl max 0) nOff false) := by
  rw [leafBytes, List.append_assoc] at h
  obtain ⟨h1, h⟩ := holdsAt_append_iff.mp h
  obtain ⟨h2, h3⟩ := holdsAt_append_iff.mp h
  simp only [List.length_singleton, length_be] at h2 h3
  have r2 := Reader.readUint_of_holdsAt h2
  rw [Nat.mod_eq_of_lt hlen] at r2
  simp only [readNodeAt, readNodeFrom, readLeafNodeFrom, StateT.run', Functor.map, Except.map,
    Reader.bind_of_ok (get_nodeReader nOff), Reader.bind_of_ok (liftRead_of_ok (Reader.readByte_of_holdsAt h1)),
    if_neg (show LeafNodeType ≠ InnerNodeType by decide), if_true,
    Reader.bind_of_ok (liftRead_of_ok r2), Reader.bind_of_ok (readLeafValues_of_holdsAt hfits h3),
    pure, StateT.pure, Except.pure]

end Read

/-! ## 5. The round trip -/

/-- A node's record is not empty, so a node held at `nOff` starts inside the log. -/
theorem Stored.lt_length {nLog hLog : List UInt8} :
    ∀ {n : Node} {nOff : Nat}, Stored nLog hLog n nOff → nOff < nLog.length
  | _, _, .leaf _ hbytes _ => by
    have := hbytes.le_length
    simp only [leafBytes, List.length_append, List.length_singleton] at this
    omega
  | _, _, .inner _ hbytes _ => by
    have := hbytes.le_length
    simp only [innerBytes, List.length_append, List.length_singleton] at this
    omega
  | _, _, .ref _ hm _ _ _ => Stored.lt_length hm

theorem Node.Fits.ts_lt : ∀ {n : Node}, n.Fits → n.ts < 2 ^ 64
  | .inner .., h => h.2.1
  | .leaf .., h => h.2.1
  | .ref .., h => h.2

/-- The `minKey` of a tree that fits is one of its keys, or empty. -/
theorem Node.Fits.minKey_lt : ∀ {n : Node}, n.Fits → n.minKey.length < 2 ^ 16
  | .inner [] .., _ => by simp [Node.minKey]
  | .inner (c :: _) .., h => show c.minKey.length < 2 ^ 16 from Node.Fits.minKey_lt h.2.2.1
  | .leaf [] .., _ => by simp [Node.minKey]
  | .leaf (v :: _) .., h => (h.2.2 v List.mem_cons_self).1
  | .ref .., h => h.1

/-- The children of a node that fits, held where they were written in a log shorter than
`2 ^ 64`, fit their `nodeRef` records. -/
theorem StoredAll.refFits {nLog hLog : List UInt8} (hN : nLog.length < 2 ^ 64) :
    ∀ {cs : List Node} {ws : List Written}, Node.FitsAll cs → StoredAll nLog hLog cs ws →
      List.Forall₂ RefFits cs ws
  | _, _, _, .nil => .nil
  | _ :: _, _ :: _, hfit, .cons hc hmin hcs => by
    have hoff := hc.lt_length
    refine .cons ⟨hfit.1.minKey_lt, hfit.1.ts_lt, by omega, ?_⟩ (StoredAll.refFits hN hfit.2 hcs)
    rcases hmin with h | h
    · omega
    · simp only [MaxInt64] at h
      omega

/-- The history of a written value holds its older versions, then those its old history held. -/
theorem ChunkAt.historyAt {hLog : List UInt8} {v : LeafValue} {h : Nat} (hf : v.Fits)
    (hc : ChunkAt hLog v h) : ∀ L, HistoryAt hLog v.hOff L → HistoryAt hLog h (v.older ++ L) := by
  rcases hc with ⟨hnil, rfl⟩ | ⟨hne, hb⟩
  · intro L hL
    simpa [hnil] using hL
  · intro L hL
    exact .chunk hne hf.2.2.1 hf.2.2.2.1 hf.2.2.2.2.1 hb hL

/-- The values of a leaf that fits, with their histories where their records point in a history
log shorter than `2 ^ 64`: their records fit, and they read back as written. -/
theorem ChunkAt.readBack {hLog : List UInt8} (hH : hLog.length < 2 ^ 64) :
    ∀ {values : List LeafValue} {hOffs : List Nat}, (∀ v ∈ values, v.Fits) →
      List.Forall₂ (ChunkAt hLog) values hOffs →
      List.Forall₂ LeafValue.RecordFits values hOffs ∧
        List.Forall₂ (ValueReadsBack hLog) values (List.zipWith LeafValue.asRead values hOffs)
  | _, _, _, .nil => ⟨.nil, .nil⟩
  | v :: _, h :: _, hfit, .cons hc hcs => by
    have hv := hfit v List.mem_cons_self
    have hrest := ChunkAt.readBack hH (fun v' hv' => hfit v' (List.mem_cons_of_mem _ hv')) hcs
    have hh : h < 2 ^ 64 := by
      rcases hc with ⟨_, rfl⟩ | ⟨_, hb⟩
      · exact hv.2.2.2.2.1
      · have := hb.le_length
        simp only [historyChunk, List.length_append, length_be] at this
        omega
    exact ⟨.cons ⟨hv.1, hv.2.1, hh, hv.2.2.2.2.2⟩ hrest.1,
      .cons ⟨rfl, rfl, rfl, rfl, hc.historyAt hv⟩ hrest.2⟩

mutual

/-- **What the logs hold reads back.** A tree that fits, held at `nOff` in logs shorter than
`2 ^ 64`, reads back from there as written. -/
theorem Stored.readsBack {nLog hLog : List UInt8} (hN : nLog.length < 2 ^ 64)
    (hH : hLog.length < 2 ^ 64) :
    ∀ {n : Node} {nOff : Nat}, n.Fits → Stored nLog hLog n nOff → ReadsBack nLog hLog n nOff
  | _, _, hfit, .leaf _ hbytes hchunks => by
    obtain ⟨hrec, hvalues⟩ := ChunkAt.readBack hH hfit.2.2 hchunks
    exact .leaf _ (readNodeAt_leaf hfit.1 hrec hbytes) hvalues
  | _, _, hfit, .inner _ hbytes hchildren =>
    .inner _ (readNodeAt_inner hfit.1 (hchildren.refFits hN hfit.2.2) hbytes)
      (StoredAll.readsBack hN hH hfit.2.2 hchildren)
  | _, _, _, .ref m hm hfit hkey hts => .ref m (Stored.readsBack hN hH hfit hm) hkey hts

theorem StoredAll.readsBack {nLog hLog : List UInt8} (hN : nLog.length < 2 ^ 64)
    (hH : hLog.length < 2 ^ 64) :
    ∀ {cs : List Node} {ws : List Written}, Node.FitsAll cs → StoredAll nLog hLog cs ws →
      ReadsBackAll nLog hLog cs (refsOf cs ws)
  | _, _, _, .nil => .nil
  | _ :: _, _ :: _, hfit, .cons hc _ hcs =>
    .cons (Stored.readsBack hN hH hfit.1 hc) (StoredAll.readsBack hN hH hfit.2 hcs)

end

section RoundTrip

variable {loadWrite : WriteOpts → Nat → Logs → Except TbtreeError Written × Logs}

end RoundTrip

end Immudb.Tbtree
