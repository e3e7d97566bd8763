import Immudb.Tbtree.Read

/-!
# `Immudb/Tbtree/Flush.lean` — `flushTree`, and a flush that fails half-way

`TBtree.flushTree` (`tbtree.go`) writes the mutated part of the tree behind what the last
successful flush committed. It first rewinds both logs to `committedHLogSize` and
`committedNLogSize` ("will overwrite partially written and uncommitted data"), then runs
`Snapshot.WriteTo` on the root itself, with `OnlyMutated` and `commitLog`, and moves the
committed sizes on only when the write succeeded.

A write that fails has already updated the nodes it reached (`Node.writeTo`): a leaf value
written before the failure keeps only its newest version, and its history is now the chunk just
written at `committedHLogSize`, in the region the next flush rewinds. The leaf is still mutated,
so the next flush writes it again; the value has no older version left in memory, so no chunk is
written for it and it keeps its `hOff`, while the next value's chunk goes to the same offset.
`flushTree_retry_shares_history` follows this through.

The commit log (`cLog`), syncing, the discard of unreferenced data and the counters that only
the flush's caller reads are not modelled; the cleanup percentage is a whole number.
-/

set_option autoImplicit false

namespace Immudb.Tbtree

open Bytes

/-! ## 1. The tree and its flush -/

/-- The fields of `TBtree` that `flushTree` reads and sets. -/
structure TBtree where
  root : Node
  logs : Logs
  committedNLogSize : Nat
  committedHLogSize : Nat
  minOffset : Nat
  insertionCountSinceCleanup : Nat
  flushThld : Nat

/-- `TBtree.flushTree(cleanupPercentageHint, forceSync, forceCleanup, src)`: what it returns
(`wN`, `wH`) and the tree it leaves, also when it fails. -/
def TBtree.flushTree (nw hw : Writer)
    (loadWrite : WriteOpts → Nat → Logs → Except TbtreeError Written × Logs)
    (cleanupPercentageHint : Nat) (forceCleanup : Bool) (t : TBtree) :
    Except TbtreeError (Nat × Nat) × TBtree :=
  if cleanupPercentageHint > 100 then (.error .illegalArguments, t) else
  let cleanupPercentage :=
    if !forceCleanup ∧ t.insertionCountSinceCleanup < t.flushThld then 0 else cleanupPercentageHint
  if !t.root.mutated ∧ cleanupPercentage = 0 then (.ok (0, 0), t) else
  match Appendable.setOffset t.logs.hLog t.committedHLogSize with
  | .error e => (.error (.appendable e), t)
  | .ok hLog =>
    match Appendable.setOffset t.logs.nLog t.committedNLogSize with
    | .error e => (.error (.appendable e), { t with logs := { t.logs with hLog := hLog } })
    | .ok nLog =>
      let expectedNewMinOffset :=
        t.minOffset + (t.committedNLogSize - t.minOffset) * cleanupPercentage / 100
      let wopts : WriteOpts :=
        ⟨true, t.committedNLogSize, t.committedHLogSize, true, expectedNewMinOffset⟩
      match t.root.writeTo nw hw loadWrite wopts ⟨nLog, hLog⟩ with
      -- `snapshot.WriteTo` wrote into `t.root`'s own nodes: they stay as it left them
      | (.error e, root, logs) => (.error e, { t with root := root, logs := logs })
      | (.ok w, root, logs) =>
        (.ok (w.wN, w.wH),
          { t with root := root, logs := logs, minOffset := root.minOffset,
                   committedNLogSize := t.committedNLogSize + w.wN,
                   committedHLogSize := t.committedHLogSize + w.wH,
                   insertionCountSinceCleanup :=
                     if cleanupPercentage ≠ 0 then 0 else t.insertionCountSinceCleanup })

/-- An appendable that takes writes until it holds `cap` bytes and refuses the first write that
would go past them, as a full disk does. -/
def capWriter (cap : Nat) : Writer := fun log bs =>
  if log.length + bs.length ≤ cap then .ok (log ++ bs) else .error .write

/-- With no cleanup, a flush of a mutated tree whose logs hold what was committed rewinds the logs
to the committed sizes and writes the root behind them. -/
theorem TBtree.flushTree_eq {nw hw : Writer}
    {loadWrite : WriteOpts → Nat → Logs → Except TbtreeError Written × Logs} {forceCleanup : Bool}
    {t : TBtree} (hm : t.root.mutated = true) (hh : t.committedHLogSize ≤ t.logs.hLog.length)
    (hn : t.committedNLogSize ≤ t.logs.nLog.length) :
    t.flushTree nw hw loadWrite 0 forceCleanup =
      match t.root.writeTo nw hw loadWrite
          ⟨true, t.committedNLogSize, t.committedHLogSize, true, t.minOffset⟩
          ⟨t.logs.nLog.take t.committedNLogSize, t.logs.hLog.take t.committedHLogSize⟩ with
      | (.error e, root, logs) => (.error e, { t with root := root, logs := logs })
      | (.ok w, root, logs) =>
        (.ok (w.wN, w.wH), { t with root := root, logs := logs, minOffset := root.minOffset,
                                    committedNLogSize := t.committedNLogSize + w.wN,
                                    committedHLogSize := t.committedHLogSize + w.wH }) := by
  simp [TBtree.flushTree, hm, Appendable.setOffset, hh, hn]

/-! ## 2. Writing a leaf -/

/-- A history chunk is never empty: it starts with the count of its versions. -/
theorem historyChunk_length_pos (v : LeafValue) : 0 < (historyChunk v).length := by
  simp [historyChunk]

/-- A value whose history is already on the log is written with no chunk, and `commitLog`
leaves it as it is. -/
theorem LeafValue.trim_of_older_nil {v : LeafValue} (h : v.older = []) :
    ({ v with older := [], hOff := v.hOff, hCount := v.historyCount - 1 } : LeafValue) = v := by
  cases v
  simp_all [LeafValue.historyCount, LeafValue.timedValues]

/-- Into appendables that take every write, the values of a leaf are all written, and the
history log only grows. -/
theorem writeValues_appendWriter (opts : WriteOpts) : ∀ (vs : List LeafValue) (accH : Nat)
    (hLog : List UInt8), ∃ bs accH' vs' c,
      writeValues appendWriter opts vs accH hLog = (.ok (bs, accH'), vs', hLog ++ c)
  | [], accH, hLog => ⟨[], accH, [], [], by simp [writeValues]⟩
  | v :: vs, accH, hLog => by
    by_cases h : v.older = []
    · obtain ⟨bs, accH', vs', c, hw⟩ := writeValues_appendWriter opts vs accH hLog
      exact ⟨_, _, _, c, by simp only [writeValues, h, if_true, hw]; rfl⟩
    · obtain ⟨bs, accH', vs', c, hw⟩ := writeValues_appendWriter opts vs
        (accH + (historyChunk v).length) (hLog ++ historyChunk v)
      exact ⟨_, _, _, historyChunk v ++ c, by
        simp only [writeValues, h, if_false, appendWriter, hw, List.append_assoc]; rfl⟩

/-- Into appendables that take every write, `commitLog` writes a mutated leaf at
`BaseNLogOffset`, with its values as `writeValues` left them. -/
theorem Node.writeTo_leaf_of_writeValues
    {loadWrite : WriteOpts → Nat → Logs → Except TbtreeError Written × Logs} {opts : WriteOpts}
    {values values' : List LeafValue} {ts off accH : Nat} {logs : Logs} {bs hLog : List UInt8}
    (hc : opts.commitLog = true)
    (hw : writeValues appendWriter opts values 0 logs.hLog = (.ok (bs, accH), values', hLog)) :
    (Node.leaf values ts off true).writeTo appendWriter appendWriter loadWrite opts logs =
      (.ok ⟨opts.BaseNLogOffset, opts.BaseNLogOffset, leafSize values, accH⟩,
        .leaf values' ts opts.BaseNLogOffset false,
        ⟨logs.nLog ++ ([LeafNodeType] ++ be 2 values.length ++ bs), hLog⟩) := by
  simp [Node.writeTo, hw, appendWriter, hc]

/-! ## 3. A flush that fails, and the flush after it -/

section Retry

variable {loadWrite : WriteOpts → Nat → Logs → Except TbtreeError Written × Logs}
  {t : TBtree} {v₁ v₂ : LeafValue} {vs : List LeafValue} {ts off : Nat}

/-- The first flush of a mutated leaf whose first two values have older versions, when the
history log takes the first value's chunk and not the second's: the first value is cut to its
newest version with its history at `committedHLogSize`, and the flush fails with the leaf still
mutated and the chunk left on the history log. -/
theorem flushTree_fails_after_first_chunk (hroot : t.root = .leaf (v₁ :: v₂ :: vs) ts off true)
    (hh : t.logs.hLog.length = t.committedHLogSize) (hn : t.logs.nLog.length = t.committedNLogSize)
    (h₁ : v₁.older ≠ []) (h₂ : v₂.older ≠ []) :
    t.flushTree appendWriter (capWriter (t.committedHLogSize + (historyChunk v₁).length)) loadWrite
        0 false =
      (.error .write, { t with
        root := .leaf ({ v₁ with older := [], hOff := t.committedHLogSize,
                                 hCount := v₁.historyCount - 1 } :: v₂ :: vs) ts off true,
        logs := ⟨t.logs.nLog, t.logs.hLog ++ historyChunk v₁⟩ }) := by
  have hne : historyChunk v₂ ≠ [] := List.ne_nil_of_length_pos (historyChunk_length_pos v₂)
  rw [TBtree.flushTree_eq (by simp [hroot, Node.mutated]) hh.ge hn.ge, hroot, ← hh, ← hn,
    List.take_length, List.take_length]
  simp [Node.writeTo, writeValues, h₁, h₂, capWriter, hne, hh]

/-- The flush after it, into appendables that take every write: the leaf is written again, the
first value with no chunk at the `hOff` it has, the second with its chunk at
`committedHLogSize`. -/
theorem flushTree_after_failed (hroot : t.root = .leaf (v₁ :: v₂ :: vs) ts off true)
    (hh : t.committedHLogSize ≤ t.logs.hLog.length) (hn : t.committedNLogSize ≤ t.logs.nLog.length)
    (h₁ : v₁.older = []) (h₂ : v₂.older ≠ []) :
    ∃ w t' vs' c, t.flushTree appendWriter appendWriter loadWrite 0 false = (.ok w, t') ∧
      t'.root = .leaf (v₁ :: { v₂ with older := [], hOff := t.committedHLogSize,
                                       hCount := v₂.historyCount - 1 } :: vs')
        ts t.committedNLogSize false ∧
      t'.logs.hLog = t.logs.hLog.take t.committedHLogSize ++ historyChunk v₂ ++ c := by
  let opts : WriteOpts := ⟨true, t.committedNLogSize, t.committedHLogSize, true, t.minOffset⟩
  -- the values after the first two are written as they come
  obtain ⟨bs, accH, vs', c, hrest⟩ := writeValues_appendWriter opts vs (historyChunk v₂).length
    (t.logs.hLog.take t.committedHLogSize ++ historyChunk v₂)
  have hw : writeValues appendWriter opts (v₁ :: v₂ :: vs) 0 (t.logs.hLog.take t.committedHLogSize) =
      (.ok (leafValueBytes v₁ v₁.hOff ++ (leafValueBytes v₂ t.committedHLogSize ++ bs), accH),
        v₁ :: { v₂ with older := [], hOff := t.committedHLogSize, hCount := v₂.historyCount - 1 } :: vs',
        t.logs.hLog.take t.committedHLogSize ++ historyChunk v₂ ++ c) := by
    simp [writeValues, h₁, h₂, appendWriter, hrest, opts, LeafValue.trim_of_older_nil h₁]
  rw [TBtree.flushTree_eq (by simp [hroot, Node.mutated]) hh hn, hroot,
    Node.writeTo_leaf_of_writeValues rfl hw]
  exact ⟨_, _, vs', c, rfl, rfl, rfl⟩

/-- **A failed flush and the flush after it give two values one history.** A mutated leaf whose
first two values have older versions, on logs that hold what was committed: the first flush
fails at the second value's chunk, the next one succeeds, and after it both values have their
history at `committedHLogSize`, where the second value's chunk is. The first value's second
version was `tv₁` before the flushes and is `tv₂`, the second value's, after them. -/
theorem flushTree_retry_shares_history (hroot : t.root = .leaf (v₁ :: v₂ :: vs) ts off true)
    (hh : t.logs.hLog.length = t.committedHLogSize) (hn : t.logs.nLog.length = t.committedNLogSize)
    {tv₁ tv₂ : TimedValue} {o₁ o₂ : List TimedValue} (h₁ : v₁.older = tv₁ :: o₁)
    (h₂ : v₂.older = tv₂ :: o₂) (hfit : tv₂.Fits) (hlen : v₂.older.length < 2 ^ 32) :
    let r₁ := t.flushTree appendWriter (capWriter (t.committedHLogSize + (historyChunk v₁).length))
      loadWrite 0 false
    let r₂ := r₁.2.flushTree appendWriter appendWriter loadWrite 0 false
    v₁.history t.logs.hLog 1 true 1 = .ok ([tv₁], v₁.historyCount) ∧
    r₁.1 = .error .write ∧
    ∃ w v₁' v₂' vs', r₂.1 = .ok w ∧
      r₂.2.root = .leaf (v₁' :: v₂' :: vs') ts t.committedNLogSize false ∧
      v₁'.key = v₁.key ∧ v₁'.hOff = v₂'.hOff ∧
      v₁'.history r₂.2.logs.hLog 1 true 1 = .ok ([tv₂], v₁.historyCount) := by
  intro r₁ r₂
  have hcount : 2 ≤ v₁.historyCount := by
    simp [LeafValue.historyCount, LeafValue.timedValues, h₁]
    omega
  -- before the flushes, the second version is in memory
  have hbefore : v₁.history t.logs.hLog 1 true 1 = .ok ([tv₁], v₁.historyCount) := by
    rw [LeafValue.history_of_inMem le_rfl (by simp [LeafValue.timedValues, h₁])]
    simp [LeafValue.timedValues, h₁]
  -- the first flush fails, with the first value cut to its newest version
  have hr₁ : r₁ = _ := flushTree_fails_after_first_chunk hroot hh hn (by simp [h₁]) (by simp [h₂])
  let v₁' : LeafValue :=
    { v₁ with older := [], hOff := t.committedHLogSize, hCount := v₁.historyCount - 1 }
  -- the second one writes the leaf again, on the history log as the first flush found it
  obtain ⟨w, t₂, vs', c, hr₂, hroot₂, hlog₂⟩ :=
    @flushTree_after_failed loadWrite r₁.2 v₁' v₂ vs ts off
      (by rw [hr₁]) (by rw [hr₁]; simp [hh]) (by rw [hr₁]; simp [hn]) rfl (by simp [h₂])
  have hlog : t₂.logs.hLog = t.logs.hLog ++ historyChunk v₂ ++ c := by
    rw [hlog₂, hr₁]
    simp [← hh]
  -- the first value reads its history at the second value's chunk
  have hchunk : HoldsAt t₂.logs.hLog v₁'.hOff
      (be 4 v₂.older.length ++ timedValueBytes tv₂ ++ ((o₂.map timedValueBytes).flatten ++ be 8 v₂.hOff)) := by
    have := holdsAt_append t.logs.hLog (historyChunk v₂) c
    rw [hh] at this
    rw [hlog]
    simpa [historyChunk, h₂, List.append_assoc] using this
  have hafter := LeafValue.history_one_of_chunk (b := t₂.logs.hLog) (v := v₁') rfl (by simp [v₁']; omega)
    (by simp [h₂]) hlen hfit (by simp) hchunk
  have hcount' : v₁'.historyCount = v₁.historyCount := by
    simp [v₁', LeafValue.historyCount, LeafValue.timedValues]
    omega
  have hr₂' : r₂ = (.ok w, t₂) := hr₂
  refine ⟨hbefore, by rw [hr₁], w, v₁',
    { v₂ with older := [], hOff := r₁.2.committedHLogSize, hCount := v₂.historyCount - 1 }, vs',
    by rw [hr₂'], by rw [hr₂', hroot₂, hr₁], rfl, by rw [hr₁], ?_⟩
  rw [hr₂', ← hcount']
  exact hafter

/-- A leaf with the keys `[1]` and `[2]`, each with one older version, flushed from empty logs
with a history log that takes only the first chunk, then flushed again. -/
theorem flushTree_retry_shares_history_two_values :
    let v₁ : LeafValue := ⟨[1], ⟨[1], 2⟩, [⟨[1], 1⟩], 0, 0⟩
    let v₂ : LeafValue := ⟨[2], ⟨[2], 2⟩, [⟨[2], 1⟩], 0, 0⟩
    let t : TBtree := ⟨.leaf [v₁, v₂] 2 0 true, ⟨[], []⟩, 0, 0, 0, 0, 0⟩
    let loadWrite : WriteOpts → Nat → Logs → Except TbtreeError Written × Logs :=
      fun _ _ logs => (.error .readingFileContent, logs)
    let r₁ := t.flushTree appendWriter (capWriter (t.committedHLogSize + (historyChunk v₁).length))
      loadWrite 0 false
    let r₂ := r₁.2.flushTree appendWriter appendWriter loadWrite 0 false
    v₁.history t.logs.hLog 1 true 1 = .ok ([⟨[1], 1⟩], v₁.historyCount) ∧
    r₁.1 = .error .write ∧
    ∃ w v₁' v₂' vs', r₂.1 = .ok w ∧
      r₂.2.root = .leaf (v₁' :: v₂' :: vs') 2 t.committedNLogSize false ∧
      v₁'.key = v₁.key ∧ v₁'.hOff = v₂'.hOff ∧
      v₁'.history r₂.2.logs.hLog 1 true 1 = .ok ([⟨[2], 1⟩], v₁.historyCount) :=
  flushTree_retry_shares_history rfl rfl rfl rfl rfl (by decide) (by decide)

end Retry

end Immudb.Tbtree
