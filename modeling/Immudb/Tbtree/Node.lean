import Immudb.Appendable.Log
import Immudb.Lib.Bytes

/-!
# `Immudb/Tbtree/Node.lean` — the nodes of a TBtree, and how `writeTo` writes them

`embedded/tbtree`. A TBtree is a B-tree of timed values: an `innerNode` holds its children, a
`leafNode` its `leafValue`s, and a `nodeRef` stands for a node already on the node log (`nLog`),
at an offset. A leaf value keeps its versions newest first; older versions move to the history
log (`hLog`) when the leaf is written, in a chunk that ends with the offset of the value's
previous chunk.

`Snapshot.WriteTo(nw, hw, opts)` writes a tree post-order (`snapshot.go`): each child before its
parent, at `BaseNLogOffset` plus what the earlier siblings wrote, and each history chunk at
`BaseHLogOffset` plus what was written to `hw` before it. With `OnlyMutated`, a node that is not
mutated and whose offsets are not below `MinOffset` is not written again: its offsets are
returned. With `commitLog`, `writeTo` records in each node where it was written as it goes
(`off`, `_minOff`, `mut = false`, a leaf value's history cut to its newest version, a written
child replaced by a `nodeRef`), before the whole write has succeeded. A write that fails returns
at once, so the model returns, besides the error, the node as far as `writeTo` updated it.

The writers are any functions from what a log holds and the bytes to write to the log after the
write, or an error: an appendable, or one that fails at some point (`appendableWriter` over a
full disk). `nodeRef.writeTo` reads the node it stands for from the tree (`t.nodeAt`) and writes
it; how a tree loads and writes a stored node is a parameter (`loadWrite`).
-/

set_option autoImplicit false

namespace Immudb.Tbtree

open Bytes

/-- The errors of the tree: those of its appendables, the sentinels of `tbtree.go`, and the
failure of a writer. -/
inductive TbtreeError where
  | appendable (e : Appendable.LogError)
  | readingFileContent
  | illegalArguments
  | noMoreEntries
  | offsetOutOfRange
  | write
  /-- A chain of history chunks longer than the versions it should hold, which the code would
  go on reading. -/
  | historyChain
  deriving DecidableEq, Repr

/-- `TimedValue`. -/
structure TimedValue where
  Value : List UInt8
  Ts : Nat
  deriving DecidableEq, Repr

/-- `leafValue`: the key, the versions newest first (`timedValues`, never empty, so the newest
stands apart), and where the versions already on the history log start (`hOff`) and how many
there are (`hCount`). -/
structure LeafValue where
  key : List UInt8
  newest : TimedValue
  older : List TimedValue
  hOff : Nat
  hCount : Nat
  deriving DecidableEq, Repr

namespace LeafValue

/-- `timedValues`. -/
def timedValues (v : LeafValue) : List TimedValue := v.newest :: v.older

/-- `historyCount()`: the versions in memory and on the history log. -/
def historyCount (v : LeafValue) : Nat := v.hCount + v.timedValues.length

end LeafValue

/-- `node`: an `innerNode` (`nodes`, `_ts`, `off`, `_minOff`, `mut`), a `leafNode` (`values`,
`_ts`, `off`, `mut`), or a `nodeRef` (`_minKey`, `_ts`, `off`, `_minOff`). -/
inductive Node where
  | inner (nodes : List Node) (ts off minOff : Nat) (mutated : Bool)
  | leaf (values : List LeafValue) (ts off : Nat) (mutated : Bool)
  | ref (minKey : List UInt8) (ts off minOff : Nat)
  deriving Repr

namespace Node

/-- `minKey()`: the first key below the node, `nil` for an empty one. -/
def minKey : Node → List UInt8
  | .inner [] .. => []
  | .inner (c :: _) .. => c.minKey
  | .leaf [] .. => []
  | .leaf (v :: _) .. => v.key
  | .ref minKey .. => minKey

/-- `ts()`. -/
def ts : Node → Nat
  | .inner _ ts .. | .leaf _ ts .. | .ref _ ts .. => ts

/-- `mutated()`. -/
def mutated : Node → Bool
  | .inner _ _ _ _ isMut | .leaf _ _ _ isMut => isMut
  | .ref .. => false

/-- `offset()`. -/
def offset : Node → Nat
  | .inner _ _ off .. | .leaf _ _ off _ | .ref _ _ off _ => off

/-- `minOffset()`: a leaf's is its own offset. -/
def minOffset : Node → Nat
  | .inner _ _ _ minOff _ | .ref _ _ _ minOff => minOff
  | .leaf _ _ off _ => off

end Node

/-! ## 1. What is written -/

/-- `InnerNodeType`. -/
def InnerNodeType : UInt8 := 0

/-- `LeafNodeType`. -/
def LeafNodeType : UInt8 := 1

/-- `math.MaxInt64`, the smallest offset of an inner node with no child. -/
def MaxInt64 : Nat := 2 ^ 63 - 1

/-- `writeNodeRefToWithOffset`: the child's `minKey` behind its length, its `ts`, its offset and
its smallest offset. -/
def nodeRefBytes (c : Node) (offset minOff : Nat) : List UInt8 :=
  be 2 c.minKey.length ++ c.minKey ++ be 8 c.ts ++ be 8 offset ++ be 8 minOff

/-- A version in a history chunk: the value behind its length, and its `ts`. -/
def timedValueBytes (tv : TimedValue) : List UInt8 :=
  be 2 tv.Value.length ++ tv.Value ++ be 8 tv.Ts

/-- The history chunk of a value with older versions: how many, the versions, and the offset of
the value's previous chunk. -/
def historyChunk (v : LeafValue) : List UInt8 :=
  be 4 v.older.length ++ (v.older.map timedValueBytes).flatten ++ be 8 v.hOff

/-- A value in a leaf: the key and the newest version behind their lengths, the newest `ts`, and
where and how many older versions are on the history log. -/
def leafValueBytes (v : LeafValue) (hOff : Nat) : List UInt8 :=
  be 2 v.key.length ++ v.key ++ be 2 v.newest.Value.length ++ v.newest.Value ++ be 8 v.newest.Ts ++
    be 8 hOff ++ be 8 (v.historyCount - 1)

/-- `innerNode.size()`. -/
def innerSize (nodes : List Node) : Nat :=
  1 + 2 + (nodes.map fun c => 2 + c.minKey.length + 8 + 8 + 8).sum

/-- `leafNode.size()`. -/
def leafSize (values : List LeafValue) : Nat :=
  1 + 2 + (values.map fun v => 2 + v.key.length + 2 + v.newest.Value.length + 8 + 8 + 8).sum

/-! ## 2. `writeTo` -/

/-- `WriteOpts`, but for the progress callback. -/
structure WriteOpts where
  OnlyMutated : Bool
  BaseNLogOffset : Nat
  BaseHLogOffset : Nat
  commitLog : Bool
  MinOffset : Nat
  deriving DecidableEq, Repr

/-- The node log and the history log. -/
structure Logs where
  nLog : List UInt8
  hLog : List UInt8
  deriving DecidableEq, Repr

/-- An `io.Writer` into a log: what the log holds after the bytes are written, or an error. -/
abbrev Writer := List UInt8 → List UInt8 → Except TbtreeError (List UInt8)

/-- `appendableWriter` over an appendable that takes every write. -/
def appendWriter : Writer := fun log bs => .ok (log ++ bs)

/-- What `writeTo` returns: `nOff`, `minOff`, `wN`, `wH`. -/
structure Written where
  nOff : Nat
  minOff : Nat
  wN : Nat
  wH : Nat
  deriving DecidableEq, Repr

/-- The options a child is written with: its parent's, from the offsets its earlier siblings
reached. -/
def WriteOpts.shift (opts : WriteOpts) (cnw chw : Nat) : WriteOpts :=
  { opts with BaseNLogOffset := opts.BaseNLogOffset + cnw,
              BaseHLogOffset := opts.BaseHLogOffset + chw }

/-- The loop of `leafNode.writeTo` over the values, from `accH` bytes of history written: each
value's history chunk, when it has older versions, written to `hw` at `BaseHLogOffset + accH`,
then its record; with `commitLog`, the value cut to its newest version right after. The values
come back as far as the loop updated them, also when a write fails. -/
def writeValues (hw : Writer) (opts : WriteOpts) :
    List LeafValue → Nat → List UInt8 →
      Except TbtreeError (List UInt8 × Nat) × List LeafValue × List UInt8
  | [], accH, hLog => (.ok ([], accH), [], hLog)
  | v :: vs, accH, hLog =>
    let chunk : Except TbtreeError (Nat × Nat × List UInt8) :=
      if v.older = [] then .ok (v.hOff, accH, hLog)
      else match hw hLog (historyChunk v) with
        | .ok hLog' => .ok (opts.BaseHLogOffset + accH, accH + (historyChunk v).length, hLog')
        | .error e => .error e
    match chunk with
    | .error e => (.error e, v :: vs, hLog)
    | .ok (hOff, accH', hLog') =>
      let v' := if opts.commitLog then
          { v with older := [], hOff := hOff, hCount := v.historyCount - 1 }
        else v
      match writeValues hw opts vs accH' hLog' with
      | (.ok (bs, accH''), vs', hLog'') => (.ok (leafValueBytes v hOff ++ bs, accH''), v' :: vs', hLog'')
      | (.error e, vs', hLog'') => (.error e, v' :: vs', hLog'')

/-- What an inner node with `commitLog` keeps of a written child: a `nodeRef` to it. -/
def Node.toRef : Node → Node
  | .ref minKey ts off minOff => .ref minKey ts off minOff
  | c => .ref c.minKey c.ts c.offset c.minOffset

mutual

/-- `node.writeTo(nw, hw, writeOpts, buf)` on the logs: what it returns, the node as `writeTo`
left it, and the logs. -/
def Node.writeTo (nw hw : Writer) (loadWrite : WriteOpts → Nat → Logs → Except TbtreeError Written × Logs) :
    WriteOpts → Node → Logs → Except TbtreeError Written × Node × Logs
  | opts, .inner nodes ts off minOff isMut, logs =>
    if opts.OnlyMutated ∧ !isMut ∧ opts.MinOffset ≤ minOff then
      (.ok ⟨off, minOff, 0, 0⟩, .inner nodes ts off minOff isMut, logs)
    else
      match writeChildren nw hw loadWrite opts nodes 0 0 logs with
      | (.error e, nodes', logs') => (.error e, .inner nodes' ts off minOff isMut, logs')
      | (.ok ws, nodes', logs') =>
        let cnw := (ws.map (·.wN)).sum
        let chw := (ws.map (·.wH)).sum
        let minOff' := (ws.map (·.minOff)).foldl min MaxInt64
        let buf := [InnerNodeType] ++ be 2 nodes'.length ++
          (List.zipWith (fun c w => nodeRefBytes c w.nOff w.minOff) nodes' ws).flatten
        match nw logs'.nLog buf with
        | .error e => (.error e, .inner nodes' ts off minOff isMut, logs')
        | .ok nLog' =>
          let nOff := opts.BaseNLogOffset + cnw
          let n' := if opts.commitLog then
              .inner (if isMut then nodes'.map Node.toRef else nodes') ts nOff minOff' false
            else .inner nodes' ts off minOff isMut
          (.ok ⟨nOff, minOff', cnw + innerSize nodes', chw⟩, n', ⟨nLog', logs'.hLog⟩)
  | opts, .leaf values ts off isMut, logs =>
    if opts.OnlyMutated ∧ !isMut ∧ opts.MinOffset ≤ off then
      (.ok ⟨off, off, 0, 0⟩, .leaf values ts off isMut, logs)
    else
      match writeValues hw opts values 0 logs.hLog with
      | (.error e, values', hLog') => (.error e, .leaf values' ts off isMut, ⟨logs.nLog, hLog'⟩)
      | (.ok (bs, accH), values', hLog') =>
        match nw logs.nLog ([LeafNodeType] ++ be 2 values.length ++ bs) with
        | .error e => (.error e, .leaf values' ts off isMut, ⟨logs.nLog, hLog'⟩)
        | .ok nLog' =>
          let nOff := opts.BaseNLogOffset
          let l' := if opts.commitLog then .leaf values' ts nOff false else .leaf values' ts off isMut
          (.ok ⟨nOff, nOff, leafSize values, accH⟩, l', ⟨nLog', hLog'⟩)
  | opts, .ref minKey ts off minOff, logs =>
    if opts.OnlyMutated ∧ opts.MinOffset ≤ minOff then
      (.ok ⟨off, minOff, 0, 0⟩, .ref minKey ts off minOff, logs)
    else
      match loadWrite opts off logs with
      | (.error e, logs') => (.error e, .ref minKey ts off minOff, logs')
      | (.ok w, logs') =>
        let r' := if opts.commitLog then .ref minKey ts w.nOff w.minOff else .ref minKey ts off minOff
        (.ok w, r', logs')

/-- The loop of `innerNode.writeTo` over the children, from `cnw` and `chw` bytes written by the
earlier ones. -/
def writeChildren (nw hw : Writer) (loadWrite : WriteOpts → Nat → Logs → Except TbtreeError Written × Logs) :
    WriteOpts → List Node → Nat → Nat → Logs → Except TbtreeError (List Written) × List Node × Logs
  | _, [], _, _, logs => (.ok [], [], logs)
  | opts, c :: cs, cnw, chw, logs =>
    match Node.writeTo nw hw loadWrite (opts.shift cnw chw) c logs with
    | (.error e, c', logs') => (.error e, c' :: cs, logs')
    | (.ok w, c', logs') =>
      match writeChildren nw hw loadWrite opts cs (cnw + w.wN) (chw + w.wH) logs' with
      | (.ok ws, cs', logs'') => (.ok (w :: ws), c' :: cs', logs'')
      | (.error e, cs', logs'') => (.error e, c' :: cs', logs'')

end

end Immudb.Tbtree
