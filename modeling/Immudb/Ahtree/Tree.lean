import Immudb.Ahtree.Layout
import Immudb.Appendable.Log
import Immudb.Lib.Bytes

/-!
# `Immudb/Ahtree/Tree.lean` — the appendable hash tree, operation by operation

`embedded/ahtree/ahtree.go`. An `AHtree` keeps three logs — payloads (`pLog`), digests (`dLog`),
and one commit record per leaf (`cLog`) — with the logical size of each, a buffer of commit
records not yet synced, and a cache of digests. Every operation is a Go method that mutates the
struct in place and may return an error after part of its work is done; the model is therefore a
program in `EStateM AhtError (AHtree D)`, whose result carries the state in both the success and
the error case, exactly as the mutated struct survives a failed Go call.

Modelled, each under its Go name: `nodeAt`, `node`, `append` (with its digest loop
`appendLoop`), `sync`/`Sync`, `resetSize`, `close`, `openWith`, `rootAt`. Sizes that the Go code
keeps in bytes are kept in records: `cLogSize` counts 12-byte commit records and `dLogSize`
32-byte digests, so the code's `x / cLogEntrySize` and `x / sha256.Size` disappear.

Left out, and why:
* the payload cache `pCache` — it is read only by `DataAt`, which no result here is about;
* the mutex — every method holds it for its whole body, so a call is one atomic step;
* I/O errors of the appendables other than offsets and reads past the end — the logs are
  in-memory lists here (`Immudb/Appendable/Log.lean`), each with what its file holds past its
  write offset (`pStale`, `dStale`, `cStale`): `SetOffset` leaves those bytes in the file, and
  a reopen reads every log whole;
* `d == nil` in `Append` — a Lean list has no `nil` distinct from the empty payload.

`step` runs one operation of `Op` and keeps the resulting state whatever the outcome; `run` folds
it over a sequence. The digest cache may forget any entry at any time (`Op.evict`): that is all a
correctness argument may assume of the cache's eviction policy.
-/

set_option autoImplicit false

namespace Immudb.Ahtree

open Hashing Appendable Bits

/-- The errors of `embedded/ahtree`, and those of its logs. -/
inductive AhtError where
  | illegalArguments
  | corruptedData
  | corruptedDigests
  | alreadyClosed
  | emptyTree
  | readOnly
  | unexistentData
  | cannotResetToLargerSize
  | log (e : LogError)
  deriving DecidableEq, Repr

/-- A commit-log record: where the payload starts in `pLog`, and its size as written
(`uint32(len(d))`). -/
structure CLogEntry where
  pOff : Nat
  pSize : Nat
  deriving DecidableEq, Repr

/-- `szSize`: the bytes of the size prefix of a payload in `pLog`. -/
def szSize : Nat := 4

/-- Where the payload a record points to ends in `pLog`. -/
def CLogEntry.pEnd (e : CLogEntry) : Nat := e.pOff + szSize + e.pSize

/-- The options `OpenWith` validates: a writable tree syncs after at least one append. -/
structure Options where
  syncThld : Nat
  readOnly : Bool
  valid : readOnly = false → 0 < syncThld

/-- `AHtree`, less its mutex and payload cache. -/
structure AHtree (D : Type) where
  pLog : List UInt8
  dLog : List D
  cLog : List CLogEntry
  /-- What the files of the three logs hold past their write offsets. -/
  pStale : List UInt8
  dStale : List D
  cStale : List CLogEntry
  pLogSize : Nat
  dLogSize : Nat
  cLogSize : Nat
  latestSyncedNode : Nat
  /-- `cLogBuf[:cLogBufCount * cLogEntrySize]`: the records appended since the last sync. -/
  cLogBuf : List CLogEntry
  dCache : Nat → Option D
  opts : Options
  closed : Bool

variable {D : Type}

/-- An `AHtree` method: Go mutates the struct and may fail midway, keeping what it did. -/
abbrev AhtM (D : Type) := EStateM AhtError (AHtree D)

/-- Call an appendable and pass its error on. -/
def liftLog {α : Type} (r : Except LogError α) : AhtM D α :=
  match r with
  | .ok a => pure a
  | .error e => throw (.log e)

/-- `size()`. -/
def AHtree.size (t : AHtree D) : Nat := t.cLogSize

/-- `dCache.Put` of a run of digests at consecutive positions. -/
def putDigests (c : Nat → Option D) (base : Nat) : List D → Nat → Option D
  | [] => c
  | h :: hs => putDigests (Function.update c base (some h)) (base + 1) hs

/-- `dCache.Pop` of every position in `[lo, hi)`. -/
def popDigests (c : Nat → Option D) (lo hi : Nat) : Nat → Option D :=
  fun i => if lo ≤ i ∧ i < hi then none else c i

/-! ## 1. Reading digests -/

/-- `nodeAt(i)`: the `i`-th digest, from the cache or else from `dLog` (and then cached). -/
def nodeAt (i : Nat) : AhtM D D := do
  let t ← get
  match t.dCache i with
  | some v => pure v
  | none =>
    let h ← liftLog (readAt t.dLog i)
    set { t with dCache := Function.update t.dCache i (some h) }
    pure h

/-- `node(n, l)`: digest `l` of those append `n` wrote. -/
def node (n l : Nat) : AhtM D D := nodeAt (nodesUntil n + l)

/-! ## 2. Appending -/

/-- The digest loop of `Append`: `w` holds the bits of `n - 1` still to walk, `l` the level,
`k` the leaf the next left sibling ends at, `h` the digest so far and `ds` the digests to write. -/
def appendLoop (hs : Hasher D) (w l k : Nat) (h : D) (ds : List D) : AhtM D (D × List D) :=
  if w > 0 then do
    let (h, ds) ← if w % 2 = 1 then do
        let hkl ← node k l
        let h := hs.sum (NodePrefix :: (hs.bytes hkl ++ hs.bytes h))
        pure (h, ds ++ [h])
      else pure (h, ds)
    appendLoop hs (w >>> 1) (l + 1) (andNot k (1 <<< l)) h ds
  else pure (h, ds)
termination_by w
decreasing_by rw [Nat.shiftRight_eq_div_pow]; omega

/-- The `node(k, l)` calls `appendLoop` makes, in order: its recursion, listing the arguments of
each call instead of making it. -/
def appendReads (w l k : Nat) : List (Nat × Nat) :=
  if w > 0 then
    (if w % 2 = 1 then [(k, l)] else []) ++ appendReads (w >>> 1) (l + 1) (andNot k (1 <<< l))
  else []
termination_by w
decreasing_by rw [Nat.shiftRight_eq_div_pow]; omega

/-- One round of the digest loop that reads: `node(k, l)` is hashed in on the left. -/
def appendRound (hs : Hasher D) (acc : D × List D) (kl : Nat × Nat) : AhtM D (D × List D) := do
  let hkl ← node kl.1 kl.2
  let h := hs.sum (NodePrefix :: (hs.bytes hkl ++ hs.bytes acc.1))
  pure (h, acc.2 ++ [h])

/-- `sync()`: write the buffered commit records after the last synced one. -/
def sync : AhtM D Unit := do
  let t ← get
  if t.cLogBuf.length = 0 then return
  -- the payload and digest logs are flushed and synced: their logical content is unchanged
  -- will overwrite partially written and uncommitted data
  let (cLog, cStale) ← liftLog (setOffsetIn t.cLog t.cStale t.latestSyncedNode)
  let (cLog, cStale) := appendAt cLog cStale t.cLogBuf
  set { t with
    cLog, cStale
    latestSyncedNode := t.latestSyncedNode + t.cLogBuf.length
    cLogBuf := [] }

/-- `Append(d)`: returns the new size and the root of the new tree. -/
def append (hs : Hasher D) (d : List UInt8) : AhtM D (Nat × D) := do
  let t ← get
  if t.closed then throw .alreadyClosed
  if t.opts.readOnly then throw .readOnly
  -- will overwrite partially written and uncommitted data
  let (pLog, pStale) ← liftLog (setOffsetIn t.pLog t.pStale t.pLogSize)
  let poff := pLog.length
  let (pLog, pStale) := appendAt pLog pStale (Bytes.be 4 d.length ++ d)
  set { t with pLog, pStale }
  let n := t.size + 1
  let h := hs.sum (LeafPrefix :: d)
  let (h, ds) ← appendLoop hs (n - 1) 0 (n - 1) h [h]
  let t ← get
  let (dLog, dStale) ← liftLog (setOffsetIn t.dLog t.dStale t.dLogSize)
  let (dLog, dStale) := appendAt dLog dStale ds
  set { t with
    dLog, dStale
    dCache := putDigests t.dCache t.dLogSize ds
    cLogBuf := t.cLogBuf ++ [CLogEntry.mk poff (d.length % 2 ^ 32)] }
  if t.cLogBuf.length + 1 = t.opts.syncThld then
    tryCatch sync fun e => do
      modify fun t => { t with cLogBuf := t.cLogBuf.dropLast }
      throw e
  modify fun t => { t with
    pLogSize := t.pLogSize + szSize + d.length
    dLogSize := t.dLogSize + ds.length
    cLogSize := t.cLogSize + 1 }
  pure (n, h)

/-! ## 3. Truncating, closing, reopening -/

/-- `ResetSize(newSize)`: forget every leaf past `newSize`. -/
def resetSize (newSize : Nat) : AhtM D Unit := do
  let t ← get
  if t.closed then throw .alreadyClosed
  if t.opts.readOnly then throw .readOnly
  let currentSize := t.size
  if currentSize < newSize then throw .cannotResetToLargerSize
  if currentSize = newSize then return
  sync
  let t ← get
  let (pLogSize, dLogSize) ← if newSize > 0 then do
      let e ← liftLog (readAt t.cLog (newSize - 1))
      let pLogSize := e.pEnd
      if t.pLog.length < pLogSize then throw .corruptedData
      let dLogSize := nodesUpto newSize
      if t.dLog.length < dLogSize then throw .corruptedDigests
      pure (pLogSize, dLogSize)
    else pure (0, 0)
  -- invalidate caches
  set { t with
    dCache := popDigests t.dCache dLogSize t.dLogSize
    cLogSize := newSize
    pLogSize := pLogSize
    dLogSize := dLogSize
    latestSyncedNode := newSize }

/-- `Sync()`. -/
def Sync : AhtM D Unit := do
  let t ← get
  if t.closed then throw .alreadyClosed
  if t.opts.readOnly then throw .readOnly
  sync

/-- `Close()`: the tree is closed even when the final sync fails. -/
def close : AhtM D Unit := do
  let t ← get
  if t.closed then throw .alreadyClosed
  set { t with closed := true }
  sync

/-- `OpenWith(pLog, dLog, cLog, opts)`: the sizes are recovered from the commit log, all of it
(`cLog.Size()` of a log just opened is its file's size). -/
def openWith (pLog : List UInt8) (dLog : List D) (cLog : List CLogEntry) (opts : Options) :
    Except AhtError (AHtree D) := do
  let cLogSize := cLog.length
  let latestSyncedNode := cLogSize
  let t : AHtree D := {
    pLog, dLog, cLog, pStale := [], dStale := [], cStale := [], pLogSize := 0, dLogSize := 0,
    cLogSize, latestSyncedNode,
    cLogBuf := [], dCache := fun _ => none, opts, closed := false }
  if cLogSize = 0 then return t
  let e ← (readAt cLog (cLogSize - 1)).mapError .log
  let pLogSize := e.pEnd
  if pLog.length < pLogSize then throw .corruptedData
  let dLogSize := nodesUpto latestSyncedNode
  if dLog.length < dLogSize then throw .corruptedDigests
  return { t with pLogSize, dLogSize }

/-! ## 4. Roots -/

/-- `rootAt(n)`: the root of the tree of the first `n` leaves. -/
def rootAt (n : Nat) : AhtM D D := do
  let t ← get
  if t.closed then throw .alreadyClosed
  if n = 0 then throw .illegalArguments
  if t.cLogSize = 0 then throw .emptyTree
  if n > t.size then throw .unexistentData
  nodeAt (nodesUntil n + levelsAt n)

/-! ## 5. Runs -/

/-- The calls a run is made of. `evict` is the digest cache dropping an entry. -/
inductive Op where
  | append (d : List UInt8)
  | sync
  | resetSize (n : Nat)
  | rootAt (n : Nat)
  | close
  | reopen
  | evict (i : Nat)
  deriving DecidableEq

/-- The state after a call, whether it succeeded or not. -/
def after {α : Type} : EStateM.Result AhtError (AHtree D) α → AHtree D
  | .ok _ s => s
  | .error _ s => s

/-- One call. A reopen opens the same files with the same options, after a `Close`: each log with
what its file holds past its last write offset. -/
def step (hs : Hasher D) (t : AHtree D) : Op → AHtree D
  | .append d => after ((append hs d).run t)
  | .sync => after (Sync.run t)
  | .resetSize n => after ((resetSize n).run t)
  | .rootAt n => after ((rootAt n).run t)
  | .close => after (close.run t)
  | .reopen =>
    if t.closed then
      match openWith (t.pLog ++ t.pStale) (t.dLog ++ t.dStale) (t.cLog ++ t.cStale) t.opts with
      | .ok t' => t'
      | .error _ => t
    else t
  | .evict i => { t with dCache := Function.update t.dCache i none }

/-- A sequence of calls. -/
def run (hs : Hasher D) (t : AHtree D) (ops : List Op) : AHtree D := ops.foldl (step hs) t

/-- The tree `Open` creates over empty logs. -/
def empty (opts : Options) : AHtree D :=
  { pLog := [], dLog := [], cLog := [], pStale := [], dStale := [], cStale := [], pLogSize := 0,
    dLogSize := 0, cLogSize := 0,
    latestSyncedNode := 0, cLogBuf := [], dCache := fun _ => none, opts, closed := false }

end Immudb.Ahtree
