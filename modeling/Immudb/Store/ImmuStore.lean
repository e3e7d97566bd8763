import Immudb.Store.Tx
import Immudb.Store.PrecommitBuffer
import Immudb.Ahtree.Tree

/-!
# `Immudb/Store/ImmuStore.lean` — the commit pipeline of the store

`embedded/store/immustore.go`, the part that turns transactions into a history: precommitting a
transaction (its header gets the next id, the `Alh` of the one before, and the root of the AHtree
of all `Alh`s up to its `BlTxID`; it is written to the transaction log, its `Alh` appended to the
AHtree and its commit-log entry put into the precommit buffer), committing what is allowed
(`mayCommit`, `sync`: the buffered entries are written to the commit log), the external commit
allowance, discarding precommitted transactions, closing and reopening.

**What a log is here.** Following `Immudb/Appendable/Log.lean`, the transaction log is a list of
records, one per written transaction, up to its write offset: a transaction's offset is its
position in that list and its size is one record. What the store's own logs' files hold past
their write offsets after a `SetOffset` is not modelled; the AHtree's logs keep it. The commit log is a list of entries (`cLogEntrySizeV2`: offset, size, `Alh`).
Values, indexing, the transaction-log cache and the waiting hubs are not modelled; a wait that
nothing in a sequential run can end returns the caller's context error.

**What a method does.** As for the AHtree, a method is an `EStateM` over the whole store: Go
mutates the store in place and may fail midway, keeping what it did. A panic is an error.
-/

set_option autoImplicit false

namespace Immudb.Store

open Hashing Appendable PrecommitBuffer

/-- A commit-log entry (`cLogEntrySizeV2`). -/
structure CLogRecord (D : Type) where
  txOff : Nat
  txSize : Nat
  alh : D
  deriving DecidableEq, Repr

/-- The options the pipeline reads, with what `Options.Validate` checks of them. -/
structure Options where
  synced : Bool
  maxActiveTransactions : Nat
  writeTxHeaderVersion : Int
  useExternalCommitAllowance : Bool
  ahtOpts : Ahtree.Options
  maxActiveTransactions_pos : 0 < maxActiveTransactions
  writeTxHeaderVersion_le : writeTxHeaderVersion = 0 ∨ writeTxHeaderVersion = 1
  ahtWritable : ahtOpts.readOnly = false

/-- `ImmuStore`, the fields of the commit pipeline. -/
structure ImmuStore (D : Type) where
  txLog : List (TxHeader D)
  cLog : List (CLogRecord D)
  aht : Ahtree.AHtree D
  cLogBuf : PrecommitBuffer D
  committedTxID : Nat
  committedAlh : D
  inmemPrecommittedTxID : Nat
  inmemPrecommittedAlh : D
  precommittedTxLogSize : Nat
  commitAllowedUpToTxID : Nat
  useExternalCommitAllowance : Bool
  opts : Options
  closed : Bool

/-- The errors of the pipeline. -/
inductive StoreError where
  | alreadyClosed
  | illegalArguments
  | illegalState
  | maxActiveTransactionsLimitExceeded
  | unexpectedLinkingError
  | txAlreadyCommitted
  | unexpectedError
  | txNotFound
  | corruptedTxData
  | sourceTxNewerThanTargetTx
  | bufferIsFull
  | notEnoughData
  /-- the panic "missing tx serialization method" -/
  | missingSerializationMethod
  /-- the error of the caller's context, ending a wait nothing else can end -/
  | contextDone
  | ahtree (e : Ahtree.AhtError)
  | log (e : LogError)
  deriving DecidableEq, Repr

/-- The errors of the precommit buffer, as the store returns them. -/
def StoreError.ofBuffer : BufferError → StoreError
  | .bufferIsFull => .bufferIsFull
  | .illegalArguments => .illegalArguments
  | .notEnoughData => .notEnoughData

/-- A store method. -/
abbrev StoreM (D : Type) := EStateM StoreError (ImmuStore D)

variable {D : Type}

/-! ## 1. Calls into the parts -/

/-- A call of an AHtree method on the store's tree. -/
def withAht {α : Type} (m : Ahtree.AhtM D α) : StoreM D α := fun s =>
  match m.run s.aht with
  | .ok a t => .ok a { s with aht := t }
  | .error e t => .error (.ahtree e) { s with aht := t }

/-- A call into the precommit buffer. -/
def liftBuffer {α : Type} : Except BufferError α → StoreM D α
  | .ok a => pure a
  | .error e => throw (.ofBuffer e)

/-- A call into a log of the store. -/
def liftLog {α : Type} : Except LogError α → StoreM D α
  | .ok a => pure a
  | .error e => throw (.log e)

/-- `aht.RootAt(n)` where an empty tree is not an error: the root is then the zero digest. -/
def rootAtOrZero (hs : Hasher D) (n : Nat) : StoreM D D :=
  tryCatch (withAht (Ahtree.rootAt n)) fun e =>
    if e = .ahtree .emptyTree then pure hs.zero else throw e

/-- `commitAllowedUpTo`. -/
def ImmuStore.commitAllowedUpTo (s : ImmuStore D) : Nat :=
  if s.useExternalCommitAllowance then s.commitAllowedUpToTxID else s.inmemPrecommittedTxID

/-! ## 2. Committing -/

/-- The loop of `mayCommit`: the entries `i, i + 1, …` of the buffer are written to the commit
log; the id and `Alh` of the last one are returned. -/
def mayCommitLoop : Nat → Nat → Nat × D → StoreM D (Nat × D)
  | 0, _, last => pure last
  | n + 1, i, _ => do
    let s ← get
    let e ← liftBuffer (s.cLogBuf.readAhead i)
    set { s with cLog := s.cLog ++ [CLogRecord.mk e.txOff e.txSize e.alh] }
    mayCommitLoop n (i + 1) (e.txID, e.alh)

/-- `mayCommit`: commit every precommitted transaction up to the allowed one. -/
def mayCommit (hs : Hasher D) : StoreM D Unit := do
  let s ← get
  let commitAllowedUpToTxID := s.commitAllowedUpTo
  if commitAllowedUpToTxID = s.committedTxID then return
  if s.closed then throw .alreadyClosed
  -- will overwrite partially written and uncommitted data
  let cLog ← liftLog (setOffset s.cLog s.committedTxID)
  set { s with cLog }
  -- Go's count `int(commitAllowedUpToTxID - committedTxID)` is negative: no entry is read, and
  -- either the safety fuse or `advanceReader` fails
  if commitAllowedUpToTxID < s.committedTxID then
    throw (if commitAllowedUpToTxID = 0 then .illegalArguments else .unexpectedError)
  let (commitUpToTxID, commitUpToTxAlh) ←
    mayCommitLoop (commitAllowedUpToTxID - s.committedTxID) 0 (0, hs.zero)
  -- added as a safety fuse but this situation should NOT happen
  if commitUpToTxID ≠ commitAllowedUpToTxID then throw .unexpectedError
  let s ← get
  let cLogBuf ← liftBuffer (s.cLogBuf.advanceReader (commitAllowedUpToTxID - s.committedTxID))
  set { s with cLogBuf, committedTxID := commitUpToTxID, committedAlh := commitUpToTxAlh }

/-- `sync`: past the early return, Go repeats `mayCommit`'s body with the logs also synced to
disk, which leaves their content as it is. -/
def sync (hs : Hasher D) : StoreM D Unit := do
  let s ← get
  -- everything already synced
  if s.inmemPrecommittedTxID = s.committedTxID then return
  mayCommit hs

/-- `Sync()`. -/
def Sync (hs : Hasher D) : StoreM D Unit := do
  let s ← get
  if s.closed then throw .alreadyClosed
  sync hs

/-! ## 3. Precommitting -/

/-- What a transaction brings to its header besides what `performPrecommit` sets: its version,
metadata, number of entries and entries hash, and the `BlRoot` that the pooled transaction's
header still holds, which stays when `blTxID = 0`. -/
structure TxBody (D : Type) where
  Version : Int
  Metadata : List UInt8
  NEntries : Int
  Eh : D
  BlRoot : D

/-- `txLog.Append` of one transaction: its offset. -/
def appendTx (hdr : TxHeader D) : StoreM D Nat :=
  modifyGet fun s => (s.txLog.length, { s with txLog := s.txLog ++ [hdr] })

/-- The writing half of `performPrecommit`, once the header and its `Alh` are known: the
transaction is appended to the transaction log, its `Alh` to the AHtree (cut back to the
precommitted transactions first), its entry put into the buffer, and the counters advanced. -/
def writeTx (hs : Hasher D) (hdr : TxHeader D) (alh : D) : StoreM D Unit := do
  let txOff ← appendTx hdr
  let s ← get
  withAht (Ahtree.resetSize s.inmemPrecommittedTxID)
  let _ ← withAht (Ahtree.append hs (hs.bytes alh))
  let s ← get
  let cLogBuf ← liftBuffer (s.cLogBuf.put ⟨s.inmemPrecommittedTxID + 1, alh, txOff, 1⟩)
  set { s with
    cLogBuf
    inmemPrecommittedTxID := s.inmemPrecommittedTxID + 1
    inmemPrecommittedAlh := alh
    precommittedTxLogSize := s.precommittedTxLogSize + 1 }

/-- The header `performPrecommit` writes. -/
def precommitHeader (s : ImmuStore D) (body : TxBody D) (ts : Int) (blTxID : Nat) (blRoot : D) :
    TxHeader D :=
  { ID := s.inmemPrecommittedTxID + 1, Ts := ts, BlTxID := blTxID, BlRoot := blRoot,
    PrevAlh := s.inmemPrecommittedAlh, Version := body.Version, Metadata := body.Metadata,
    NEntries := body.NEntries, Eh := body.Eh }

/-- `performPrecommit(tx, entries, ts, blTxID)`. -/
def performPrecommit (hs : Hasher D) (body : TxBody D) (ts : Int) (blTxID : Nat) :
    StoreM D Unit := do
  let s ← get
  -- limit the maximum number of pre-committed transactions
  if s.opts.synced ∧ s.committedTxID + s.opts.maxActiveTransactions ≤ s.inmemPrecommittedTxID then
    throw .maxActiveTransactionsLimitExceeded
  -- will overwrite partially written and uncommitted data (Go sets the offset once more before
  -- appending, to the same place)
  let txLog ← liftLog (setOffset s.txLog s.precommittedTxLogSize)
  set { s with txLog }
  let blRoot ← if 0 < blTxID then rootAtOrZero hs blTxID else pure body.BlRoot
  let hdr := precommitHeader s body ts blTxID blRoot
  if hdr.ID ≤ hdr.BlTxID then throw .unexpectedLinkingError
  -- the serialization, and `Alh`, panic on an unknown version
  let some alh := hdr.alh hs | throw .missingSerializationMethod
  writeTx hs hdr alh
  if !s.opts.synced then mayCommit hs

/-- `Commit` of a transaction the store builds: precommitted with the current time and the
AHtree's size as `BlTxID`; waiting for its commit changes nothing. -/
def commit (hs : Hasher D) (ts : Int) (md : List UInt8) (nentries : Int) (eh pooledBlRoot : D) :
    StoreM D Unit := do
  let s ← get
  if s.closed then throw .alreadyClosed
  performPrecommit hs ⟨s.opts.writeTxHeaderVersion, md, nentries, eh, pooledBlRoot⟩ ts s.aht.size

/-- `ReplicateTx` of an exported transaction with header `hdr` whose entries hash to `eh`: the
checks of `precommit` against the expected header, then `performPrecommit` with its `Ts` and
`BlTxID`. -/
def replicate [DecidableEq D] (hs : Hasher D) (hdr : TxHeader D) (eh : D) (skipIntegrityCheck : Bool)
    (pooledBlRoot : D) : StoreM D Unit := do
  if !skipIntegrityCheck ∧ eh ≠ hdr.Eh then throw .illegalArguments
  let s ← get
  if s.inmemPrecommittedTxID ≥ hdr.ID then throw .txAlreadyCommitted
  if hdr.ID > s.inmemPrecommittedTxID + s.opts.maxActiveTransactions then
    throw .maxActiveTransactionsLimitExceeded
  -- ensure tx is committed in the expected order: in a sequential run nothing precommits while
  -- this waits
  if s.inmemPrecommittedTxID < hdr.ID - 1 then throw .contextDone
  if 0 < hdr.BlTxID then
    let blRoot ← rootAtOrZero hs hdr.BlTxID
    if blRoot ≠ hdr.BlRoot then throw .illegalArguments
  let s ← get
  if s.closed then throw .alreadyClosed
  if s.inmemPrecommittedTxID > hdr.ID - 1 then throw .txAlreadyCommitted
  if s.inmemPrecommittedTxID < hdr.ID - 1 then throw .unexpectedError
  if s.inmemPrecommittedAlh ≠ hdr.PrevAlh then throw .illegalArguments
  performPrecommit hs ⟨hdr.Version, hdr.Metadata, hdr.NEntries, eh, pooledBlRoot⟩ hdr.Ts hdr.BlTxID

/-! ## 4. The commit allowance and discarding -/

/-- `SetExternalCommitAllowance(enabled)`. -/
def SetExternalCommitAllowance (enabled : Bool) : StoreM D Unit :=
  modify fun s => { s with
    useExternalCommitAllowance := enabled
    commitAllowedUpToTxID := if enabled then s.committedTxID else s.commitAllowedUpToTxID }

/-- `AllowCommitUpto(txID)`. -/
def AllowCommitUpto (hs : Hasher D) (txID : Nat) : StoreM D Unit := do
  let s ← get
  if !s.useExternalCommitAllowance then throw .illegalState
  -- once a commit is allowed, it cannot be revoked
  if txID ≤ s.commitAllowedUpToTxID then return
  -- commit allowances apply only to pre-committed transactions
  set { s with
    commitAllowedUpToTxID :=
      if s.inmemPrecommittedTxID < txID then s.inmemPrecommittedTxID else txID }
  if !s.opts.synced then mayCommit hs

/-- `DiscardPrecommittedTxsSince(txID)`: the number of transactions discarded. -/
def DiscardPrecommittedTxsSince (txID : Nat) : StoreM D Nat := do
  let s ← get
  if s.closed then throw .alreadyClosed
  if txID = 0 then throw .illegalArguments
  if txID ≤ s.committedTxID then throw .illegalArguments
  if txID > s.inmemPrecommittedTxID then return 0
  let txsToDiscard := s.inmemPrecommittedTxID + 1 - txID
  -- Go's `aht.Size() - txsToDiscard` wraps below zero, past any size
  if s.aht.size < txsToDiscard then throw (.ahtree .cannotResetToLargerSize)
  withAht (Ahtree.resetSize (s.aht.size - txsToDiscard))
  let s ← get
  -- the buffer holds every precommitted transaction, durable or not
  let cLogBuf ← liftBuffer (s.cLogBuf.recedeWriter txsToDiscard)
  set { s with cLogBuf }
  if txID - 1 = s.committedTxID then
    set { s with
      cLogBuf, inmemPrecommittedTxID := s.committedTxID, inmemPrecommittedAlh := s.committedAlh }
    return txsToDiscard
  match cLogBuf.readAhead (s.inmemPrecommittedTxID - s.committedTxID - 1 - txsToDiscard) with
  | .ok e =>
    if e.txID ≠ txID - 1 then
      -- Go returns the nil error of `readAhead`
      set { s with
        cLogBuf, inmemPrecommittedTxID := s.committedTxID, inmemPrecommittedAlh := s.committedAlh }
      return 0
    set { s with cLogBuf, inmemPrecommittedTxID := txID - 1, inmemPrecommittedAlh := e.alh }
    return txsToDiscard
  | .error e =>
    set { s with
      cLogBuf, inmemPrecommittedTxID := s.committedTxID, inmemPrecommittedAlh := s.committedAlh }
    liftBuffer (.error e)

/-! ## 5. Reading transactions -/

/-- `appendableReaderForTx` and the header read there: where transaction `txID` lies, from the
commit log when it is committed and from the precommit buffer otherwise. -/
def ImmuStore.readTxHeader (s : ImmuStore D) (txID : Nat) (allowPrecommitted : Bool) :
    Except StoreError (TxHeader D) := do
  if txID > s.inmemPrecommittedTxID ∨ (!allowPrecommitted ∧ txID > s.committedTxID) then
    throw .txNotFound
  if s.closed then throw .alreadyClosed
  let txOff ← if txID ≤ s.committedTxID then
      -- `txOffsetAndSize`
      if txID = 0 then throw .illegalArguments
      else match readAt s.cLog (txID - 1) with
        | .ok e => pure e.txOff
        | .error _ => throw .txNotFound
    else match s.cLogBuf.readAhead (txID - s.committedTxID - 1) with
      | .ok e => pure e.txOff
      | .error e => throw (.ofBuffer e)
  match readAt s.txLog txOff with
  | .ok hdr => pure hdr
  | .error _ => throw .corruptedTxData

/-- `ReadTxHeader(txID, allowPrecommitted, _)`. -/
def ReadTxHeader (txID : Nat) (allowPrecommitted : Bool) : StoreM D (TxHeader D) := do
  let s ← get
  match s.readTxHeader txID allowPrecommitted with
  | .ok hdr => pure hdr
  | .error e => throw e

/-! ## 6. Closing and reopening -/

/-- `Close()`: the store is closed even when closing a part fails. -/
def Close : StoreM D Unit := do
  let s ← get
  if s.closed then throw .alreadyClosed
  set { s with closed := true }
  withAht Ahtree.close

/-- The reload loop of `OpenWith`: transactions are read from the transaction log after the last
committed one and put into the buffer while each follows the one before. -/
def reloadLoop [DecidableEq D] (hs : Hasher D) :
    List (TxHeader D) → Nat → D → Nat → PrecommitBuffer D →
      Except StoreError (Nat × D × Nat × PrecommitBuffer D)
  | [], txID, alh, txLogSize, b => .ok (txID, alh, txLogSize, b)
  | hdr :: rest, txID, alh, txLogSize, b =>
    if hdr.ID ≠ txID + 1 ∨ hdr.PrevAlh ≠ alh then .ok (txID, alh, txLogSize, b)
    else match hdr.alh hs with
      -- a header of unknown version does not read
      | none => .ok (txID, alh, txLogSize, b)
      | some a => match b.put ⟨txID + 1, a, txLogSize, 1⟩ with
        | .ok b => reloadLoop hs rest (txID + 1) a (txLogSize + 1) b
        | .error _ => .error .bufferIsFull

/-- The loop of `syncBinaryLinking`: the `Alh` of every transaction from `txID` on is appended to
the AHtree; the reader checks that each transaction follows the one before. Errors of `Append`
are dropped, as in Go. -/
def syncBinaryLinkingLoop [DecidableEq D] (hs : Hasher D) : Nat → Nat → Option D → StoreM D Unit
  | 0, _, _ => pure ()
  | n + 1, txID, currAlh => do
    let s ← get
    match s.readTxHeader txID true with
    | .error .txNotFound => pure ()
    | .error e => throw e
    | .ok hdr =>
      if currAlh.isSome ∧ currAlh ≠ some hdr.PrevAlh then throw .corruptedTxData
      let some alh := hdr.alh hs | throw .corruptedTxData
      tryCatch (do let _ ← withAht (Ahtree.append hs (hs.bytes alh))) fun _ => pure ()
      syncBinaryLinkingLoop hs n (txID + 1) (some alh)

/-- `OpenWith` over the logs of a closed store: the committed state from the commit log, the
precommitted transactions reloaded, and the AHtree reopened and brought to the precommitted
size. -/
def openWith [DecidableEq D] (hs : Hasher D) (txLog : List (TxHeader D)) (cLog : List (CLogRecord D))
    (aht : Ahtree.AHtree D) (opts : Options) : Except StoreError (ImmuStore D) := do
  let committedTxID := cLog.length
  let (committedTxLogSize, committedAlh) ← match cLog.getLast? with
    | none => pure (0, hs.sum [])
    | some e =>
      match readAt txLog e.txOff with
      | .error _ => throw .corruptedTxData
      | .ok hdr =>
        -- "digest mismatch in the last transaction"
        if hdr.alh hs ≠ some e.alh then throw .corruptedTxData
        pure (e.txOff + e.txSize, e.alh)
  if txLog.length < committedTxLogSize then throw .corruptedTxData
  let (precommittedTxID, precommittedAlh, precommittedTxLogSize, cLogBuf) ←
    reloadLoop hs (txLog.drop committedTxLogSize) committedTxID committedAlh committedTxLogSize
      (newPrecommitBuffer opts.maxActiveTransactions hs.zero)
  let aht ← match Ahtree.openWith (aht.pLog ++ aht.pStale) (aht.dLog ++ aht.dStale)
      (aht.cLog ++ aht.cStale) aht.opts with
    | .ok t => pure t
    | .error e => throw (.ahtree e)
  let s : ImmuStore D :=
    { txLog, cLog, aht, cLogBuf, committedTxID, committedAlh,
      inmemPrecommittedTxID := precommittedTxID, inmemPrecommittedAlh := precommittedAlh,
      precommittedTxLogSize, commitAllowedUpToTxID := committedTxID,
      useExternalCommitAllowance := opts.useExternalCommitAllowance, opts, closed := false }
  let bring : StoreM D Unit := do
    if s.aht.size > precommittedTxID then withAht (Ahtree.resetSize precommittedTxID)
    let s ← get
    if s.aht.size < precommittedTxID then
      syncBinaryLinkingLoop hs (precommittedTxID + 1 - s.aht.size) (s.aht.size + 1) none
  match bring.run s with
  | .ok () s => pure s
  | .error e _ => throw e

/-- A store `Open` creates over empty logs. -/
def empty (hs : Hasher D) (opts : Options) : ImmuStore D :=
  { txLog := [], cLog := [], aht := Ahtree.empty opts.ahtOpts,
    cLogBuf := newPrecommitBuffer opts.maxActiveTransactions hs.zero,
    committedTxID := 0, committedAlh := hs.sum [], inmemPrecommittedTxID := 0,
    inmemPrecommittedAlh := hs.sum [], precommittedTxLogSize := 0, commitAllowedUpToTxID := 0,
    useExternalCommitAllowance := opts.useExternalCommitAllowance, opts, closed := false }

/-! ## 7. Runs -/

/-- The calls a run is made of. `commit` and `replicate` carry what the transaction brings;
`pooledBlRoot` is what the pooled header's `BlRoot` holds. -/
inductive Op (D : Type) where
  | commit (ts : Int) (md : List UInt8) (nentries : Int) (eh pooledBlRoot : D)
  | replicate (hdr : TxHeader D) (eh : D) (skipIntegrityCheck : Bool) (pooledBlRoot : D)
  | sync
  | allowCommitUpto (txID : Nat)
  | setExternalCommitAllowance (enabled : Bool)
  | discardPrecommittedTxsSince (txID : Nat)
  | close
  | reopen

/-- The state after a call, whether it succeeded or not. -/
def after {α : Type} : EStateM.Result StoreError (ImmuStore D) α → ImmuStore D
  | .ok _ s => s
  | .error _ s => s

/-- One call. A reopen opens the same logs with the same options, after a `Close`; when that
fails, the store stays closed. -/
def step [DecidableEq D] (hs : Hasher D) (s : ImmuStore D) : Op D → ImmuStore D
  | .commit ts md nentries eh pooledBlRoot => after ((commit hs ts md nentries eh pooledBlRoot).run s)
  | .replicate hdr eh skip pooledBlRoot => after ((replicate hs hdr eh skip pooledBlRoot).run s)
  | .sync => after ((Sync hs).run s)
  | .allowCommitUpto txID => after ((AllowCommitUpto hs txID).run s)
  | .setExternalCommitAllowance enabled => after ((SetExternalCommitAllowance enabled).run s)
  | .discardPrecommittedTxsSince txID => after ((DiscardPrecommittedTxsSince txID).run s)
  | .close => after (Close.run s)
  | .reopen =>
    if s.closed then
      match openWith hs s.txLog s.cLog s.aht s.opts with
      | .ok s' => s'
      | .error _ => s
    else s

/-- A sequence of calls. -/
def run [DecidableEq D] (hs : Hasher D) (s : ImmuStore D) (ops : List (Op D)) : ImmuStore D :=
  ops.foldl (step hs) s

end Immudb.Store
