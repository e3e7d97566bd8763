import Immudb.Store.Tx

/-!
# `Immudb/Store/Indexer.lean` — indexing committed transactions

`embedded/store/indexer.go`. An indexer reads committed transactions in batches
(`indexSince`) and inserts one key version per indexable entry into its TBtree: the entry's key,
mapped by the spec's source and target mappers, with the location and hash of its value and
the metadata of the entry and of its transaction. With `InjectiveMapping`, every source key is
meant to have one live target key, the image of its newest version: when an entry is indexed,
the image of the source key's version before it is written again, marked deleted.

That version is looked up in the source key's own index as of `txID - 1`, where `txID` is the
first transaction of the batch, and not at all when the batch starts at transaction `1`. So an
earlier version written inside the same batch is never marked deleted
(`indexSince_keeps_stale_target`).

How far a batch reaches depends on the memory semaphore and on how long the next commit takes;
both are parameters, read once per transaction. The TBtree is the list of every version
inserted, with its timestamp: what `BulkInsert`, `IncreaseTs` and `GetBetween` do with them,
not how they lay them out in nodes. Byte layouts (`serializeIndexableEntry`, `KVMetadata.Bytes`)
are records of the fields they write, and an entry carries the value its offset points to.
-/

set_option autoImplicit false

namespace Immudb.Store

/-- `KVMetadata`. -/
structure KVMetadata where
  deleted : Bool
  expiresAt : Option Int
  nonIndexable : Bool
  deriving DecidableEq, Repr

/-- `NewKVMetadata()`. -/
def NewKVMetadata : KVMetadata := ⟨false, none, false⟩

/-- `TxEntry`, with the value `readValueAt(vOff, hVal)` reads for it. -/
structure TxEntry (D : Type) where
  key : List UInt8
  md : Option KVMetadata
  vLen : Nat
  vOff : Nat
  hVal : D
  value : List UInt8

/-- `Tx`: a header and its entries. -/
structure Tx (D : Type) where
  header : TxHeader D
  entries : List (TxEntry D)

/-- `EntryMapper`; `none` stands for the error it returns. -/
abbrev EntryMapper := List UInt8 → List UInt8 → Option (List UInt8)

/-- `IndexSpec`, the fields `indexSince` reads. -/
structure IndexSpec where
  SourcePrefix : List UInt8
  SourceEntryMapper : Option EntryMapper
  TargetEntryMapper : Option EntryMapper
  TargetPrefix : List UInt8
  InjectiveMapping : Bool

/-- What `serializeIndexableEntry` writes: `vLen + vOff + hVal + txmd + kvmd`. -/
structure IndexedValue (D : Type) where
  vLen : Nat
  vOff : Nat
  hVal : D
  txmd : List UInt8
  kvmd : Option KVMetadata

/-- `tbtree.KVT`. -/
structure KVT (D : Type) where
  K : List UInt8
  V : IndexedValue D
  T : Nat

/-- A TBtree: the versions inserted so far, in order, and its timestamp. -/
structure Index (D : Type) where
  kvts : List (KVT D)
  ts : Nat

/-- An indexer: its spec and its TBtree. -/
structure Indexer (D : Type) where
  spec : IndexSpec
  index : Index D

/-- The errors on the indexing path. -/
inductive IndexError where
  | illegalArguments
  | keyNotFound
  | txNotFound
  | mapperFailed
  | writeStalling
  /-- a wait for another indexer that nothing ends in a sequential run -/
  | contextDone
  deriving DecidableEq, Repr

variable {D : Type}

/-! ## 1. The TBtree -/

namespace Index

/-- `BulkInsert(kvts)`: every timestamp must be above the tree's, a zero one is the tree's plus
one; the tree's timestamp becomes the greatest. -/
def bulkInsert (t : Index D) (kvts : List (KVT D)) : Except IndexError (Index D) :=
  if kvts = [] then .error .illegalArguments
  else if kvts.any (fun kvt => kvt.K.isEmpty || (kvt.T != 0 && kvt.T ≤ t.ts)) then
    .error .illegalArguments
  else
    let kvts := kvts.map fun kvt => { kvt with T := if kvt.T = 0 then t.ts + 1 else kvt.T }
    .ok { kvts := t.kvts ++ kvts, ts := kvts.foldl (fun m kvt => max m kvt.T) 0 }

/-- `IncreaseTs(ts)`. -/
def increaseTs (t : Index D) (ts : Nat) : Except IndexError (Index D) :=
  if ts ≤ t.ts then .error .illegalArguments else .ok { t with ts }

/-- `GetBetween(key, initialTs, finalTs)`: the newest version of `key` in the range. -/
def getBetween (t : Index D) (key : List UInt8) (initialTs finalTs : Nat) :
    Except IndexError (IndexedValue D × Nat) :=
  match (t.kvts.filter fun kvt => kvt.K = key ∧ initialTs ≤ kvt.T ∧ kvt.T ≤ finalTs).getLast? with
  | some kvt => .ok (kvt.V, kvt.T)
  | none => .error .keyNotFound

/-- The newest version of `key`. -/
def newest (t : Index D) (key : List UInt8) : Option (KVT D) :=
  (t.kvts.filter fun kvt => kvt.K = key).getLast?

/-- A key whose newest version is not marked deleted. -/
def Live (t : Index D) (key : List UInt8) : Prop :=
  ∃ kvt, t.newest key = some kvt ∧ ∀ md, kvt.V.kvmd = some md → md.deleted = false

end Index

/-! ## 2. `indexSince` -/

/-- `readTx(txID)` from the committed transactions. -/
def readTx (txs : List (Tx D)) (txID : Nat) : Except IndexError (Tx D) :=
  if txID = 0 then .error .illegalArguments
  else match txs[txID - 1]? with
    | some tx => .ok tx
    | none => .error .txNotFound

/-- `ReadTxEntry(txID, key)`: the entry of `key` in a transaction, and its header. -/
def ReadTxEntry (txs : List (Tx D)) (txID : Nat) (key : List UInt8) :
    Except IndexError (TxEntry D × TxHeader D) := do
  let tx ← readTx txs txID
  match tx.entries.find? (fun e => e.key = key) with
  | some e => pure (e, tx.header)
  | none => throw .keyNotFound

/-- `mapKey`: the key itself without a mapper, else the mapper applied to the key and the
value. -/
def mapKey (key : List UInt8) (e : TxEntry D) (mapper : Option EntryMapper) :
    Except IndexError (List UInt8) :=
  match mapper with
  | none => .ok key
  | some m => match m key e.value with
    | some k => .ok k
    | none => .error .mapperFailed

/-- `serializeIndexableEntry`. -/
def serializeIndexableEntry (txmd : List UInt8) (e : TxEntry D) (kvmd : Option KVMetadata) :
    IndexedValue D :=
  ⟨e.vLen, e.vOff, e.hVal, txmd, kvmd⟩

/-- `getIndexerFor(key)`: the first indexer whose target prefix the key starts with. -/
def getIndexerFor (indexers : List (Indexer D)) (key : List UInt8) : Option (Indexer D) :=
  indexers.find? fun i => i.spec.TargetPrefix.isPrefixOf key

/-- The image of the source key's previous version, marked deleted, for an entry of
transaction `txID + i` that maps to `targetKey`. The previous version is looked up as of
`txID - 1`. -/
def deprecatePrevious (txs : List (Tx D)) (indexers : List (Indexer D)) (spec : IndexSpec)
    (txID i : Nat) (e : TxEntry D) (sourceKey targetKey : List UInt8) :
    Except IndexError (List (KVT D)) := do
  match getIndexerFor indexers sourceKey with
  | none => pure []
  | some src =>
    -- `WaitForIndexingUpto(txID - 1)`
    if src.index.ts < txID - 1 then throw .contextDone
    match src.index.getBetween sourceKey 1 (txID - 1) with
    | .error .keyNotFound => pure []
    | .error err => throw err
    | .ok (_, prevTxID) =>
      let (prevEntry, prevTxHdr) ← ReadTxEntry txs prevTxID e.key
      let targetPrevKey ← mapKey sourceKey prevEntry spec.TargetEntryMapper
      if targetKey = targetPrevKey then return []
      if !spec.TargetPrefix.isPrefixOf targetPrevKey then throw .illegalArguments
      let kvmd := { prevEntry.md.getD NewKVMetadata with deleted := true }
      return [⟨targetPrevKey, serializeIndexableEntry prevTxHdr.Metadata prevEntry (some kvmd),
        txID + i⟩]

/-- One entry of transaction `txID + i`: its version, and with an injective mapping from the
second transaction on, the previous image marked deleted. -/
def indexEntry (txs : List (Tx D)) (indexers : List (Indexer D)) (spec : IndexSpec)
    (txID i : Nat) (txmd : List UInt8) (kvs : List (KVT D)) (e : TxEntry D) :
    Except IndexError (List (KVT D)) := do
  if e.md.any (·.nonIndexable) then return kvs
  if !spec.SourcePrefix.isPrefixOf e.key then return kvs
  let sourceKey ← mapKey e.key e spec.SourceEntryMapper
  let targetKey ← mapKey sourceKey e spec.TargetEntryMapper
  if !spec.TargetPrefix.isPrefixOf targetKey then throw .illegalArguments
  let kvs := kvs ++ [⟨targetKey, serializeIndexableEntry txmd e e.md, txID + i⟩]
  if spec.InjectiveMapping ∧ txID > 1 then
    let prev ← deprecatePrevious txs indexers spec txID i e sourceKey targetKey
    return kvs ++ prev
  return kvs

/-- The entries of transaction `txID + i`. -/
def indexTx (txs : List (Tx D)) (indexers : List (Indexer D)) (spec : IndexSpec) (txID i : Nat)
    (kvs : List (KVT D)) : Except IndexError (List (KVT D)) := do
  let tx ← readTx txs (txID + i)
  tx.entries.foldlM (indexEntry txs indexers spec txID i tx.header.Metadata) kvs

/-- The loop of `indexSince` from transaction `txID + i` on, with `fuel` transactions left
before `maxBulkSize`: the versions to insert and the batch's size. `memOk i` is whether the
memory semaphore grants the entries of transaction `txID + i`; `arrives i` is whether
transaction `txID + i + 1` is committed before the preparation timeout. -/
def bulkLoop (txs : List (Tx D)) (indexers : List (Indexer D)) (spec : IndexSpec)
    (maxBulkSize txID : Nat) (memOk arrives : Nat → Bool) :
    Nat → Nat → List (KVT D) → Bool → Except IndexError (List (KVT D) × Nat)
  | 0, i, kvs, _ => .ok (kvs, i)
  | fuel + 1, i, kvs, acquired => do
    let kvs' ← indexTx txs indexers spec txID i kvs
    let txIndexedEntries := kvs'.length - kvs.length
    if kvs'.length > 0 ∧ txIndexedEntries > 0 ∧ !memOk i then
      if !acquired then throw .writeStalling
      return (kvs', i)
    let acquired := acquired || (kvs'.length > 0 ∧ txIndexedEntries > 0)
    let bulkSize := i + 1
    -- the wait for the next commit timed out
    if bulkSize < maxBulkSize ∧ !arrives i then return (kvs', bulkSize)
    bulkLoop txs indexers spec maxBulkSize txID memOk arrives fuel bulkSize kvs' acquired

/-- `indexSince(txID)`. -/
def indexSince (txs : List (Tx D)) (indexers : List (Indexer D)) (idx : Indexer D)
    (maxBulkSize txID : Nat) (memOk arrives : Nat → Bool) : Except IndexError (Indexer D) := do
  let (kvs, bulkSize) ←
    bulkLoop txs indexers idx.spec maxBulkSize txID memOk arrives maxBulkSize 0 [] false
  let index ← if kvs = [] then idx.index.increaseTs (txID + bulkSize - 1)
    else idx.index.bulkInsert kvs
  pure { idx with index }

/-! ## 3. Batches that start at the first transaction -/

section FirstBatch

variable {txs : List (Tx D)} {indexers : List (Indexer D)} {spec : IndexSpec} {txID i : Nat}
  {txmd : List UInt8} {kvs : List (KVT D)} {e : TxEntry D}

/-- An indexable entry under the source prefix, whose images have the target prefix, adds its
own version and, without a lookup of the previous one, nothing else. -/
theorem indexEntry_ok {s t : List UInt8} (hidx : e.md.any (·.nonIndexable) = false)
    (hsp : spec.SourcePrefix.isPrefixOf e.key = true)
    (hs : mapKey e.key e spec.SourceEntryMapper = .ok s)
    (ht : mapKey s e spec.TargetEntryMapper = .ok t) (htp : spec.TargetPrefix.isPrefixOf t = true)
    (hlook : spec.InjectiveMapping = false ∨ txID ≤ 1) :
    indexEntry txs indexers spec txID i txmd kvs e =
      .ok (kvs ++ [⟨t, serializeIndexableEntry txmd e e.md, txID + i⟩]) := by
  have hnot : ¬ (spec.InjectiveMapping = true ∧ txID > 1) := by
    rintro ⟨h₁, h₂⟩
    rcases hlook with h | h
    · rw [h] at h₁; cases h₁
    · omega
  simp only [indexEntry, hidx, hsp, hs, ht, htp, hnot, Bool.not_true, Bool.false_eq_true,
    if_false, bind, Except.bind, pure, Except.pure]

/-- One transaction of a single such entry, in a batch that starts at transaction `1`. -/
theorem indexTx_single {s t : List UInt8} {tx : Tx D} (htx : readTx txs (txID + i) = .ok tx)
    (hentries : tx.entries = [e]) (hidx : e.md.any (·.nonIndexable) = false)
    (hsp : spec.SourcePrefix.isPrefixOf e.key = true)
    (hs : mapKey e.key e spec.SourceEntryMapper = .ok s)
    (ht : mapKey s e spec.TargetEntryMapper = .ok t) (htp : spec.TargetPrefix.isPrefixOf t = true)
    (h1 : txID ≤ 1) :
    indexTx txs indexers spec txID i kvs =
      .ok (kvs ++ [⟨t, serializeIndexableEntry tx.header.Metadata e e.md, txID + i⟩]) := by
  simp only [indexTx, htx, hentries, bind, Except.bind, List.foldlM_cons, List.foldlM_nil]
  rw [indexEntry_ok hidx hsp hs ht htp (Or.inr h1)]
  rfl

end FirstBatch

/-- **Two versions of one source key in the first batch both stay live.** Transactions `1` and
`2` each write one indexable entry under the same source key, with different target keys. When
the indexer's first batch holds both (the semaphore grants both and the batch is cut after the
second), the target key of the older version is not marked deleted: the source key has two live
target keys, and the older one is not the image of its newest version. -/
theorem indexSince_keeps_stale_target (spec : IndexSpec) (indexers : List (Indexer D))
    {e₁ e₂ : TxEntry D} {h₁ h₂ : TxHeader D} (rest : List (Tx D)) {s t₁ t₂ : List UInt8}
    (hidx₁ : e₁.md.any (·.nonIndexable) = false) (hidx₂ : e₂.md.any (·.nonIndexable) = false)
    (hsp₁ : spec.SourcePrefix.isPrefixOf e₁.key = true)
    (hsp₂ : spec.SourcePrefix.isPrefixOf e₂.key = true)
    (hs₁ : mapKey e₁.key e₁ spec.SourceEntryMapper = .ok s)
    (hs₂ : mapKey e₂.key e₂ spec.SourceEntryMapper = .ok s)
    (ht₁ : mapKey s e₁ spec.TargetEntryMapper = .ok t₁)
    (ht₂ : mapKey s e₂ spec.TargetEntryMapper = .ok t₂)
    (htp₁ : spec.TargetPrefix.isPrefixOf t₁ = true) (htp₂ : spec.TargetPrefix.isPrefixOf t₂ = true)
    (hne : t₁ ≠ t₂) (hK₁ : t₁ ≠ []) (hK₂ : t₂ ≠ [])
    (hdel₁ : ∀ md, e₁.md = some md → md.deleted = false)
    (hdel₂ : ∀ md, e₂.md = some md → md.deleted = false)
    {maxBulkSize : Nat} {memOk arrives : Nat → Bool} (hmax : 2 ≤ maxBulkSize)
    (hmem : memOk 0 = true ∧ memOk 1 = true) (harr : arrives 0 = true)
    (hcut : 2 < maxBulkSize → arrives 1 = false) :
    ∃ idx', indexSince (⟨h₁, [e₁]⟩ :: ⟨h₂, [e₂]⟩ :: rest) indexers ⟨spec, ⟨[], 0⟩⟩
        maxBulkSize 1 memOk arrives = .ok idx' ∧
      idx'.index.ts = 2 ∧ idx'.index.Live t₁ ∧ idx'.index.Live t₂ := by
  set txs : List (Tx D) := ⟨h₁, [e₁]⟩ :: ⟨h₂, [e₂]⟩ :: rest with htxs
  set v₁ := serializeIndexableEntry h₁.Metadata e₁ e₁.md
  set v₂ := serializeIndexableEntry h₂.Metadata e₂ e₂.md
  have htx₁ : indexTx txs indexers spec 1 0 [] = .ok [⟨t₁, v₁, 1⟩] :=
    indexTx_single (show readTx txs (1 + 0) = .ok ⟨h₁, [e₁]⟩ from rfl) rfl hidx₁ hsp₁ hs₁ ht₁ htp₁
      (Nat.le_refl 1)
  have htx₂ : indexTx txs indexers spec 1 1 [⟨t₁, v₁, 1⟩] =
      .ok [⟨t₁, v₁, 1⟩, ⟨t₂, v₂, 2⟩] :=
    indexTx_single (show readTx txs (1 + 1) = .ok ⟨h₂, [e₂]⟩ from rfl) rfl hidx₂ hsp₂ hs₂ ht₂ htp₂
      (Nat.le_refl 1)
  obtain ⟨k, rfl⟩ : ∃ k, maxBulkSize = k + 2 := ⟨maxBulkSize - 2, by omega⟩
  -- the batch: both transactions, then the cut
  have hloop : bulkLoop txs indexers spec (k + 2) 1 memOk arrives (k + 2) 0 [] false =
      .ok ([⟨t₁, v₁, 1⟩, ⟨t₂, v₂, 2⟩], 2) := by
    simp only [bulkLoop, htx₁, htx₂, bind, Except.bind, pure, Except.pure, hmem, harr]
    cases k with
    | zero => simp [bulkLoop]
    | succ k => simp [hcut (by omega)]
  refine ⟨⟨spec, ⟨[⟨t₁, v₁, 1⟩, ⟨t₂, v₂, 2⟩], 2⟩⟩, ?_, rfl, ?_, ?_⟩
  · simp only [indexSince, hloop, bind, Except.bind, pure, Except.pure]
    simp [Index.bulkInsert, hK₁, hK₂]
  · refine ⟨⟨t₁, v₁, 1⟩, by simp [Index.newest, Ne.symm hne], fun md hmd => hdel₁ md hmd⟩
  · refine ⟨⟨t₂, v₂, 2⟩, by simp [Index.newest, hne], fun md hmd => hdel₂ md hmd⟩

/-- Key `s1` is written with value `10` by transaction `1` and with `20` by transaction `2`,
and indexed under `t` followed by its value: both `t10` and `t20` stay live. -/
theorem indexSince_keeps_stale_target_s1 :
    ∃ idx', indexSince
        [⟨⟨1, 0, 0, (), (), 0, [], 1, ()⟩, [⟨[115, 1], none, 1, 0, (), [10]⟩]⟩,
          ⟨⟨2, 0, 0, (), (), 0, [], 1, ()⟩, [⟨[115, 1], none, 1, 1, (), [20]⟩]⟩] []
        ⟨⟨[115], none, some fun _ v => some (116 :: v), [116], true⟩, ⟨[], 0⟩⟩
        2 1 (fun _ => true) (fun _ => true) = .ok idx' ∧
      idx'.index.ts = 2 ∧ idx'.index.Live [116, 10] ∧ idx'.index.Live [116, 20] :=
  indexSince_keeps_stale_target ⟨[115], none, some fun _ v => some (116 :: v), [116], true⟩ [] []
    (s := [115, 1]) rfl rfl rfl rfl rfl rfl rfl rfl rfl rfl (by decide) (by decide) (by decide)
    (fun _ h => by cases h) (fun _ h => by cases h) (Nat.le_refl 2) ⟨rfl, rfl⟩ rfl
    (fun h => absurd h (Nat.lt_irrefl 2))

end Immudb.Store
