import Immudb.Store.Export
import Immudb.Htree.Proofs

/-!
# `Immudb/Store/TxLog.lean` — a transaction's record in the transaction log

`performPrecommit` (`immustore.go`) serializes a transaction into `_txbs` and appends it to the
transaction log; `Tx.readFrom` (`tx.go`) reads it back through an `appendable.Reader`:
`readHeader`, `readEntry` for each entry, and `buildAndValidateHtree`. The record holds the header
without `Eh`, then each entry with its metadata stored before its key (for backward
compatibility) and its value's length, offset and hash, and last the `Alh`. The reader computes
`Eh` again from the entries' digests with the transaction's HTree (`Tx.BuildHashTree` does the
same on the writing side), and checks the `Alh` of the header it read against the stored one.

The reader is a position in the bytes of the log from the transaction's offset on: `Read(bs)`
fills `bs` from there or fails with `io.EOF`. The record of a committed transaction reads back to
its header and entries, whatever the log holds after it (`readFrom_txRecord`).

Version 0 has no field for the transaction's metadata, and `TxHeader.Bytes` refuses a version-0
header that has some. `performPrecommit` checks nothing of the kind: it writes such a header as it
writes the same header without metadata, `Alh` does not bind it either, and the metadata is lost
on the way through the log (`readFrom_v0_record_drops_metadata`), a defect of the writer.
-/

set_option autoImplicit false

namespace Immudb.Store

open Hashing Bytes Htree Merkle

/-- The errors of `Tx.BuildHashTree` and `Tx.readFrom`: `io.EOF`, the sentinels of `tx.go`, and
those of the metadata readers, the digest functions and the HTree. -/
inductive TxLogError where
  | eof
  | corruptedData (detail : String)
  | corruptedTxDataUnknownHeaderVersion (version : Nat)
  | corruptedTxDataMaxTxEntriesExceeded
  | corruptedTxDataMaxKeyLenExceeded
  | wire (e : WireError)
  | digest (e : DigestError)
  | htree (e : HtreeError)
  deriving DecidableEq, Repr

variable {D : Type} (hs : Hasher D)

/-- The error of a digest function. -/
def liftDigest {α : Type} : Except DigestError α → Except TxLogError α
  | .ok a => .ok a
  | .error e => .error (.digest e)

@[simp] theorem liftDigest_ok {α : Type} (a : α) :
    liftDigest (.ok a : Except DigestError α) = .ok a := rfl

@[simp] theorem liftDigest_error {α : Type} (e : DigestError) :
    liftDigest (.error e : Except DigestError α) = .error (.digest e) := rfl

/-- The error of the HTree. -/
def liftHtree {α : Type} : Except HtreeError α → Except TxLogError α
  | .ok a => .ok a
  | .error e => .error (.htree e)

/-- `tx.BuildHashTree()`: the entries' digests by the header's version, built into the
transaction's HTree, whose root is the new `Eh`. -/
def Tx.BuildHashTree (t : HTree D) (hdr : TxHeader D) (entries : List (TxEntry D)) :
    Except TxLogError (HTree D × D) := do
  let txEntryDigest ← liftDigest (hdr.TxEntryDigest hs)
  let digests ← entries.mapM fun e => liftDigest (txEntryDigest e)
  let t ← liftHtree (t.BuildWith hs digests)
  pure (t, t.Root)

/-! ## 1. The record -/

/-- What `performPrecommit` writes for an entry: `mdLen`, the metadata, `kLen`, the key, `vLen`,
`vOff` and the value's hash. -/
def entryRecord (e : TxEntry D) : List UInt8 :=
  be 2 (mdBytes e.md).length ++ mdBytes e.md ++ be 2 e.key.length ++ e.key ++ be 4 e.vLen ++
    be 8 e.vOff ++ hs.bytes e.hVal

/-- The record `performPrecommit` appends for a transaction with header `hdr`, its entries and its
`Alh`; `none` where Go panics on a version it has no serialization for. -/
def txRecord (hdr : TxHeader D) (entries : List (TxEntry D)) (alh : D) : Option (List UInt8) :=
  let head := be 8 hdr.ID ++ beInt 8 hdr.Ts ++ be 8 hdr.BlTxID ++ hs.bytes hdr.BlRoot ++
    hs.bytes hdr.PrevAlh ++ beInt 2 hdr.Version
  let versioned :=
    if hdr.Version = 0 then some (beInt 2 hdr.NEntries)
    else if hdr.Version = 1 then
      some (be 2 hdr.Metadata.length ++ hdr.Metadata ++ beInt 4 hdr.NEntries)
    else none
  versioned.map fun v => head ++ v ++ (entries.map (entryRecord hs)).flatten ++ hs.bytes alh

/-! ## 2. The reader -/

/-- `appendable.Reader` over the log's bytes `b` from the transaction's offset: the position
reached. -/
abbrev LogReader := StateT Nat (Except TxLogError)

/-- `r.Read(bs)` of `n` bytes: all of them, or `io.EOF`. -/
def readBytes (b : List UInt8) (n : Nat) : LogReader (List UInt8) := fun i =>
  if i + n ≤ b.length then .ok ((b.drop i).take n, i + n) else .error .eof

/-- `ReadUint16`, `ReadUint32`, `ReadUint64`: `w` bytes, big-endian. -/
def readUint (b : List UInt8) (w : Nat) : LogReader Nat := ofBE <$> readBytes b w

/-- `r.Read(d[:])` into a digest. -/
def readDigestAt (readDigest : List UInt8 → D) (b : List UInt8) : LogReader D :=
  readDigest <$> readBytes b 32

/-- A call into a metadata reader. -/
def liftWire {α : Type} (x : Except WireError α) : LogReader α :=
  match x with
  | .ok a => pure a
  | .error e => throw (.wire e)

namespace TxDataReader

/-- The version switch of `readHeader`: the metadata, as `Bytes()` of what was read, and
`NEntries`. -/
def readVersioned (b : List UInt8) (version : Nat) : LogReader (List UInt8 × Nat) :=
  if version = 0 then do
    let nentries ← readUint b 2
    pure ([], nentries)
  else if version = 1 then do
    let mdLen ← readUint b 2
    if mdLen > TxHeader.maxTxMetadataLen then throw (.corruptedData "")
    let md ← if 0 < mdLen then do
        let mdBs ← readBytes b mdLen
        let txmd ← liftWire (TxMetadata.ReadFrom mdBs)
        liftWire txmd.Bytes
      else pure []
    let nentries ← readUint b 4
    pure (md, nentries)
  else throw (.corruptedTxDataUnknownHeaderVersion version)

/-- `t.readHeader(maxEntries)`: the header, with `Eh` still the zero digest. -/
def readHeader (readDigest : List UInt8 → D) (b : List UInt8) (maxEntries : Nat) :
    LogReader (TxHeader D) := do
  let id ← readUint b 8
  -- underlying file may be preallocated
  if id = 0 then throw .eof
  let ts ← readUint b 8
  let blTxID ← readUint b 8
  let blRoot ← readDigestAt readDigest b
  let prevAlh ← readDigestAt readDigest b
  let version ← readUint b 2
  let (md, nentries) ← readVersioned b version
  if nentries > maxEntries then throw .corruptedTxDataMaxTxEntriesExceeded
  pure ⟨id, int64Of ts, blTxID, blRoot, prevAlh, version, md, nentries, hs.zero⟩

/-- `t.readEntry(entry)`: the entry, whose value is not read. -/
def readEntry (readDigest : List UInt8 → D) (b : List UInt8) (maxKeyLen : Nat) :
    LogReader (TxEntry D) := do
  -- md is stored before key to ensure backward compatibility
  let mdLen ← readUint b 2
  let md ← if 0 < mdLen then do
      let mdbs ← readBytes b mdLen
      some <$> liftWire (KVMetadata.unsafeReadFrom mdbs)
    else pure none
  let kLen ← readUint b 2
  if kLen > maxKeyLen then throw .corruptedTxDataMaxKeyLenExceeded
  let key ← readBytes b kLen
  let vLen ← readUint b 4
  let vOff ← readUint b 8
  let hVal ← readDigestAt readDigest b
  pure ⟨key, md, vLen, vOff, hVal, []⟩

/-- The entry loop of `readFrom`: `n` entries, and their digests when there is a digest function,
that is, when the integrity is checked. -/
def readEntries (readDigest : List UInt8 → D) (b : List UInt8) (maxKeyLen : Nat)
    (digestFunc : Option (TxEntry D → Except DigestError D)) :
    Nat → LogReader (List (TxEntry D) × List D)
  | 0 => pure ([], [])
  | n + 1 => do
    let e ← readEntry readDigest b maxKeyLen
    let d ← match digestFunc with
      | some f => do
        let d ← StateT.lift (liftDigest (f e))
        pure [d]
      | none => pure []
    let (es, ds) ← readEntries readDigest b maxKeyLen digestFunc n
    pure (e :: es, d ++ ds)

/-- `t.buildAndValidateHtree(htree)`: the stored `Alh` is read, then, when the integrity is
checked, `Eh` is the root of the digests and the header's `Alh` must be the stored one. -/
def buildAndValidateHtree [DecidableEq D] (readDigest : List UInt8 → D) (b : List UInt8)
    (skipIntegrityCheck : Bool) (hdr : TxHeader D) (digests : List D) (t : HTree D) :
    LogReader (TxHeader D × HTree D) := do
  -- it's better to consume alh from appendable even if it's not validated
  let alh ← readDigestAt readDigest b
  if skipIntegrityCheck then return (hdr, t)
  let t ← StateT.lift (liftHtree (t.BuildWith hs digests))
  let hdr := { hdr with Eh := t.Root }
  if hdr.alh hs ≠ some alh then throw (.corruptedData "ALH mismatch")
  return (hdr, t)

end TxDataReader

/-- `tx.readFrom(r, skipIntegrityCheck)` from the transaction's offset, with the transaction's
HTree `t` and its capacities: the header, the entries, and the HTree. -/
def Tx.readFrom [DecidableEq D] (readDigest : List UInt8 → D) (b : List UInt8)
    (maxEntries maxKeyLen : Nat) (t : HTree D) (skipIntegrityCheck : Bool) :
    Except TxLogError (TxHeader D × List (TxEntry D) × HTree D) :=
  (do
    let hdr ← TxDataReader.readHeader hs readDigest b maxEntries
    let digestFunc ← if skipIntegrityCheck then pure none
      else some <$> StateT.lift (liftDigest (hdr.TxEntryDigest hs))
    let (entries, digests) ←
      TxDataReader.readEntries readDigest b maxKeyLen digestFunc hdr.NEntries.toNat
    let (hdr, t) ←
      TxDataReader.buildAndValidateHtree hs readDigest b skipIntegrityCheck hdr digests t
    pure (hdr, entries, t)).run' 0


/-! ## 3. Reading back what was written -/

section Reads

variable {b post : List UInt8} {i : Nat}

theorem readBytes_of_drop {x : List UInt8} (hi : i ≤ b.length) (h : b.drop i = x ++ post) :
    readBytes b x.length i = .ok (x, i + x.length) := by
  have hlen := le_length_of_drop hi h
  simp [readBytes, h, show i + x.length ≤ b.length by omega]

theorem readUint_be {w n : Nat} (hi : i ≤ b.length) (h : b.drop i = be w n ++ post) :
    readUint b w i = .ok (n % 2 ^ (8 * w), i + w) := by
  have := readBytes_of_drop hi h
  rw [length_be] at this
  simp [readUint, Functor.map, StateT.map, this, Except.map, ofBE_be]

theorem readUint_beInt {w : Nat} {x : Int} (hi : i ≤ b.length) (h : b.drop i = beInt w x ++ post) :
    readUint b w i = .ok ((x % 2 ^ (8 * w)).toNat, i + w) := by
  rw [readUint_be hi h, Nat.mod_eq_of_lt (toNat_emod_lt w x)]

theorem readDigestAt_bytes (hw : hs.FixedWidth 32) {readDigest : List UInt8 → D}
    (hread : ∀ d, readDigest (hs.bytes d) = d) {d : D} (hi : i ≤ b.length)
    (h : b.drop i = hs.bytes d ++ post) : readDigestAt readDigest b i = .ok (d, i + 32) := by
  have := readBytes_of_drop hi h
  rw [hw.length_bytes] at this
  simp [readDigestAt, Functor.map, StateT.map, this, Except.map, hread]

@[simp] theorem liftWire_ok {α : Type} (a : α) : (liftWire (.ok a) : LogReader α) i = .ok (a, i) :=
  rfl

end Reads

/-- The digests of a list of entries, one by one. -/
theorem mapM_liftDigest_cons {g : TxEntry D → Except DigestError D} {e : TxEntry D}
    {es : List (TxEntry D)} {ds : List D}
    (h : (e :: es).mapM (fun e => liftDigest (g e)) = .ok ds) :
    ∃ d ds', g e = .ok d ∧ es.mapM (fun e => liftDigest (g e)) = .ok ds' ∧ ds = d :: ds' := by
  rw [List.mapM_cons] at h
  cases hd : g e with
  | error err => simp only [hd, liftDigest_error, bind, Except.bind, reduceCtorEq] at h
  | ok d =>
    cases hds : es.mapM (fun e => liftDigest (g e)) with
    | error err => simp only [hd, hds, liftDigest_ok, bind, Except.bind, reduceCtorEq] at h
    | ok ds' =>
      simp only [hd, hds, liftDigest_ok, bind, Except.bind, pure, Except.pure,
        Except.ok.injEq] at h
      exact ⟨d, ds', rfl, rfl, h.symm⟩

namespace TxDataReader

/-- The version switch reads back what `performPrecommit` wrote between the version and the
entries, provided the metadata is that of a `TxMetadata`. -/
theorem readVersioned_middleBytes {hdr : TxHeader D} (he : hdr.Encodable)
    (hmd : ∃ md : TxMetadata, md.Fits ∧ md.Bytes = .ok hdr.Metadata) {b post : List UInt8} {i : Nat}
    (hi : i ≤ b.length) (h : b.drop i = hdr.middleBytes ++ post) :
    readVersioned b hdr.Version.toNat i =
      .ok ((hdr.Metadata, hdr.NEntries.toNat), i + hdr.middleBytes.length) := by
  have hN0 := he.nentries_ge
  rcases he.version with ⟨h0, hmd0, hN⟩ | ⟨h1, hmdlen, hN⟩
  · -- version 0: no metadata, a two-byte `NEntries`
    rw [TxHeader.middleBytes, if_pos h0] at h ⊢
    have hNRead : readUint b 2 i = .ok (hdr.NEntries.toNat, i + 2) := by
      rw [readUint_beInt hi h]
      congr 2
      omega
    simp [readVersioned, h0, hNRead, hmd0, bind, StateT.bind, Except.bind, pure, StateT.pure,
      Except.pure]
  · -- version 1: the metadata behind its length, then a four-byte `NEntries`
    have hne : ¬ hdr.Version = 0 := by rw [h1]; decide
    rw [TxHeader.middleBytes, if_neg hne, List.append_assoc, List.append_assoc] at h
    simp only [TxHeader.middleBytes, if_neg hne, List.length_append, length_be, length_beInt]
    obtain ⟨md, hfit, hmdb⟩ := hmd
    have hmax : hdr.Metadata.length ≤ 268 := hmdlen
    have hlen := le_length_of_drop hi h
    have hmd2 : b.drop (i + 2) = hdr.Metadata ++ (beInt 4 hdr.NEntries ++ post) := by
      simpa using drop_add_of_drop h
    have hN4 : b.drop (i + 2 + hdr.Metadata.length) = beInt 4 hdr.NEntries ++ post :=
      drop_add_of_drop hmd2
    have hmdRead : readUint b 2 i = .ok (hdr.Metadata.length, i + 2) := by
      rw [readUint_be hi h, Nat.mod_eq_of_lt (by omega)]
    have hNRead : readUint b 4 (i + 2 + hdr.Metadata.length) =
        .ok (hdr.NEntries.toNat, i + 2 + hdr.Metadata.length + 4) := by
      rw [readUint_beInt (by simp at hlen; omega) hN4]
      congr 2
      omega
    have hguard : ¬ hdr.Metadata.length > TxHeader.maxTxMetadataLen := by omega
    by_cases hpos : 0 < hdr.Metadata.length
    · -- the metadata is read with `TxMetadata.ReadFrom` and written again with `Bytes()`
      have hmdBs : readBytes b hdr.Metadata.length (i + 2) =
          .ok (hdr.Metadata, i + 2 + hdr.Metadata.length) :=
        readBytes_of_drop (by simp at hlen; omega) hmd2
      have hread : TxMetadata.ReadFrom hdr.Metadata = .ok md := TxMetadata.ReadFrom_Bytes hfit hmdb
      simp [readVersioned, h1, hmdRead, hguard, hpos, hmdBs, hread, hNRead, hmdb, bind, StateT.bind,
        Except.bind, pure, StateT.pure, Except.pure]
      omega
    · have hnil : hdr.Metadata = [] := List.eq_nil_of_length_eq_zero (by omega)
      rw [hnil, List.length_nil, Nat.add_zero] at hNRead hmdRead
      simp [readVersioned, h1, hmdRead, hNRead, hnil, bind, StateT.bind, Except.bind, pure,
        StateT.pure, Except.pure]


/-- `readHeader` reads back the header `performPrecommit` wrote, but for `Eh`, which the record
does not hold. -/
theorem readHeader_record (hw : hs.FixedWidth 32) {readDigest : List UInt8 → D}
    (hread : ∀ d, readDigest (hs.bytes d) = d) {hdr : TxHeader D} (he : hdr.Encodable)
    (hmd : ∃ md : TxMetadata, md.Fits ∧ md.Bytes = .ok hdr.Metadata) (hid : 1 ≤ hdr.ID)
    {maxEntries : Nat} (hmax : hdr.NEntries.toNat ≤ maxEntries) {b post : List UInt8} {i : Nat}
    (hi : i ≤ b.length)
    (h : b.drop i = be 8 hdr.ID ++ (beInt 8 hdr.Ts ++ (be 8 hdr.BlTxID ++ (hs.bytes hdr.BlRoot ++
      (hs.bytes hdr.PrevAlh ++ (beInt 2 hdr.Version ++ (hdr.middleBytes ++ post))))))) :
    readHeader hs readDigest b maxEntries i =
      .ok ({ hdr with Eh := hs.zero }, i + 90 + hdr.middleBytes.length) := by
  have hlen := le_length_of_drop hi h
  simp only [List.length_append, length_be, length_beInt, hw.length_bytes] at hlen
  -- each field where `performPrecommit` wrote it
  have h8 := drop_add_of_drop h
  have h16 := drop_add_of_drop h8
  have h24 := drop_add_of_drop h16
  have h56 := drop_add_of_drop h24
  have h88 := drop_add_of_drop h56
  have h90 := drop_add_of_drop h88
  simp only [length_be, length_beInt, hw.length_bytes] at h8 h16 h24 h56 h88 h90
  -- and what each read gives back
  have hID : readUint b 8 i = .ok (hdr.ID, i + 8) := by
    rw [readUint_be hi h, Nat.mod_eq_of_lt he.id_lt]
  obtain ⟨ts, hts, hTs⟩ : ∃ ts, readUint b 8 (i + 8) = .ok (ts, i + 8 + 8) ∧ int64Of ts = hdr.Ts :=
    ⟨_, readUint_beInt (by omega) h8, int64Of_emod he.ts_ge he.ts_lt⟩
  have hBl : readUint b 8 (i + 8 + 8) = .ok (hdr.BlTxID, i + 8 + 8 + 8) := by
    rw [readUint_be (by omega) h16, Nat.mod_eq_of_lt he.blTxID_lt]
  have hV : readUint b 2 (i + 8 + 8 + 8 + 32 + 32) =
      .ok (hdr.Version.toNat, i + 8 + 8 + 8 + 32 + 32 + 2) := by
    rw [readUint_beInt (by omega) h88]
    congr 2
    rcases he.version with ⟨hv, -⟩ | ⟨hv, -⟩ <;> omega
  have hVer : ((hdr.Version.toNat : Nat) : Int) = hdr.Version := by
    rcases he.version with ⟨hv, -⟩ | ⟨hv, -⟩ <;> omega
  have hN : ((hdr.NEntries.toNat : Nat) : Int) = hdr.NEntries := by
    have := he.nentries_ge
    omega
  simp [readHeader, hID, show hdr.ID ≠ 0 by omega, hts, hBl,
    readDigestAt_bytes hs hw hread (by omega) h24, readDigestAt_bytes hs hw hread (by omega) h56, hV,
    TxDataReader.readVersioned_middleBytes he hmd (by omega) h90, show ¬ maxEntries < hdr.NEntries.toNat by omega,
    bind, StateT.bind, Except.bind, pure, StateT.pure, Except.pure, hTs, hVer, hN]


/-- `readEntry` reads back an entry's record: its key, its metadata (`nil` where no attribute is
set), its value's length, offset and hash; the value itself is not in the record. -/
theorem readEntry_record (hw : hs.FixedWidth 32) {readDigest : List UInt8 → D}
    (hread : ∀ d, readDigest (hs.bytes d) = d) {maxKeyLen : Nat} {e : TxEntry D}
    (hk : e.key.length ≤ maxKeyLen) (hk16 : e.key.length < 2 ^ 16) (hv : e.vLen < 2 ^ 32)
    (hoff : e.vOff < 2 ^ 64) (hmd : ∀ m ∈ e.md, m.Fits) {b post : List UInt8} {i : Nat}
    (hi : i ≤ b.length) (h : b.drop i = entryRecord hs e ++ post) :
    readEntry readDigest b maxKeyLen i =
      .ok ({ e with md := if mdBytes e.md = [] then none else e.md, value := [] },
        i + (entryRecord hs e).length) := by
  simp only [entryRecord, List.append_assoc] at h ⊢
  have hlen := le_length_of_drop hi h
  simp only [List.length_append, length_be, hw.length_bytes] at hlen ⊢
  have hmlen := length_mdBytes_le e.md
  have hm16 : (mdBytes e.md).length < 2 ^ 16 := by unfold maxKVMetadataLen at hmlen; omega
  -- each field where `performPrecommit` wrote it
  have hmd2 := drop_add_of_drop h
  have hkLen := drop_add_of_drop hmd2
  have hkey := drop_add_of_drop hkLen
  have hvLen := drop_add_of_drop hkey
  have hvOff := drop_add_of_drop hvLen
  have hhVal := drop_add_of_drop hvOff
  simp only [length_be] at hmd2 hkLen hkey hvLen hvOff hhVal
  -- and what each read gives back
  have hmRead : readUint b 2 i = .ok ((mdBytes e.md).length, i + 2) := by
    rw [readUint_be hi h, Nat.mod_eq_of_lt hm16]
  have hkRead : readUint b 2 (i + 2 + (mdBytes e.md).length) =
      .ok (e.key.length, i + 2 + (mdBytes e.md).length + 2) := by
    rw [readUint_be (by omega) hkLen, Nat.mod_eq_of_lt hk16]
  have hkeyRead : readBytes b e.key.length (i + 2 + (mdBytes e.md).length + 2) =
      .ok (e.key, i + 2 + (mdBytes e.md).length + 2 + e.key.length) :=
    readBytes_of_drop (by omega) hkey
  have hvRead : readUint b 4 (i + 2 + (mdBytes e.md).length + 2 + e.key.length) =
      .ok (e.vLen, i + 2 + (mdBytes e.md).length + 2 + e.key.length + 4) := by
    rw [readUint_be (by omega) hvLen, Nat.mod_eq_of_lt hv]
  have hoRead : readUint b 8 (i + 2 + (mdBytes e.md).length + 2 + e.key.length + 4) =
      .ok (e.vOff, i + 2 + (mdBytes e.md).length + 2 + e.key.length + 4 + 8) := by
    rw [readUint_be (by omega) hvOff, Nat.mod_eq_of_lt hoff]
  have hhRead := readDigestAt_bytes hs hw hread (by omega) hhVal
  have hkmax : ¬ e.key.length > maxKeyLen := by omega
  by_cases hpos : 0 < (mdBytes e.md).length
  · -- the metadata is read with `unsafeReadFrom`
    obtain ⟨m, hm⟩ : ∃ m, e.md = some m := by
      cases hmd' : e.md with
      | none => simp [hmd', mdBytes] at hpos
      | some m => exact ⟨m, rfl⟩
    have hmdBs : readBytes b (mdBytes e.md).length (i + 2) =
        .ok (mdBytes e.md, i + 2 + (mdBytes e.md).length) :=
      readBytes_of_drop (by omega) hmd2
    have hmRead' : KVMetadata.unsafeReadFrom (mdBytes e.md) = .ok m := by
      rw [hm]
      exact KVMetadata.unsafeReadFrom_Bytes (hmd m hm)
    have hmdn : (if mdBytes e.md = [] then none else e.md) = some m := by
      rw [if_neg (List.ne_nil_of_length_pos hpos), hm]
    simp [readEntry, hmRead, hpos, hmdBs, hmRead', hkRead, hkmax, hkeyRead, hvRead, hoRead, hhRead,
      hmdn, bind, StateT.bind, Except.bind, pure, StateT.pure, Except.pure, Functor.map, StateT.map]
    omega
  · -- no metadata: the key's length follows the metadata's
    have hnil : mdBytes e.md = [] := List.eq_nil_of_length_eq_zero (by omega)
    rw [hnil, List.length_nil, Nat.add_zero] at hkRead hkeyRead hvRead hoRead hhRead
    simp [readEntry, hmRead, hnil, hkRead, hkmax, hkeyRead, hvRead, hoRead, hhRead, bind,
      StateT.bind, Except.bind, pure, StateT.pure, Except.pure]
    omega


/-- The entry loop reads back the records of the entries, and computes their digests. -/
theorem readEntries_record (hw : hs.FixedWidth 32) {readDigest : List UInt8 → D}
    (hread : ∀ d, readDigest (hs.bytes d) = d) {maxKeyLen : Nat} {hdr : TxHeader D}
    {g : TxEntry D → Except DigestError D} (hg : hdr.TxEntryDigest hs = .ok g) {b : List UInt8} :
    ∀ (es : List (TxEntry D)) (ds : List D) (i : Nat) (post : List UInt8),
      (∀ e ∈ es, e.key.length ≤ maxKeyLen ∧ e.key.length < 2 ^ 16 ∧ e.vLen < 2 ^ 32 ∧
        e.vOff < 2 ^ 64 ∧ ∀ m ∈ e.md, m.Fits) →
      es.mapM (fun e => liftDigest (g e)) = .ok ds →
      i ≤ b.length → b.drop i = (es.map (entryRecord hs)).flatten ++ post →
      readEntries readDigest b maxKeyLen (some g) es.length i =
        .ok ((es.map fun e => { e with md := if mdBytes e.md = [] then none else e.md, value := [] },
          ds), i + (es.map (entryRecord hs)).flatten.length) := by
  intro es
  induction es with
  | nil =>
    intro ds i post _ hds _ _
    simp only [List.mapM_nil, pure, Except.pure, Except.ok.injEq] at hds
    subst hds
    simp [readEntries, pure, StateT.pure, Except.pure]
  | cons e es ih =>
    intro ds i post hes hds hi h
    obtain ⟨hk, hk16, hv, hoff, hmd⟩ := hes e (List.mem_cons_self ..)
    obtain ⟨d, ds', hd, hds', rfl⟩ := mapM_liftDigest_cons hds
    rw [List.map_cons, List.flatten_cons, List.append_assoc] at h
    have hlen := le_length_of_drop hi h
    -- the entry read back has the digest of the entry written
    have hd' : g { e with md := if mdBytes e.md = [] then none else e.md, value := [] } = .ok d := by
      rw [← hd]
      exact TxEntryDigest_congr hs hg (mdBytes_normalize e.md) rfl rfl
    have hrest := ih ds' (i + (entryRecord hs e).length) post
      (fun e' he' => hes e' (List.mem_cons_of_mem _ he')) hds' (by omega) (drop_add_of_drop h)
    simp [readEntries, readEntry_record hs hw hread hk hk16 hv hoff hmd hi h, hd', hrest,
      bind, StateT.bind, StateT.lift, Except.bind, pure, StateT.pure, Except.pure]
    omega

/-- `buildAndValidateHtree` reads the stored `Alh`, builds the tree from the digests, and accepts
the header with the new root as `Eh` when its `Alh` is the stored one. -/
theorem buildAndValidateHtree_record [DecidableEq D] (hw : hs.FixedWidth 32)
    {readDigest : List UInt8 → D} (hread : ∀ d, readDigest (hs.bytes d) = d) {hdr : TxHeader D}
    {ds : List D} {t t' : HTree D} (hbuild : t.BuildWith hs ds = .ok t') {alh : D}
    (halh : { hdr with Eh := t'.Root }.alh hs = some alh) {b post : List UInt8} {i : Nat}
    (hi : i ≤ b.length) (h : b.drop i = hs.bytes alh ++ post) :
    buildAndValidateHtree hs readDigest b false hdr ds t i =
      .ok (({ hdr with Eh := t'.Root }, t'), i + 32) := by
  simp [buildAndValidateHtree, readDigestAt_bytes hs hw hread hi h, hbuild, liftHtree, halh, bind,
    StateT.bind, StateT.lift, Except.bind, pure, StateT.pure, Except.pure]

end TxDataReader

/-! ## 4. The round trip -/

/-- `MaxKeyLen`, the bound `Options.Validate` puts on a store's `MaxKeyLen`. -/
def MaxKeyLen : Nat := 1024

/-- The digests of a list of entries are as many as the entries. -/
theorem length_of_mapM_liftDigest {g : TxEntry D → Except DigestError D} :
    ∀ {es : List (TxEntry D)} {ds : List D}, es.mapM (fun e => liftDigest (g e)) = .ok ds →
      ds.length = es.length
  | [], ds, h => by
    simp only [List.mapM_nil, pure, Except.pure, Except.ok.injEq] at h
    subst h
    rfl
  | _ :: _, _, h => by
    obtain ⟨d, ds', -, hds', rfl⟩ := mapM_liftDigest_cons h
    simp [length_of_mapM_liftDigest hds']

/-- What `BuildHashTree` did when it succeeded: the digest function of the header's version, the
entries' digests, and the tree they built, whose root it returns. -/
theorem BuildHashTree_ok {t t' : HTree D} {hdr : TxHeader D} {entries : List (TxEntry D)} {r : D}
    (h : Tx.BuildHashTree hs t hdr entries = .ok (t', r)) :
    ∃ g ds, hdr.TxEntryDigest hs = .ok g ∧ entries.mapM (fun e => liftDigest (g e)) = .ok ds ∧
      t.BuildWith hs ds = .ok t' ∧ r = t'.Root := by
  unfold Tx.BuildHashTree at h
  cases hg : hdr.TxEntryDigest hs with
  | error err => simp [hg, bind, Except.bind] at h
  | ok g =>
    cases hds : entries.mapM (fun e => liftDigest (g e)) with
    | error err => simp [hg, hds, bind, Except.bind] at h
    | ok ds =>
      cases hb : t.BuildWith hs ds with
      | error err => simp [hg, hds, hb, liftHtree, bind, Except.bind] at h
      | ok t'' =>
        simp only [hg, hds, hb, liftDigest_ok, liftHtree, bind, Except.bind, pure, Except.pure,
          Except.ok.injEq, Prod.mk.injEq] at h
        obtain ⟨rfl, rfl⟩ := h
        exact ⟨g, ds, rfl, hds, hb, rfl⟩

/-- On a tree `New(maxWidth)` made, `BuildHashTree` of at most `maxWidth` entries succeeds, and the
`Eh` it returns is the RFC 6962 root of the entries' digests. -/
theorem BuildHashTree_buildAll {maxWidth : Nat} (dss : List (List D)) {hdr : TxHeader D}
    {entries : List (TxEntry D)} {g : TxEntry D → Except DigestError D} {ds : List D}
    (hg : hdr.TxEntryDigest hs = .ok g) (hds : entries.mapM (fun e => liftDigest (g e)) = .ok ds)
    (h : entries.length ≤ maxWidth) :
    ∃ t', Tx.BuildHashTree hs (buildAll hs maxWidth dss) hdr entries =
      .ok (t', mth (htreeScheme hs) ds) := by
  have hlen : ds.length ≤ maxWidth := by
    rw [length_of_mapM_liftDigest hds]
    exact h
  obtain ⟨t', hbuild, hroot⟩ := buildAll_BuildWith_root hs maxWidth dss hlen
  refine ⟨t', ?_⟩
  simp [Tx.BuildHashTree, hg, hds, hbuild, hroot, liftHtree, bind, Except.bind, pure, Except.pure]

/-- The record of a header of a known version: its fields in the order `readHeader` reads them,
the entries' records, and the `Alh`. -/
theorem txRecord_eq {hdr : TxHeader D} (h : hdr.Supported) (entries : List (TxEntry D)) (alh : D) :
    txRecord hs hdr entries alh = some (be 8 hdr.ID ++ (beInt 8 hdr.Ts ++ (be 8 hdr.BlTxID ++
      (hs.bytes hdr.BlRoot ++ (hs.bytes hdr.PrevAlh ++ (beInt 2 hdr.Version ++
        (hdr.middleBytes ++ ((entries.map (entryRecord hs)).flatten ++ hs.bytes alh)))))))) := by
  rcases h with h | h <;> simp [txRecord, TxHeader.middleBytes, h]

/-- **The transaction log's record reads back.** A header of version 0 or 1 whose `Eh`
`BuildHashTree` computed on the transaction's HTree has an `Alh` and a record; read from the log
with the integrity check on, whatever follows it, the record gives back the header, `Eh`
included, and each entry's key, metadata, value length, offset and hash, and the tree it builds
has `Eh` as its root. -/
theorem readFrom_txRecord [DecidableEq D] (hw : hs.FixedWidth 32) {readDigest : List UInt8 → D}
    (hread : ∀ d, readDigest (hs.bytes d) = d) {maxEntries maxKeyLen : Nat}
    (hkl : maxKeyLen ≤ MaxKeyLen) (dss₀ dss : List (List D)) (hdr : TxHeader D)
    (entries : List (TxEntry D)) (he : hdr.Encodable)
    (hmd : ∃ md : TxMetadata, md.Fits ∧ md.Bytes = .ok hdr.Metadata) (hid : 1 ≤ hdr.ID)
    (hn : hdr.NEntries = entries.length) (hmax : entries.length ≤ maxEntries)
    (hent : ∀ e ∈ entries, e.key.length ≤ maxKeyLen ∧ e.vLen < 2 ^ 32 ∧ e.vOff < 2 ^ 64 ∧
      ∀ m ∈ e.md, m.Fits)
    {t₀ : HTree D} (hEh : Tx.BuildHashTree hs (buildAll hs maxEntries dss₀) hdr entries =
      .ok (t₀, hdr.Eh)) :
    ∃ alh rec, hdr.alh hs = some alh ∧ txRecord hs hdr entries alh = some rec ∧
      ∀ post, ∃ t, Tx.readFrom hs readDigest (rec ++ post) maxEntries maxKeyLen
          (buildAll hs maxEntries dss) false =
        .ok (hdr, entries.map (fun e =>
          { e with md := if mdBytes e.md = [] then none else e.md, value := [] }), t) ∧
        t.Root = hdr.Eh := by
  obtain ⟨alh, halh⟩ : ∃ alh, hdr.alh hs = some alh :=
    Option.isSome_iff_exists.mp ((TxHeader.isSome_alh hs hdr).mpr he.supported)
  refine ⟨alh, _, halh, txRecord_eq hs he.supported entries alh, fun post => ?_⟩
  -- the writer's digests, and the root they build on any tree `New(maxEntries)` made
  obtain ⟨g, ds, hg, hds, hbuild₀, hEh₀⟩ := BuildHashTree_ok hs hEh
  have hdslen := length_of_mapM_liftDigest hds
  obtain ⟨t, hbuild, hroot⟩ :=
    buildAll_BuildWith_root hs maxEntries dss (show ds.length ≤ maxEntries by omega)
  obtain ⟨t₀', hbuild₀', hroot₀⟩ :=
    buildAll_BuildWith_root hs maxEntries dss₀ (show ds.length ≤ maxEntries by omega)
  have hEhRoot : t.Root = hdr.Eh := by
    rw [hbuild₀] at hbuild₀'
    cases hbuild₀'
    rw [hEh₀, hroot₀, hroot]
  refine ⟨t, ?_, hEhRoot⟩
  -- the record, as `readFrom` meets it: the header, the entries, the `Alh`
  set H := be 8 hdr.ID ++ (beInt 8 hdr.Ts ++ (be 8 hdr.BlTxID ++ (hs.bytes hdr.BlRoot ++
    (hs.bytes hdr.PrevAlh ++ (beInt 2 hdr.Version ++ hdr.middleBytes))))) with hH
  set E := (entries.map (entryRecord hs)).flatten with hE
  have hHlen : H.length = 90 + hdr.middleBytes.length := by
    simp only [hH, List.length_append, length_be, length_beInt, hw.length_bytes]
    omega
  have hb : be 8 hdr.ID ++ (beInt 8 hdr.Ts ++ (be 8 hdr.BlTxID ++ (hs.bytes hdr.BlRoot ++
      (hs.bytes hdr.PrevAlh ++ (beInt 2 hdr.Version ++ (hdr.middleBytes ++
        (E ++ hs.bytes alh))))))) ++ post = H ++ (E ++ (hs.bytes alh ++ post)) := by
    simp only [hH, List.append_assoc]
  have hlen : (H ++ (E ++ (hs.bytes alh ++ post))).length =
      H.length + E.length + 32 + post.length := by
    simp only [List.length_append, hw.length_bytes]
    omega
  rw [hb]
  have hHeaderAt : (H ++ (E ++ (hs.bytes alh ++ post))).drop 0 = be 8 hdr.ID ++ (beInt 8 hdr.Ts ++
      (be 8 hdr.BlTxID ++ (hs.bytes hdr.BlRoot ++ (hs.bytes hdr.PrevAlh ++ (beInt 2 hdr.Version ++
        (hdr.middleBytes ++ (E ++ (hs.bytes alh ++ post)))))))) := by
    simp only [hH, List.drop_zero, List.append_assoc]
  have hEntriesAt : (H ++ (E ++ (hs.bytes alh ++ post))).drop (90 + hdr.middleBytes.length) =
      E ++ (hs.bytes alh ++ post) :=
    List.drop_left' hHlen
  have hAlhAt : (H ++ (E ++ (hs.bytes alh ++ post))).drop (90 + hdr.middleBytes.length + E.length) =
      hs.bytes alh ++ post := by
    rw [← List.append_assoc]
    exact List.drop_left' (by rw [List.length_append]; omega)
  -- what each part of the reader gives back
  have hHeader : TxDataReader.readHeader hs readDigest (H ++ (E ++ (hs.bytes alh ++ post)))
      maxEntries 0 = .ok ({ hdr with Eh := hs.zero }, 90 + hdr.middleBytes.length) := by
    rw [← Nat.zero_add 90]
    exact TxDataReader.readHeader_record hs hw hread he hmd hid (by omega) (Nat.zero_le _) hHeaderAt
  -- the digest function depends on the version alone
  have hg' : ({ hdr with Eh := hs.zero } : TxHeader D).TxEntryDigest hs = .ok g := hg
  have hN : hdr.NEntries.toNat = entries.length := by
    rw [hn]
    rfl
  -- the keys fit the `uint16` they are written in, as `MaxKeyLen` does
  have hfits : ∀ e ∈ entries, e.key.length ≤ maxKeyLen ∧ e.key.length < 2 ^ 16 ∧
      e.vLen < 2 ^ 32 ∧ e.vOff < 2 ^ 64 ∧ ∀ m ∈ e.md, m.Fits := by
    intro e he'
    obtain ⟨hk, hv, hoff, hm⟩ := hent e he'
    exact ⟨hk, by unfold MaxKeyLen at hkl; omega, hv, hoff, hm⟩
  have hEntries := TxDataReader.readEntries_record hs hw hread hg entries ds
    (90 + hdr.middleBytes.length) (hs.bytes alh ++ post) hfits hds (by omega) hEntriesAt
  have halh' : ({ { hdr with Eh := hs.zero } with Eh := t.Root } : TxHeader D).alh hs = some alh := by
    rw [hEhRoot]
    exact halh
  have hValidate :=
    TxDataReader.buildAndValidateHtree_record hs hw hread hbuild halh' (by omega) hAlhAt
  rw [← hE] at hEntries
  rw [hEhRoot] at hValidate
  simp [Tx.readFrom, StateT.run', hHeader, hg', hN, hEntries, hValidate, bind, StateT.bind,
    StateT.lift, Except.bind, pure, StateT.pure, Except.pure, Functor.map, StateT.map, Except.map]

/-- Version 0 has no field for the transaction's metadata: the record and the `Alh` of a version-0
header are those of the same header without metadata, so what `readFrom` reads back cannot
depend on it. -/
theorem txRecord_v0_metadata (hdr : TxHeader D) (md : List UInt8) (entries : List (TxEntry D))
    (alh : D) :
    txRecord hs { hdr with Version := 0, Metadata := md } entries alh =
        txRecord hs { hdr with Version := 0, Metadata := [] } entries alh ∧
      ({ hdr with Version := 0, Metadata := md } : TxHeader D).alh hs =
        ({ hdr with Version := 0, Metadata := [] } : TxHeader D).alh hs := by
  constructor
  · simp [txRecord]
  · simp [TxHeader.alh, TxHeader.innerHash]

/-- **Version 0 drops the transaction's metadata.** `TxHeader.Bytes` refuses a version-0 header
with metadata (`ErrMetadataUnsupported`), but `performPrecommit` takes `tx.header.Metadata` for
every version and writes the header all the same: its record and its `Alh` are those of the header
without metadata, and `Tx.readFrom` gives back that header, not the one committed. -/
theorem readFrom_v0_record_drops_metadata [DecidableEq D] (hw : hs.FixedWidth 32)
    {readDigest : List UInt8 → D} (hread : ∀ d, readDigest (hs.bytes d) = d)
    {maxEntries maxKeyLen : Nat} (hkl : maxKeyLen ≤ MaxKeyLen) (dss₀ dss : List (List D))
    (hdr : TxHeader D) (entries : List (TxEntry D)) (he : hdr.Encodable) (hv : hdr.Version = 0)
    (hid : 1 ≤ hdr.ID) (hn : hdr.NEntries = entries.length) (hmax : entries.length ≤ maxEntries)
    (hent : ∀ e ∈ entries, e.key.length ≤ maxKeyLen ∧ e.vLen < 2 ^ 32 ∧ e.vOff < 2 ^ 64 ∧
      ∀ m ∈ e.md, m.Fits)
    {t₀ : HTree D} (hEh : Tx.BuildHashTree hs (buildAll hs maxEntries dss₀) hdr entries =
      .ok (t₀, hdr.Eh)) (md : List UInt8) (hmd : md ≠ []) :
    TxHeader.Bytes hs { hdr with Metadata := md } = .error .metadataUnsupported ∧
    ∃ alh rec, ({ hdr with Metadata := md } : TxHeader D).alh hs = some alh ∧
      txRecord hs { hdr with Metadata := md } entries alh = some rec ∧
      ∀ post, ∃ t, Tx.readFrom hs readDigest (rec ++ post) maxEntries maxKeyLen
          (buildAll hs maxEntries dss) false =
        .ok (hdr, entries.map (fun e =>
          { e with md := if mdBytes e.md = [] then none else e.md, value := [] }), t) ∧
        hdr ≠ { hdr with Metadata := md } := by
  have hmd₀ : hdr.Metadata = [] := by
    rcases he.version with ⟨-, h, -⟩ | ⟨h, -⟩
    · exact h
    · rw [hv] at h
      cases h
  -- the committed header, and `hdr` itself, in the form `txRecord_v0_metadata` speaks of
  have hcommitted : ({ hdr with Metadata := md } : TxHeader D) =
      { hdr with Version := 0, Metadata := md } := by
    rw [← hv]
  have hself : hdr = { hdr with Version := 0, Metadata := [] } := by
    rw [← hv, ← hmd₀]
  obtain ⟨alh, rec, halh, hrec, hreadback⟩ := readFrom_txRecord hs hw hread hkl dss₀ dss hdr
    entries he ⟨NewTxMetadata, by decide, by rw [hmd₀]; rfl⟩ hid hn hmax hent hEh
  obtain ⟨hsameRec, hsameAlh⟩ := txRecord_v0_metadata hs hdr md entries alh
  refine ⟨?_, alh, rec, ?_, ?_, fun post => ?_⟩
  · simp [TxHeader.Bytes, hv, List.length_pos_iff.mpr hmd]
  · rw [hcommitted, hsameAlh, ← hself]
    exact halh
  · rw [hcommitted, hsameRec, ← hself]
    exact hrec
  · obtain ⟨t, ht, -⟩ := hreadback post
    refine ⟨t, ht, fun h => hmd ?_⟩
    have hmeta := congrArg TxHeader.Metadata h
    rw [hmd₀] at hmeta
    exact hmeta.symm

/-- `CopySQLCatalog` commits a version-0 transaction whose metadata records the log truncated up
to transaction `1` (the truncation attribute, code `0`, and the id in eight bytes): `Bytes()`
refuses its header, the log takes it, and it reads back without the truncation. -/
theorem readFrom_v0_record_drops_truncation :
    TxHeader.Bytes (checksum.padded 31)
        ⟨2, 0, 0, 0, 0, 0, (0 :: be 8 1), 0, 0⟩ = .error .metadataUnsupported ∧
    ∃ alh rec, (⟨2, 0, 0, 0, 0, 0, (0 :: be 8 1), 0, 0⟩ : TxHeader UInt8).alh
          (checksum.padded 31) = some alh ∧
      txRecord (checksum.padded 31) ⟨2, 0, 0, 0, 0, 0, (0 :: be 8 1), 0, 0⟩ []
        alh = some rec ∧
      ∀ post, ∃ t, Tx.readFrom (checksum.padded 31) (fun b => b.getLastD 0) (rec ++ post) 1 1
          (buildAll (checksum.padded 31) 1 []) false = .ok (⟨2, 0, 0, 0, 0, 0, [], 0, 0⟩, [], t) ∧
        (⟨2, 0, 0, 0, 0, 0, [], 0, 0⟩ : TxHeader UInt8) ≠
          ⟨2, 0, 0, 0, 0, 0, (0 :: be 8 1), 0, 0⟩ := by
  -- `performPrecommit`'s `Eh` of no entries: the empty tree's root, `0` for this hasher
  obtain ⟨t₀, hEh⟩ := @BuildHashTree_buildAll UInt8 (checksum.padded 31) 1 []
    ⟨2, 0, 0, 0, 0, 0, [], 0, 0⟩ [] (TxEntryDigest_v1_1 (checksum.padded 31)) [] rfl rfl (by decide)
  rw [mth_nil, show (htreeScheme (checksum.padded 31)).empty = 0 by decide] at hEh
  exact @readFrom_v0_record_drops_metadata UInt8 (checksum.padded 31) _
    (checksum_fixedWidth.padded 31) (fun b => b.getLastD 0)
    (fun d => by simp [Hasher.padded, checksum]) 1 1 (by decide) [] []
    ⟨2, 0, 0, 0, 0, 0, [], 0, 0⟩ [] (by decide) rfl (by decide) rfl (by decide) (by simp) t₀ hEh
    _ (by decide)

end Immudb.Store
