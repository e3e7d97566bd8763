import Immudb.Lib.Bytes
import Immudb.Lib.Hashing

/-!
# `Immudb/Store/Tx.lean` — transaction headers and their accumulative linear hash

`embedded/store/tx.go`. Every committed transaction is summed up by its header, and every header
by one digest, its `Alh`: the hash of its id, the `Alh` of the transaction before it, and an
inner hash of everything else. The `Alh` of the last transaction therefore commits to the whole
history, and it is what a client keeps as its trusted state.

The header's metadata enters the inner hash only as `TxMetadata.Bytes()`, so that is how it is
modelled: the byte string, empty for a nil pointer. `innerHash` knows versions 0 and 1 and
panics on any other; the panic is `none`, and `Alh` inherits it.
-/

set_option autoImplicit false

namespace Immudb.Store

open Hashing Bytes

/-- `TxHeader`, over a digest type `D`. -/
structure TxHeader (D : Type) where
  ID : Nat
  Ts : Int
  BlTxID : Nat
  BlRoot : D
  PrevAlh : D
  Version : Int
  Metadata : List UInt8
  NEntries : Int
  Eh : D
  deriving DecidableEq, Repr

namespace TxHeader

variable {D : Type} (hs : Hasher D)

/-- `innerHash`: `hash(ts + version + (mdLen + md)? + nentries + eH + blTxID + blRoot)`. The
two versions differ in the metadata field and in the width of `nentries`. -/
def innerHash (hdr : TxHeader D) : Option D :=
  let head := beInt 8 hdr.Ts ++ beInt 2 hdr.Version
  let tail := hs.bytes hdr.Eh ++ be 8 hdr.BlTxID ++ hs.bytes hdr.BlRoot
  if hdr.Version = 0 then some (hs.sum (head ++ beInt 2 hdr.NEntries ++ tail))
  else if hdr.Version = 1 then
    some (hs.sum (head ++ be 2 hdr.Metadata.length ++ hdr.Metadata ++ beInt 4 hdr.NEntries ++ tail))
  -- "missing tx hash calculation method for version %d"
  else none

/-- `Alh`: `hash(txID + prevAlh + innerHash)`. -/
def alh (hdr : TxHeader D) : Option D :=
  (hdr.innerHash hs).map fun ih => hs.sum (be 8 hdr.ID ++ hs.bytes hdr.PrevAlh ++ hs.bytes ih)

/-- The versions `innerHash` knows. -/
def Supported (hdr : TxHeader D) : Prop := hdr.Version = 0 ∨ hdr.Version = 1

instance (hdr : TxHeader D) : Decidable hdr.Supported :=
  inferInstanceAs (Decidable (hdr.Version = 0 ∨ hdr.Version = 1))

theorem isSome_innerHash (hdr : TxHeader D) : (hdr.innerHash hs).isSome ↔ hdr.Supported := by
  unfold innerHash Supported
  split_ifs <;> simp_all

theorem isSome_alh (hdr : TxHeader D) : (hdr.alh hs).isSome ↔ hdr.Supported := by
  rw [alh, Option.isSome_map, isSome_innerHash]

/-- The `Alh` of a header whose version is known. -/
theorem alh_eq {hdr : TxHeader D} {ih : D} (h : hdr.innerHash hs = some ih) :
    hdr.alh hs = some (hs.sum (be 8 hdr.ID ++ hs.bytes hdr.PrevAlh ++ hs.bytes ih)) := by
  rw [alh, h, Option.map_some]

/-! ## What the `Alh` binds

`innerHash` writes each field at a fixed width, and the one field of variable size, the metadata,
behind its length; the digests are self-delimiting under an ideal hash. On headers whose fields
fit those widths the bytes can therefore be read back field by field (`innerBytes_inj`), and an
`Alh`, which hashes the id and the previous `Alh` at fixed widths in front of the inner hash,
determines the whole header. Version 0 does not write the metadata at all
(`innerBytes_v0_metadata`), so it binds a header only when it carries none, which `Bytes()`
enforces with `ErrMetadataUnsupported`. -/

/-- `maxTxMetadataLen`: a truncation attribute (`attrCodeSize + truncatedUptoTxAttrSize`) and an
extra attribute (`attrCodeSize + sszSize + maxExtraLen`). -/
def maxTxMetadataLen : Nat := (1 + 8) + (1 + 2 + 256)

/-- The bytes `innerHash` hashes. -/
def innerBytes (hdr : TxHeader D) : Option (List UInt8) :=
  let head := beInt 8 hdr.Ts ++ beInt 2 hdr.Version
  let tail := hs.bytes hdr.Eh ++ be 8 hdr.BlTxID ++ hs.bytes hdr.BlRoot
  if hdr.Version = 0 then some (head ++ beInt 2 hdr.NEntries ++ tail)
  else if hdr.Version = 1 then
    some (head ++ be 2 hdr.Metadata.length ++ hdr.Metadata ++ beInt 4 hdr.NEntries ++ tail)
  else none

theorem innerHash_eq (hdr : TxHeader D) : hdr.innerHash hs = (hdr.innerBytes hs).map hs.sum := by
  unfold innerHash innerBytes
  split_ifs <;> rfl

/-- Headers whose fields fit what `innerHash` and `Alh` write: `ID`, `Ts` and `BlTxID` in their Go
types, `NEntries` within the width its version writes it in, and metadata of at most
`maxTxMetadataLen` bytes, none in version 0. -/
structure Encodable (hdr : TxHeader D) : Prop where
  id_lt : hdr.ID < 2 ^ 64
  ts_ge : -2 ^ 63 ≤ hdr.Ts
  ts_lt : hdr.Ts < 2 ^ 63
  blTxID_lt : hdr.BlTxID < 2 ^ 64
  nentries_ge : 0 ≤ hdr.NEntries
  version : hdr.Version = 0 ∧ hdr.Metadata = [] ∧ hdr.NEntries < 2 ^ 16 ∨
    hdr.Version = 1 ∧ hdr.Metadata.length ≤ maxTxMetadataLen ∧ hdr.NEntries < 2 ^ 32

instance (hdr : TxHeader D) : Decidable hdr.Encodable :=
  decidable_of_iff (hdr.ID < 2 ^ 64 ∧ -2 ^ 63 ≤ hdr.Ts ∧ hdr.Ts < 2 ^ 63 ∧ hdr.BlTxID < 2 ^ 64 ∧
      0 ≤ hdr.NEntries ∧
      (hdr.Version = 0 ∧ hdr.Metadata = [] ∧ hdr.NEntries < 2 ^ 16 ∨
        hdr.Version = 1 ∧ hdr.Metadata.length ≤ maxTxMetadataLen ∧ hdr.NEntries < 2 ^ 32))
    ⟨fun ⟨h1, h2, h3, h4, h5, h6⟩ => ⟨h1, h2, h3, h4, h5, h6⟩,
      fun ⟨h1, h2, h3, h4, h5, h6⟩ => ⟨h1, h2, h3, h4, h5, h6⟩⟩

theorem Encodable.supported {hdr : TxHeader D} (e : hdr.Encodable) : hdr.Supported := by
  rcases e.version with ⟨h, -⟩ | ⟨h, -⟩
  · exact .inl h
  · exact .inr h

/-- What `innerHash` writes between the version and `Eh`. -/
def middleBytes (hdr : TxHeader D) : List UInt8 :=
  if hdr.Version = 0 then beInt 2 hdr.NEntries
  else be 2 hdr.Metadata.length ++ hdr.Metadata ++ beInt 4 hdr.NEntries

theorem innerBytes_of_supported {hdr : TxHeader D} (h : hdr.Supported) :
    hdr.innerBytes hs = some (beInt 8 hdr.Ts ++ (beInt 2 hdr.Version ++ (hdr.middleBytes ++
      (hs.bytes hdr.Eh ++ (be 8 hdr.BlTxID ++ hs.bytes hdr.BlRoot))))) := by
  rcases h with h | h <;> simp [innerBytes, middleBytes, h]

/-- The fields after the metadata are read back: two digests around a `uint64`. -/
theorem tail_inj {hs : Hasher D} (hi : hs.Ideal) {e1 e2 r1 r2 : D} {b1 b2 : Nat}
    (hb1 : b1 < 2 ^ 64) (hb2 : b2 < 2 ^ 64)
    (h : hs.bytes e1 ++ (be 8 b1 ++ hs.bytes r1) = hs.bytes e2 ++ (be 8 b2 ++ hs.bytes r2)) :
    e1 = e2 ∧ b1 = b2 ∧ r1 = r2 := by
  obtain ⟨he, hrest⟩ := hi.bytes_prefix _ _ _ _ h
  obtain ⟨hb, hr⟩ := List.append_inj hrest (by simp)
  exact ⟨he, be_inj hb1 hb2 hb, hi.bytes_injective hr⟩

/-- The version's own fields are read back: `nentries` at its width, or the metadata behind its
length and then `nentries`. -/
theorem middleBytes_inj {h1 h2 : TxHeader D} (e1 : h1.Encodable) (e2 : h2.Encodable)
    (hv : h1.Version = h2.Version) {t1 t2 : List UInt8}
    (h : h1.middleBytes ++ t1 = h2.middleBytes ++ t2) :
    h1.Metadata = h2.Metadata ∧ h1.NEntries = h2.NEntries ∧ t1 = t2 := by
  have hn1 := e1.nentries_ge
  have hn2 := e2.nentries_ge
  rcases e1.version with ⟨hv1, hm1, hl1⟩ | ⟨hv1, hm1, hl1⟩ <;>
    rcases e2.version with ⟨hv2, hm2, hl2⟩ | ⟨hv2, hm2, hl2⟩
  · -- version 0: two bytes of `nentries`
    simp only [middleBytes, hv1, hv2, if_true] at h
    obtain ⟨hN, ht⟩ := List.append_inj h (by simp)
    have hmod := beInt_inj hN
    exact ⟨hm1.trans hm2.symm, by omega, ht⟩
  · omega
  · omega
  · -- version 1: the metadata's length, the metadata, then four bytes of `nentries`
    simp only [middleBytes, hv1, hv2, if_neg (show (1 : Int) ≠ 0 by decide), List.append_assoc] at h
    obtain ⟨hlen, h⟩ := List.append_inj h (by simp)
    have hlen' := be_inj (by unfold maxTxMetadataLen at hm1; omega)
      (by unfold maxTxMetadataLen at hm2; omega) hlen
    obtain ⟨hmd, h⟩ := List.append_inj h hlen'
    obtain ⟨hN, ht⟩ := List.append_inj h (by simp)
    have hmod := beInt_inj hN
    exact ⟨hmd, by omega, ht⟩

/-- **The inner bytes bind the header's fields.** -/
theorem innerBytes_inj {hs : Hasher D} (hi : hs.Ideal) {h1 h2 : TxHeader D} (e1 : h1.Encodable)
    (e2 : h2.Encodable) (h : h1.innerBytes hs = h2.innerBytes hs) :
    h1.Ts = h2.Ts ∧ h1.Version = h2.Version ∧ h1.Metadata = h2.Metadata ∧
      h1.NEntries = h2.NEntries ∧ h1.Eh = h2.Eh ∧ h1.BlTxID = h2.BlTxID ∧ h1.BlRoot = h2.BlRoot := by
  rw [innerBytes_of_supported hs e1.supported, innerBytes_of_supported hs e2.supported,
    Option.some.injEq] at h
  -- `ts` and `version` at fixed widths
  obtain ⟨hts, h⟩ := List.append_inj h (by simp)
  obtain ⟨hver, h⟩ := List.append_inj h (by simp)
  have hts' := beInt_inj hts
  have hver' := beInt_inj hver
  have hT : h1.Ts = h2.Ts := by
    have := e1.ts_ge; have := e1.ts_lt; have := e2.ts_ge; have := e2.ts_lt
    omega
  have hV : h1.Version = h2.Version := by
    rcases e1.version with ⟨hv1, -⟩ | ⟨hv1, -⟩ <;> rcases e2.version with ⟨hv2, -⟩ | ⟨hv2, -⟩ <;>
      omega
  obtain ⟨hmd, hN, h⟩ := middleBytes_inj e1 e2 hV h
  obtain ⟨hEh, hbl, hroot⟩ := tail_inj hi e1.blTxID_lt e2.blTxID_lt h
  exact ⟨hT, hV, hmd, hN, hEh, hbl, hroot⟩

/-- **The `Alh` binds every header field.** Under an ideal hash, on headers that fit the widths
`innerHash` writes, equal inner bytes mean equal `Ts`, `Version`, `Metadata`, `NEntries`, `Eh`,
`BlTxID` and `BlRoot`, and equal `Alh`s mean equal headers. -/
theorem alh_binds_header {hs : Hasher D} (hi : hs.Ideal) {h1 h2 : TxHeader D} (e1 : h1.Encodable)
    (e2 : h2.Encodable) :
    (h1.innerBytes hs = h2.innerBytes hs →
      h1.Ts = h2.Ts ∧ h1.Version = h2.Version ∧ h1.Metadata = h2.Metadata ∧
        h1.NEntries = h2.NEntries ∧ h1.Eh = h2.Eh ∧ h1.BlTxID = h2.BlTxID ∧
        h1.BlRoot = h2.BlRoot) ∧
    (h1.alh hs = h2.alh hs → h1 = h2) := by
  refine ⟨innerBytes_inj hi e1 e2, fun h => ?_⟩
  have hib1 := innerBytes_of_supported hs e1.supported
  have hib2 := innerBytes_of_supported hs e2.supported
  rw [alh_eq hs (by rw [innerHash_eq, hib1]; rfl), alh_eq hs (by rw [innerHash_eq, hib2]; rfl),
    Option.some.injEq] at h
  -- the id and the previous `Alh` at fixed widths, then the inner hash
  obtain ⟨hid, hprev, hinner⟩ := hi.of_append_bytes (by simp) (hi.sum_injective h)
  have hbytes := hi.sum_injective (hi.bytes_injective hinner)
  obtain ⟨hT, hV, hmd, hN, hEh, hbl, hroot⟩ :=
    innerBytes_inj hi e1 e2 (by rw [hib1, hib2, hbytes])
  have hID := be_inj e1.id_lt e2.id_lt hid
  cases h1
  cases h2
  simp only [TxHeader.mk.injEq]
  exact ⟨hID, hT, hbl, hroot, hprev, hV, hmd, hN, hEh⟩

/-- A version-0 and a version-1 header under the escaping hasher. -/
theorem alh_binds_header_v0_v1 :
    escape.Ideal ∧ (⟨1, 5, 0, [], [], 0, [], 2, [7]⟩ : TxHeader (List UInt8)).Encodable ∧
      (⟨2, 5, 0, [], [], 1, [0, 1], 2, [7]⟩ : TxHeader (List UInt8)).Encodable ∧
      (((⟨1, 5, 0, [], [], 0, [], 2, [7]⟩ : TxHeader (List UInt8)).innerBytes escape =
          (⟨2, 5, 0, [], [], 1, [0, 1], 2, [7]⟩ : TxHeader (List UInt8)).innerBytes escape →
          (5 : Int) = 5 ∧ (0 : Int) = 1 ∧ ([] : List UInt8) = [0, 1] ∧ (2 : Int) = 2 ∧
            ([7] : List UInt8) = [7] ∧ 0 = 0 ∧ ([] : List UInt8) = []) ∧
        ((⟨1, 5, 0, [], [], 0, [], 2, [7]⟩ : TxHeader (List UInt8)).alh escape =
            (⟨2, 5, 0, [], [], 1, [0, 1], 2, [7]⟩ : TxHeader (List UInt8)).alh escape →
          (⟨1, 5, 0, [], [], 0, [], 2, [7]⟩ : TxHeader (List UInt8)) =
            ⟨2, 5, 0, [], [], 1, [0, 1], 2, [7]⟩)) :=
  ⟨escape_ideal, by decide, by decide, alh_binds_header escape_ideal (by decide) (by decide)⟩

end TxHeader

end Immudb.Store
