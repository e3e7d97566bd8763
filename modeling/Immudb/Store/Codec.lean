import Immudb.Store.Entry

/-!
# `Immudb/Store/Codec.lean` — headers and metadata on the wire

`TxHeader.Bytes` and `TxHeader.ReadFrom` (`tx.go`), `TxMetadata.Bytes` and `ReadFrom`
(`tx_metadata.go`), `KVMetadata.unsafeReadFrom` (`kv_metadata.go`): the byte layouts an exported
transaction carries. A reader indexes its buffer as Go does, by a position `i`, and each access Go
makes without a guard goes through the `Option` readers of `Immudb/Lib/Bytes.lean`: where Go
panics (a slice past the end, fewer bytes than `UintN` reads) the model returns `indexOutOfRange`.

A digest read off the wire is the `sha256.Size` bytes `copy` puts into an array, zero-filled when
fewer remain: `readDigest` of them. The two metadata readers are one loop over their attributes
(`readAttrs`), each with its own table of codes.

`TxMetadata.ReadFrom` reads an extra attribute of any length the bytes hold, and
`TxMetadata.Bytes` panics on one longer than `maxExtraLen`, as `serialize` does; a header keeps
its metadata as the bytes `Bytes()` gives.

Each reader gives back what its writer wrote, for values that fit the writer's Go types: the
metadata of both kinds, and a header (`TxHeader.ReadFrom_Bytes`) whose metadata is what
`Bytes()` writes for a `TxMetadata` and which passes the checks `ReadFrom` makes.
-/

set_option autoImplicit false

namespace Immudb.Store

open Hashing Bytes

/-- The errors of the readers and writers, with the text Go wraps around a sentinel, and the
runtime panic of an index out of range. -/
inductive WireError where
  | illegalArguments (detail : String)
  | corruptedData (detail : String)
  | newerVersionOrCorruptedData
  | illegalTruncationArgument
  | metadataUnsupported
  | unsupportedTxHeaderVersion (version : Int)
  | indexOutOfRange
  deriving DecidableEq, Repr

/-- A Go panic where the model has `none`. -/
def orPanic {α : Type} : Option α → Except WireError α
  | some a => .ok a
  | none => .error .indexOutOfRange

/-- `binary.BigEndian.UintN(b[i:])`, of `w` bytes. -/
def uintAt (w : Nat) (b : List UInt8) (i : Nat) : Except WireError Nat :=
  orPanic ((sliceFrom? b i).bind (uintBE? w))

/-- `copy(d[:], b[i:])` into a digest. -/
def digestAt {D : Type} (readDigest : List UInt8 → D) (b : List UInt8) (i : Nat) :
    Except WireError D :=
  (fun s => readDigest (copyN 32 s)) <$> orPanic (sliceFrom? b i)

/-- `int64(x)` of a `uint64`: two's complement. -/
def int64Of (x : Nat) : Int := if x < 2 ^ 63 then x else x - 2 ^ 64

/-! ## 1. Metadata -/

/-- `TxMetadata`: the attributes that are set. -/
structure TxMetadata where
  truncatedUptoTx : Option Nat
  extra : Option (List UInt8)
  deriving DecidableEq, Repr

/-- `NewTxMetadata()`. -/
def NewTxMetadata : TxMetadata := ⟨none, none⟩

/-- `maxExtraLen`: the size of the buffer `extraAttribute.serialize` writes the extra data into. -/
def maxExtraLen : Nat := 256

/-- `TxMetadata.Bytes()`: each attribute that is set, by its code in order, the truncation an
8-byte id and `extra` behind its two-byte length. `serialize` slices its `sszSize + maxExtraLen`
bytes to the extra's length, which panics past `maxExtraLen`. -/
def TxMetadata.Bytes (md : TxMetadata) : Except WireError (List UInt8) :=
  let truncated := match md.truncatedUptoTx with
    | some txID => 0 :: be 8 txID
    | none => []
  match md.extra with
  | some extra =>
    if extra.length > maxExtraLen then .error .indexOutOfRange
    else .ok (truncated ++ 1 :: (be 2 extra.length ++ extra))
  | none => .ok truncated

/-- The loop of `TxMetadata.ReadFrom` and `KVMetadata.unsafeReadFrom`: from position `i`, a code
byte and then what `attr.deserialize` reads for it, until the end of `b`. `attr` gives the number
of bytes it read and how it sets the attribute. -/
def readAttrs {M : Type} (attr : UInt8 → List UInt8 → Except WireError (Nat × (M → M)))
    (b : List UInt8) (i : Nat) (md : M) : Except WireError M :=
  if _h : b.length = i then .ok md
  else if _hi : i ≤ b.length then
    match b.drop i with
    -- `len(b[i:]) < attrCodeSize`
    | [] => .error (.corruptedData "")
    | code :: rest => do
      let (n, set) ← attr code rest
      readAttrs attr b (i + 1 + n) (set md)
  -- `b[i:]` past the end, after an attribute that claimed more bytes than there were
  else .error .indexOutOfRange
termination_by b.length - i
decreasing_by omega

/-- `getAttributeFrom(code)` and the attribute's `deserialize`. -/
def txAttr (code : UInt8) (b : List UInt8) :
    Except WireError (Nat × (TxMetadata → TxMetadata)) :=
  if code = 0 then
    if b.length < 8 then .error (.corruptedData "error reading tx metadata attributes")
    else do
      let txID ← orPanic (uintBE? 8 b)
      pure (8, fun md => { md with truncatedUptoTx := some txID })
  else if code = 1 then
    if b.length < 2 then .error (.corruptedData "error reading tx metadata attributes")
    else do
      -- `make([]byte, Uint16(b))` and `copy` of what follows: the length is not checked
      let n ← orPanic (uintBE? 2 b)
      pure (2 + n, fun md => { md with extra := some (copyN n (b.drop 2)) })
  else .error (.corruptedData "error reading tx metadata attributes")

/-- `md.ReadFrom(b)` on a new metadata. -/
def TxMetadata.ReadFrom (b : List UInt8) : Except WireError TxMetadata :=
  if b.length > TxHeader.maxTxMetadataLen then .error (.corruptedData "")
  else readAttrs txAttr b 0 NewTxMetadata

/-- `newAttribute(code)` and the attribute's `deserialize`. -/
def kvAttr (code : UInt8) (b : List UInt8) :
    Except WireError (Nat × (KVMetadata → KVMetadata)) :=
  if code = 0 then .ok (0, fun md => { md with deleted := true })
  else if code = 1 then
    if b.length < 8 then .error (.corruptedData "error reading metadata attributes")
    else do
      let t ← orPanic (uintBE? 8 b)
      pure (8, fun md => { md with expiresAt := some (int64Of t) })
  else if code = 2 then .ok (0, fun md => { md with nonIndexable := true })
  else .error (.corruptedData "error reading metadata attributes")

/-- `md.unsafeReadFrom(b)` on a new read-only metadata. -/
def KVMetadata.unsafeReadFrom (b : List UInt8) : Except WireError KVMetadata :=
  if b.length > maxKVMetadataLen then .error (.corruptedData "")
  else readAttrs kvAttr b 0 NewKVMetadata

/-! ## 2. Headers -/

namespace TxHeader

variable {D : Type}

/-- `hdr.Bytes()`: `ID + PrevAlh + Ts + Version + (MDLen + MD)? + NEntries + Eh + BlTxID + BlRoot`,
with no metadata allowed in version 0. -/
def Bytes (hs : Hasher D) (hdr : TxHeader D) : Except WireError (List UInt8) :=
  let head := be 8 hdr.ID ++ hs.bytes hdr.PrevAlh ++ beInt 8 hdr.Ts ++ beInt 2 hdr.Version
  let tail := hs.bytes hdr.Eh ++ be 8 hdr.BlTxID ++ hs.bytes hdr.BlRoot
  if hdr.Version = 0 then
    if 0 < hdr.Metadata.length then .error .metadataUnsupported
    else .ok (head ++ beInt 2 hdr.NEntries ++ tail)
  else if hdr.Version = 1 then
    .ok (head ++ be 2 hdr.Metadata.length ++ hdr.Metadata ++ beInt 4 hdr.NEntries ++ tail)
  else .error (.unsupportedTxHeaderVersion hdr.Version)

/-- The version-dependent part of `ReadFrom`, from position `50`: the metadata, `NEntries`, and
the position after them. -/
def readVersioned (b : List UInt8) (Version : Nat) :
    Except WireError (List UInt8 × Nat × Nat) :=
  if Version = 0 then do
    let NEntries ← uintAt 2 b 50
    pure ([], NEntries, 52)
  else if Version = 1 then do
    -- version includes metadata record and a greater max number of entries
    let mdLen ← uintAt 2 b 50
    -- nentries follows metadata
    if b.length < 52 + mdLen + 4 ∨ mdLen > maxTxMetadataLen then throw (.corruptedData "")
    if 0 < mdLen then do
      let md ← TxMetadata.ReadFrom ((b.drop 52).take mdLen)
      let NEntries ← uintAt 4 b (52 + mdLen)
      -- the header keeps the metadata as the bytes `md.Bytes()` gives
      let mdBytes ← md.Bytes
      pure (mdBytes, NEntries, 52 + mdLen + 4)
    else do
      let NEntries ← uintAt 4 b 52
      pure ([], NEntries, 56)
  else throw .newerVersionOrCorruptedData

/-- `hdr.ReadFrom(b)` into a new header. -/
def ReadFrom (readDigest : List UInt8 → D) (b : List UInt8) : Except WireError (TxHeader D) := do
  -- minimum length with version record
  if b.length < 8 + 32 + 8 + 2 * 2 + 32 + 8 + 32 then throw (.illegalArguments "")
  let ID ← uintAt 8 b 0
  if ID < 1 then throw (.illegalArguments "invalid tx ID")
  let PrevAlh ← digestAt readDigest b 8
  let Ts ← uintAt 8 b 40
  let Version ← uintAt 2 b 48
  let (Metadata, NEntries, i) ← readVersioned b Version
  if NEntries < 1 then throw (.illegalArguments "invalid number of entries")
  -- following records are currently common in versions 0 and 1
  let Eh ← digestAt readDigest b i
  let BlTxID ← uintAt 8 b (i + 32)
  if BlTxID ≥ ID then throw (.illegalArguments "invalid BlTxID")
  let BlRoot ← digestAt readDigest b (i + 40)
  pure ⟨ID, int64Of Ts, BlTxID, BlRoot, PrevAlh, Version, Metadata, NEntries, Eh⟩

end TxHeader

/-! ## 3. Reading back what was written

Each reader is stated at a position `i` of its buffer that holds what the matching writer wrote,
followed by anything (`b.drop i = written ++ post`), which is how the readers meet inside the
longer buffers of a header or an exported transaction. A reader gives back what was written for
values that fit the Go types the writer casts them to. -/

/-- Transaction metadata whose truncation id fits the `uint64` it is written as. -/
def TxMetadata.Fits (md : TxMetadata) : Prop := ∀ t ∈ md.truncatedUptoTx, t < 2 ^ 64

instance (md : TxMetadata) : Decidable md.Fits :=
  inferInstanceAs (Decidable (∀ t ∈ md.truncatedUptoTx, t < 2 ^ 64))

/-- Entry metadata whose expiry fits the `int64` Unix time it is written as. -/
def KVMetadata.Fits (md : KVMetadata) : Prop := ∀ t ∈ md.expiresAt, -2 ^ 63 ≤ t ∧ t < 2 ^ 63

instance (md : KVMetadata) : Decidable md.Fits :=
  inferInstanceAs (Decidable (∀ t ∈ md.expiresAt, -2 ^ 63 ≤ t ∧ t < 2 ^ 63))

section ReadBack

variable {b post : List UInt8} {i : Nat}

/-- A read at a position where the buffer holds `bs` reads `bs`. -/
theorem uintAt_of_drop {w : Nat} {bs : List UInt8} (hi : i ≤ b.length) (h : b.drop i = bs) :
    uintAt w b i = orPanic (uintBE? w bs) := by
  simp [uintAt, sliceFrom?, hi, h]

theorem uintAt_be {w n : Nat} (hi : i ≤ b.length) (h : b.drop i = be w n ++ post) :
    uintAt w b i = .ok (n % 2 ^ (8 * w)) := by
  rw [uintAt_of_drop hi h, uintBE?_append]
  rfl

theorem toNat_emod_lt (w : Nat) (x : Int) : (x % 2 ^ (8 * w)).toNat < 2 ^ (8 * w) := by
  have hpos : (0 : Int) < 2 ^ (8 * w) := Int.pow_pos (by decide)
  have hge := Int.emod_nonneg x (Int.ne_of_gt hpos)
  rw [← Int.ofNat_lt, Int.toNat_of_nonneg hge]
  exact_mod_cast Int.emod_lt_of_pos x hpos

theorem uintAt_beInt {w : Nat} {x : Int} (hi : i ≤ b.length) (h : b.drop i = beInt w x ++ post) :
    uintAt w b i = .ok (x % 2 ^ (8 * w)).toNat := by
  rw [uintAt_of_drop hi h, beInt, uintBE?_append, Nat.mod_eq_of_lt (toNat_emod_lt w x)]
  rfl

/-- A digest reads back where the hash writes `sha256.Size` bytes that `readDigest` inverts. -/
theorem digestAt_bytes {D : Type} {hs : Hasher D} (hw : hs.FixedWidth 32)
    {readDigest : List UInt8 → D} (hread : ∀ d, readDigest (hs.bytes d) = d) {d : D}
    (hi : i ≤ b.length) (h : b.drop i = hs.bytes d ++ post) : digestAt readDigest b i = .ok d := by
  rw [digestAt, sliceFrom?_of_drop hi h]
  simp [orPanic, copyN_append _ (hw.length_bytes d), hread]

/-- `int64` of the `uint64` that two's complement writes for `x`. -/
theorem int64Of_emod {x : Int} (h₁ : -2 ^ 63 ≤ x) (h₂ : x < 2 ^ 63) :
    int64Of (x % 2 ^ 64).toNat = x := by
  unfold int64Of
  split <;> omega

section Attrs

variable {M : Type} {attr : UInt8 → List UInt8 → Except WireError (Nat × (M → M))} {md : M}

/-- The attribute loop reads one attribute where the buffer holds its code. -/
theorem readAttrs_cons {code : UInt8} {rest : List UInt8} {n : Nat} {set : M → M}
    (h : b.drop i = code :: rest) (ha : attr code rest = .ok (n, set)) :
    readAttrs attr b i md = readAttrs attr b (i + 1 + n) (set md) := by
  have hi : i < b.length := by
    have := congrArg List.length h
    simp at this
    omega
  rw [readAttrs, dif_neg (by omega), dif_pos (by omega), h]
  simp [ha, bind, Except.bind]

/-- The attribute loop stops at the end of its buffer. -/
theorem readAttrs_end : readAttrs attr b b.length md = .ok md := by
  rw [readAttrs, dif_pos rfl]

end Attrs

theorem txAttr_truncated {t : Nat} (ht : t < 2 ^ 64) (post : List UInt8) :
    txAttr 0 (be 8 t ++ post) = .ok (8, fun md => { md with truncatedUptoTx := some t }) := by
  have hlen : ¬ (be 8 t ++ post).length < 8 := by
    simp only [List.length_append, length_be]
    omega
  rw [txAttr, if_pos rfl, if_neg hlen, uintBE?_append, Nat.mod_eq_of_lt ht]
  rfl

theorem txAttr_extra {x : List UInt8} (hx : x.length < 2 ^ 16) (post : List UInt8) :
    txAttr 1 (be 2 x.length ++ (x ++ post)) =
      .ok (2 + x.length, fun md => { md with extra := some x }) := by
  have hlen : ¬ (be 2 x.length ++ (x ++ post)).length < 2 := by
    simp only [List.length_append, length_be]
    omega
  rw [txAttr, if_neg (by decide), if_pos rfl, if_neg hlen, uintBE?_append, Nat.mod_eq_of_lt hx]
  simp [orPanic, bind, Except.bind, pure, Except.pure, copyN_append]

theorem kvAttr_deleted (post : List UInt8) :
    kvAttr 0 post = .ok (0, fun md => { md with deleted := true }) := rfl

theorem kvAttr_expiresAt {t : Int} (h₁ : -2 ^ 63 ≤ t) (h₂ : t < 2 ^ 63) (post : List UInt8) :
    kvAttr 1 (beInt 8 t ++ post) = .ok (8, fun md => { md with expiresAt := some t }) := by
  have hlen : ¬ (beInt 8 t ++ post).length < 8 := by simp
  rw [kvAttr, if_neg (by decide), if_pos rfl, if_neg hlen, beInt, uintBE?_append,
    Nat.mod_eq_of_lt (toNat_emod_lt 8 t)]
  exact congrArg (fun v : Int => (.ok (8, fun md => { md with expiresAt := some v }) :
    Except WireError (Nat × (KVMetadata → KVMetadata)))) (int64Of_emod h₁ h₂)

theorem kvAttr_nonIndexable (post : List UInt8) :
    kvAttr 2 post = .ok (0, fun md => { md with nonIndexable := true }) := rfl

end ReadBack

/-- `Bytes()` of metadata with an extra attribute: what it writes without it, then the extra
behind its code and length, which it takes only up to `maxExtraLen` bytes. -/
theorem TxMetadata.Bytes_extra {t : Option Nat} {x bs : List UInt8}
    (h : TxMetadata.Bytes ⟨t, some x⟩ = .ok bs) :
    x.length ≤ maxExtraLen ∧ ∃ pre, TxMetadata.Bytes ⟨t, none⟩ = .ok pre ∧
      bs = pre ++ 1 :: (be 2 x.length ++ x) := by
  simp only [TxMetadata.Bytes] at h
  split_ifs at h with hx
  cases h
  exact ⟨by omega, _, rfl, rfl⟩

/-- **Transaction metadata reads back.** -/
theorem TxMetadata.ReadFrom_Bytes {md : TxMetadata} {bs : List UInt8} (hfit : md.Fits)
    (hb : md.Bytes = .ok bs) : TxMetadata.ReadFrom bs = .ok md := by
  obtain ⟨truncatedUptoTx, extra⟩ := md
  -- the truncation attribute comes first, then the extra one, each read into a new metadata
  cases extra with
  | none =>
    cases truncatedUptoTx with
    | none =>
      cases hb
      exact readAttrs_end
    | some t =>
      cases hb
      rw [TxMetadata.ReadFrom, if_neg (by simp [TxHeader.maxTxMetadataLen]),
        readAttrs_cons (by simp) (txAttr_truncated (hfit t rfl) [])]
      exact readAttrs_end
  | some x =>
    obtain ⟨hx, pre, hpre, rfl⟩ := TxMetadata.Bytes_extra hb
    have hx256 : x.length ≤ 256 := hx
    have hx16 : x.length < 2 ^ 16 := by omega
    cases truncatedUptoTx with
    | none =>
      cases hpre
      rw [TxMetadata.ReadFrom, if_neg (by simp [TxHeader.maxTxMetadataLen]; omega),
        readAttrs_cons (by simp) (txAttr_extra hx16 [])]
      have hend : 0 + 1 + (2 + x.length) = ([] ++ 1 :: (be 2 x.length ++ x)).length := by
        simp
        omega
      rw [hend]
      exact readAttrs_end
    | some t =>
      cases hpre
      rw [TxMetadata.ReadFrom, if_neg (by simp [TxHeader.maxTxMetadataLen]; omega),
        readAttrs_cons (by simp) (txAttr_truncated (hfit t rfl) (1 :: (be 2 x.length ++ x))),
        readAttrs_cons (by simp) (txAttr_extra hx16 [])]
      have hend : 0 + 1 + 8 + 1 + (2 + x.length) =
          ((0 :: be 8 t) ++ 1 :: (be 2 x.length ++ x)).length := by
        simp
        omega
      rw [hend]
      exact readAttrs_end

/-- **Entry metadata reads back.** -/
theorem KVMetadata.unsafeReadFrom_Bytes {md : KVMetadata} (hfit : md.Fits) :
    KVMetadata.unsafeReadFrom md.Bytes = .ok md := by
  have hlen := length_mdBytes_le (some md)
  rw [KVMetadata.unsafeReadFrom, if_neg (by simp only [mdBytes] at hlen; omega)]
  obtain ⟨deleted, expiresAt, nonIndexable⟩ := md
  -- the attributes that are set, in the order of their codes
  obtain ⟨P₀, hP₀⟩ : ∃ P₀ : List UInt8, P₀ = if deleted then [0] else [] := ⟨_, rfl⟩
  obtain ⟨P₁, hP₁⟩ : ∃ P₁ : List UInt8, P₁ = expiresAt.elim [] (fun t => 1 :: beInt 8 t) :=
    ⟨_, rfl⟩
  obtain ⟨P₂, hP₂⟩ : ∃ P₂ : List UInt8, P₂ = if nonIndexable then [2] else [] := ⟨_, rfl⟩
  have hb : KVMetadata.Bytes ⟨deleted, expiresAt, nonIndexable⟩ = P₀ ++ P₁ ++ P₂ := by
    rw [hP₀, hP₁, hP₂]
    cases expiresAt <;> rfl
  rw [hb]
  -- each is read in turn into a new metadata
  have h₀ : readAttrs kvAttr (P₀ ++ P₁ ++ P₂) 0 NewKVMetadata =
      readAttrs kvAttr (P₀ ++ P₁ ++ P₂) P₀.length ⟨deleted, none, false⟩ := by
    subst hP₀
    cases deleted
    · rfl
    · show _ = readAttrs kvAttr _ (0 + 1 + 0) _
      exact readAttrs_cons (by simp) (kvAttr_deleted (P₁ ++ P₂))
  have h₁ : readAttrs kvAttr (P₀ ++ P₁ ++ P₂) P₀.length ⟨deleted, none, false⟩ =
      readAttrs kvAttr (P₀ ++ P₁ ++ P₂) (P₀ ++ P₁).length ⟨deleted, expiresAt, false⟩ := by
    subst hP₁
    cases expiresAt with
    | none => simp
    | some t =>
      obtain ⟨ht₁, ht₂⟩ := hfit t rfl
      rw [readAttrs_cons (by simp) (kvAttr_expiresAt ht₁ ht₂ P₂)]
      simp [Nat.add_assoc]
  have h₂ : readAttrs kvAttr (P₀ ++ P₁ ++ P₂) (P₀ ++ P₁).length ⟨deleted, expiresAt, false⟩ =
      readAttrs kvAttr (P₀ ++ P₁ ++ P₂) (P₀ ++ P₁ ++ P₂).length
        ⟨deleted, expiresAt, nonIndexable⟩ := by
    subst hP₂
    cases nonIndexable
    · simp
    · rw [readAttrs_cons (by simp) (kvAttr_nonIndexable [])]
      simp [Nat.add_assoc]
  rw [h₀, h₁, h₂, readAttrs_end]

namespace TxHeader

variable {D : Type} (hs : Hasher D)

/-- What `Bytes()` writes for a header of a known version: the fields `innerHash` also hashes,
with `ID` and `PrevAlh` in front. -/
theorem Bytes_eq {hdr : TxHeader D} (he : hdr.Encodable) :
    hdr.Bytes hs = .ok (be 8 hdr.ID ++ (hs.bytes hdr.PrevAlh ++ (beInt 8 hdr.Ts ++
      (beInt 2 hdr.Version ++ (hdr.middleBytes ++
        (hs.bytes hdr.Eh ++ (be 8 hdr.BlTxID ++ hs.bytes hdr.BlRoot))))))) := by
  rcases he.version with ⟨h0, hmd, -⟩ | ⟨h1, -⟩
  · simp [Bytes, middleBytes, h0, hmd]
  · simp [Bytes, middleBytes, h1]

/-- `readVersioned` reads back what `Bytes()` wrote between the version and `Eh`, provided the
metadata is that of a `TxMetadata`. -/
theorem readVersioned_middleBytes {hdr : TxHeader D} (he : hdr.Encodable)
    (hmd : ∃ md : TxMetadata, md.Fits ∧ md.Bytes = .ok hdr.Metadata) {b post : List UInt8}
    (h50 : 50 ≤ b.length) (h : b.drop 50 = hdr.middleBytes ++ post) :
    readVersioned b hdr.Version.toNat =
      .ok (hdr.Metadata, hdr.NEntries.toNat, 50 + hdr.middleBytes.length) := by
  have hlen := le_length_of_drop h50 h
  have hN0 := he.nentries_ge
  rcases he.version with ⟨h0, hmd0, hN⟩ | ⟨h1, hmdlen, hN⟩
  · -- version 0: no metadata, a two-byte `NEntries`
    rw [middleBytes, if_pos h0] at h ⊢
    have hNRead : uintAt 2 b 50 = .ok hdr.NEntries.toNat := by
      rw [uintAt_beInt h50 h]
      congr 1
      omega
    simp [readVersioned, h0, hNRead, hmd0, bind, Except.bind, pure, Except.pure]
  · -- version 1: the metadata behind its length, then a four-byte `NEntries`
    have hne : ¬ hdr.Version = 0 := by rw [h1]; decide
    rw [middleBytes, if_neg hne, List.append_assoc, List.append_assoc] at h
    simp only [middleBytes, if_neg hne, List.length_append, length_be, length_beInt] at hlen ⊢
    obtain ⟨md, hfit, hmdb⟩ := hmd
    have hmax : hdr.Metadata.length ≤ 268 := hmdlen
    have h52 : b.drop (50 + 2) = hdr.Metadata ++ (beInt 4 hdr.NEntries ++ post) := by
      simpa using drop_add_of_drop h
    have hN4 : b.drop (50 + 2 + hdr.Metadata.length) = beInt 4 hdr.NEntries ++ post :=
      drop_add_of_drop h52
    have hmdRead : uintAt 2 b 50 = .ok hdr.Metadata.length := by
      rw [uintAt_be h50 h, Nat.mod_eq_of_lt (by omega)]
    have hNRead : uintAt 4 b (52 + hdr.Metadata.length) = .ok hdr.NEntries.toNat := by
      rw [uintAt_beInt (by omega) hN4]
      congr 1
      omega
    have hguard : ¬ (b.length < 52 + hdr.Metadata.length + 4 ∨
        hdr.Metadata.length > maxTxMetadataLen) := by
      omega
    by_cases hpos : 0 < hdr.Metadata.length
    · -- the metadata is read with `TxMetadata.ReadFrom` and written again with `Bytes()`
      have hread : TxMetadata.ReadFrom ((b.drop 52).take hdr.Metadata.length) = .ok md := by
        rw [show b.drop 52 = _ from h52, List.take_left' rfl]
        exact TxMetadata.ReadFrom_Bytes hfit hmdb
      simp [readVersioned, h1, hmdRead, hguard, hpos, hread, hNRead, hmdb, bind, Except.bind, pure,
        Except.pure]
      omega
    · have hnil : hdr.Metadata = [] := List.eq_nil_of_length_eq_zero (by omega)
      rw [hnil] at h52 hmdRead
      have hNRead0 : uintAt 4 b 52 = .ok hdr.NEntries.toNat := by
        rw [uintAt_beInt (by omega) h52]
        congr 1
        omega
      simp [readVersioned, h1, hmdRead, hNRead0, hnil, bind, Except.bind, pure, Except.pure]
      omega

/-- **A header reads back.** `ReadFrom` gives back the header `Bytes()` wrote, for a header of a
known version whose fields fit their Go types, whose metadata is that of a `TxMetadata`, and
which passes the checks `ReadFrom` makes: an id of at least one, at least one entry, and a
`BlTxID` below the id. -/
theorem ReadFrom_Bytes (hw : hs.FixedWidth 32) {readDigest : List UInt8 → D}
    (hread : ∀ d, readDigest (hs.bytes d) = d) {hdr : TxHeader D} (he : hdr.Encodable)
    (hmd : ∃ md : TxMetadata, md.Fits ∧ md.Bytes = .ok hdr.Metadata) (hid : 1 ≤ hdr.ID)
    (hn : 1 ≤ hdr.NEntries) (hbl : hdr.BlTxID < hdr.ID) {bs : List UInt8}
    (hb : hdr.Bytes hs = .ok bs) : ReadFrom readDigest bs = .ok hdr := by
  rw [Bytes_eq hs he, Except.ok.injEq] at hb
  have hmid : 2 ≤ hdr.middleBytes.length := by
    rcases he.version with ⟨h0, -⟩ | ⟨h1, -⟩
    · simp [middleBytes, h0]
    · simp [middleBytes, h1]
  have hlen : bs.length = 50 + hdr.middleBytes.length + 72 := by
    rw [← hb]
    simp [hw.length_bytes]
    omega
  -- each field where `Bytes()` wrote it
  obtain ⟨tail, htail⟩ : ∃ tail : List UInt8,
      tail = hs.bytes hdr.Eh ++ (be 8 hdr.BlTxID ++ hs.bytes hdr.BlRoot) := ⟨_, rfl⟩
  rw [← htail] at hb
  have h0 : bs.drop 0 = be 8 hdr.ID ++ (hs.bytes hdr.PrevAlh ++ (beInt 8 hdr.Ts ++
      (beInt 2 hdr.Version ++ (hdr.middleBytes ++ tail)))) := by
    rw [← hb, List.drop_zero]
  have h8 : bs.drop 8 = hs.bytes hdr.PrevAlh ++ (beInt 8 hdr.Ts ++
      (beInt 2 hdr.Version ++ (hdr.middleBytes ++ tail))) := by
    simpa using drop_add_of_drop h0
  have h40 : bs.drop 40 = beInt 8 hdr.Ts ++ (beInt 2 hdr.Version ++ (hdr.middleBytes ++ tail)) := by
    simpa [hw.length_bytes] using drop_add_of_drop h8
  have h48 : bs.drop 48 = beInt 2 hdr.Version ++ (hdr.middleBytes ++ tail) := by
    simpa using drop_add_of_drop h40
  have h50 : bs.drop 50 = hdr.middleBytes ++ tail := by
    simpa using drop_add_of_drop h48
  have hEh : bs.drop (50 + hdr.middleBytes.length) =
      hs.bytes hdr.Eh ++ (be 8 hdr.BlTxID ++ hs.bytes hdr.BlRoot) := by
    rw [drop_add_of_drop h50, htail]
  have hBlTxID : bs.drop (50 + hdr.middleBytes.length + 32) =
      be 8 hdr.BlTxID ++ hs.bytes hdr.BlRoot := by
    simpa [hw.length_bytes] using drop_add_of_drop hEh
  have hBlRoot : bs.drop (50 + hdr.middleBytes.length + 40) = hs.bytes hdr.BlRoot ++ [] := by
    simpa [Nat.add_assoc] using drop_add_of_drop hBlTxID
  -- and what each read gives back
  have hID : uintAt 8 bs 0 = .ok hdr.ID := by
    rw [uintAt_be (by omega) h0, Nat.mod_eq_of_lt he.id_lt]
  obtain ⟨ts, hts, hTs⟩ : ∃ ts, uintAt 8 bs 40 = .ok ts ∧ int64Of ts = hdr.Ts :=
    ⟨_, uintAt_beInt (by omega) h40, int64Of_emod he.ts_ge he.ts_lt⟩
  have hV : uintAt 2 bs 48 = .ok hdr.Version.toNat := by
    rw [uintAt_beInt (by omega) h48]
    congr 1
    rcases he.version with ⟨h, -⟩ | ⟨h, -⟩ <;> omega
  have hBl : uintAt 8 bs (50 + hdr.middleBytes.length + 32) = .ok hdr.BlTxID := by
    rw [uintAt_be (by omega) hBlTxID, Nat.mod_eq_of_lt he.blTxID_lt]
  have hVer : ((hdr.Version.toNat : Nat) : Int) = hdr.Version := by
    rcases he.version with ⟨h, -⟩ | ⟨h, -⟩ <;> omega
  have hN : ((hdr.NEntries.toNat : Nat) : Int) = hdr.NEntries := by omega
  have hmin : ¬ bs.length < 8 + 32 + 8 + 2 * 2 + 32 + 8 + 32 := by omega
  simp [ReadFrom, hmin, hID, show ¬ hdr.ID < 1 by omega, digestAt_bytes hw hread (by omega) h8, hts,
    hV, readVersioned_middleBytes he hmd (by omega) h50, show ¬ hdr.NEntries.toNat < 1 by omega,
    digestAt_bytes hw hread (by omega) hEh, hBl, show ¬ hdr.ID ≤ hdr.BlTxID by omega,
    digestAt_bytes hw hread (by omega) hBlRoot, bind, Except.bind, pure, Except.pure, hTs, hVer, hN]

end TxHeader

end Immudb.Store
