import Immudb.Store.Codec

/-!
# `Immudb/Store/Export.lean` — exporting a transaction, and reading one back on a replica

`ImmuStore.ExportTx` and the parsing part of `ImmuStore.ReplicateTx` (`immustore.go`). An exported
transaction is its header behind a 4-byte length, then for each entry its key and metadata
behind 2-byte lengths and its value behind a 4-byte length, or, when the primary no longer holds
the values, the value's digest in the value's place; a last block of one byte says which.

`ExportTx` reads each value into the store's shared buffer `_valBs` under `_valBsMux`. The mutex
is modelled as a flag the call finds and leaves: a `Lock` on a held mutex never returns, which is
`none`. Every return inside the entry loop unlocks first, except the two that refuse a
transaction whose values are partly there and partly truncated (`ExportTx_unlocks`). Those two are
reached whenever an empty value sits in a truncated transaction, since `readValueAt` reads an
empty value without a value log (`ExportTx_keeps_lock`); every later export then blocks.

`readValueAt` is a parameter: what it leaves in `valBuf` for each entry.

The parser of `ReplicateTx` reads a single byte after the entries, and a truncation block of length
zero, past the end of its input (`parseExportedTx_panics`). On what `ExportTx` writes it reads
everything back (`ExportTx_replicates`): the layout of each entry (`exportedEntry`) is where the
writer's loop and the reader's loop meet.
-/

set_option autoImplicit false

namespace Immudb.Store

open Hashing Bytes

/-- What `readValueAt` leaves for an entry: the `vLen` bytes of `valBuf`, `io.EOF` for a value no
value log holds, or another error. -/
inductive ValueRead where
  | value (valBuf : List UInt8)
  | eof
  | failed (e : WireError)
  deriving DecidableEq, Repr

variable {D : Type} (hs : Hasher D)

/-- `readValueAt` where the value log no longer holds the transaction's values: on a primary whose
value-log chunk `TruncateUptoTx` deleted, `multiapp.ReadAt` of a value of some bytes is `io.EOF`,
and an empty value is read without a log and checked against its hash. -/
def readUnstored [DecidableEq D] (skipIntegrityCheck : Bool) (e : TxEntry D) : ValueRead :=
  if 0 < e.vLen then .eof
  else if !skipIntegrityCheck ∧ e.hVal ≠ hs.sum [] then
    .failed (.corruptedData "value length or digest mismatch")
  else .value []

/-! ## 1. `ExportTx` -/

/-- What `ExportTx` carries through its entry loop. -/
structure ExportState where
  buf : List UInt8
  isValueTruncated : Bool

/-- One turn of `ExportTx`'s entry loop, for entry `i`, entered with `_valBsMux` free: the state
after it, or the error it returns with whether `_valBsMux` is still held. -/
def exportEntry (read : TxEntry D → ValueRead) (i : Nat) (st : ExportState) (e : TxEntry D) :
    Except (WireError × Bool) ExportState :=
  let buf := st.buf ++ be 2 e.key.length ++ e.key ++ be 2 (mdBytes e.md).length ++ mdBytes e.md
  -- `s._valBsMux.Lock()`
  match read e with
  | .failed err => .error (err, false)
  | .value valBuf =>
    -- currently, either all the values are sent or none
    if st.isValueTruncated then .error (.corruptedData "partially truncated transaction", true)
    else .ok ⟨buf ++ be 4 e.vLen ++ valBuf, st.isValueTruncated⟩
  | .eof =>
    -- the value has been truncated: its digest is written instead
    if !st.isValueTruncated ∧ 0 < i then
      .error (.corruptedData "partially truncated transaction", true)
    else .ok ⟨buf ++ be 4 (hs.bytes e.hVal).length ++ hs.bytes e.hVal, true⟩

/-- `ExportTx`'s entry loop from entry `i`, with `_valBsMux` held or not: the state at its end or
the error it returns, with whether `_valBsMux` is held then; `none` when a `Lock` never returns. -/
def exportLoop (read : TxEntry D → ValueRead) (locked : Bool) :
    Nat → ExportState → List (TxEntry D) → Option (Except WireError ExportState × Bool)
  | _, st, [] => some (.ok st, locked)
  | i, st, e :: es =>
    if locked then none
    else
      match exportEntry hs read i st e with
      | .error (err, held) => some (.error err, held)
      | .ok st' => exportLoop read false (i + 1) st' es

/-- `ExportTx` of a transaction already read, with `_valBsMux` held or not when it is called: the
exported bytes or the error, with whether `_valBsMux` is held on return; `none` if it never
returns. -/
def ExportTx (read : TxEntry D → ValueRead) (locked : Bool) (tx : Tx D) :
    Option (Except WireError (List UInt8) × Bool) :=
  match tx.header.Bytes hs with
  | .error err => some (.error err, locked)
  | .ok hdrBs =>
    match exportLoop hs read locked 0 ⟨be 4 hdrBs.length ++ hdrBs, false⟩ tx.entries with
    | none => none
    | some (.error err, held) => some (.error err, held)
    | some (.ok st, held) =>
      -- a boolean tells `ReplicateTx` whether the values were truncated
      some (.ok (st.buf ++ be 2 1 ++ [if st.isValueTruncated then 1 else 0]), held)

/-! ## 2. The mutex -/

/-- One turn that returns with `_valBsMux` held returns the partial-truncation error. -/
theorem exportEntry_held {read : TxEntry D → ValueRead} {i : Nat} {st : ExportState}
    {e : TxEntry D} {err : WireError} (h : exportEntry hs read i st e = .error (err, true)) :
    err = .corruptedData "partially truncated transaction" := by
  unfold exportEntry at h
  split at h
  · cases h
  · split at h
    · cases h
      rfl
    · cases h
  · split at h
    · cases h
      rfl
    · cases h

/-- The loop, entered with `_valBsMux` free, returns; it holds `_valBsMux` at the end only after
the partial-truncation error. -/
theorem exportLoop_unlocks (read : TxEntry D → ValueRead) :
    ∀ (es : List (TxEntry D)) (i : Nat) (st : ExportState), ∃ r held,
      exportLoop hs read false i st es = some (r, held) ∧
        (held = true → r = .error (.corruptedData "partially truncated transaction")) := by
  intro es
  induction es with
  | nil => intro i st; exact ⟨_, _, rfl, fun h => absurd h (by decide)⟩
  | cons e es ih =>
    intro i st
    simp only [exportLoop, Bool.false_eq_true, if_false]
    cases hturn : exportEntry hs read i st e with
    | error p =>
      obtain ⟨err, held⟩ := p
      refine ⟨_, _, rfl, fun hheld => ?_⟩
      subst hheld
      rw [exportEntry_held hs hturn]
    | ok st' => exact ih (i + 1) st'

/-- Entries whose values are all read, and then one whose value is truncated: the loop refuses
the transaction with `_valBsMux` held. -/
theorem exportLoop_value_then_eof (read : TxEntry D → ValueRead) {e : TxEntry D}
    (he : read e = .eof) (bs : List (TxEntry D)) :
    ∀ (as : List (TxEntry D)) (i : Nat) (st : ExportState), st.isValueTruncated = false →
      0 < i + as.length → (∀ a ∈ as, ∃ v, read a = .value v) →
      exportLoop hs read false i st (as ++ e :: bs) =
        some (.error (.corruptedData "partially truncated transaction"), true) := by
  intro as
  induction as with
  | nil =>
    intro i st hst hi _
    simp [exportLoop, exportEntry, he, hst, show 0 < i by simpa using hi]
  | cons a as ih =>
    intro i st hst _ has
    obtain ⟨v, hv⟩ := has a (List.mem_cons_self ..)
    simp only [List.cons_append, exportLoop, Bool.false_eq_true, if_false, exportEntry, hv, hst]
    exact ih (i + 1) _ rfl (by omega) (fun a' ha' => has a' (List.mem_cons_of_mem _ ha'))

/-- Entries whose values are all truncated, and then one whose value is read: the loop refuses
the transaction with `_valBsMux` held. -/
theorem exportLoop_eof_then_value (read : TxEntry D → ValueRead) {e : TxEntry D} {v : List UInt8}
    (he : read e = .value v) (bs : List (TxEntry D)) :
    ∀ (as : List (TxEntry D)) (i : Nat) (st : ExportState), as ≠ [] → (∀ a ∈ as, read a = .eof) →
      (st.isValueTruncated = false → i = 0) →
      exportLoop hs read false i st (as ++ e :: bs) =
        some (.error (.corruptedData "partially truncated transaction"), true) := by
  intro as
  induction as with
  | nil => intro _ _ hne; exact absurd rfl hne
  | cons a as ih =>
    intro i st _ has hfirst
    have ha := has a (List.mem_cons_self ..)
    -- the first truncated value sets the flag, which every later turn keeps
    have hturn : exportEntry hs read i st a =
        .ok ⟨st.buf ++ be 2 a.key.length ++ a.key ++ be 2 (mdBytes a.md).length ++ mdBytes a.md ++
          be 4 (hs.bytes a.hVal).length ++ hs.bytes a.hVal, true⟩ := by
      cases hst : st.isValueTruncated
      · simp [exportEntry, ha, hst, hfirst hst]
      · simp [exportEntry, ha, hst]
    simp only [List.cons_append, exportLoop, Bool.false_eq_true, if_false, hturn]
    rcases List.eq_nil_or_concat as with rfl | ⟨as', a', rfl⟩
    · simp [exportLoop, exportEntry, he]
    · exact ih (i + 1) _ (by simp) (fun a' ha' => has a' (List.mem_cons_of_mem _ ha'))
        (by simp)

/-- **`ExportTx` can return with `_valBsMux` held.** A transaction whose values are read for its
first entries and truncated for the next, or the other way round, is refused with
`ErrCorruptedData` and `_valBsMux` still locked. -/
theorem ExportTx_keeps_lock (read : TxEntry D → ValueRead) (tx : Tx D) {hdrBs : List UInt8}
    (hb : tx.header.Bytes hs = .ok hdrBs) (as bs : List (TxEntry D)) (e : TxEntry D)
    (hes : tx.entries = as ++ e :: bs) (has : as ≠ [])
    (hmix : ((∀ a ∈ as, ∃ v, read a = .value v) ∧ read e = .eof) ∨
      ((∀ a ∈ as, read a = .eof) ∧ ∃ v, read e = .value v)) :
    ExportTx hs read false tx =
      some (.error (.corruptedData "partially truncated transaction"), true) := by
  have hlen : 0 < as.length := List.length_pos_of_ne_nil has
  have hloop : exportLoop hs read false 0 ⟨be 4 hdrBs.length ++ hdrBs, false⟩ tx.entries =
      some (.error (.corruptedData "partially truncated transaction"), true) := by
    rw [hes]
    rcases hmix with ⟨hv, he⟩ | ⟨heof, v, he⟩
    · exact exportLoop_value_then_eof hs read he bs as 0 _ rfl (by omega) hv
    · exact exportLoop_eof_then_value hs read he bs as 0 _ has heof (fun _ => rfl)
  simp [ExportTx, hb, hloop]

/-- A replicated truncated transaction whose first value is empty: the empty value is read, the
next is truncated. -/
theorem ExportTx_keeps_lock_empty_value :
    ExportTx escape (readUnstored escape false) false
        ⟨⟨1, 0, 0, [], [], 1, [], 2, []⟩, [⟨[1], none, 0, 0, [], []⟩, ⟨[2], none, 1, 0, [7], []⟩]⟩ =
      some (.error (.corruptedData "partially truncated transaction"), true) :=
  ExportTx_keeps_lock escape (readUnstored escape false) _ rfl [⟨[1], none, 0, 0, [], []⟩] []
    ⟨[2], none, 1, 0, [7], []⟩ rfl (by simp)
    (.inl ⟨fun a ha => ⟨[], by simp only [List.mem_singleton] at ha; subst ha; rfl⟩, rfl⟩)

/-! ## 3. The parser of `ReplicateTx` -/

/-- One entry of an exported transaction, from position `i`: the spec `ReplicateTx` collects and
the position after it. -/
def readEntry (b : List UInt8) (i : Nat) : Except WireError (EntrySpec D × Nat) := do
  if b.length < i + 2 * 2 + 4 then throw (.illegalArguments "")
  let kLen ← uintAt 2 b i
  if b.length < i + 2 + 2 + 4 + kLen then throw (.illegalArguments "")
  let key ← copyN kLen <$> orPanic (sliceFrom? b (i + 2))
  let mdLen ← uintAt 2 b (i + 2 + kLen)
  let j := i + 2 + kLen + 2
  if b.length < j + mdLen then throw (.illegalArguments "")
  let (md, j) ← if 0 < mdLen then do
      let md ← KVMetadata.unsafeReadFrom (← orPanic (slice? b j (j + mdLen)))
      pure (some md, j + mdLen)
    else pure (none, j)
  -- the value's length follows the metadata: no guard covers it when there is metadata
  let vLen ← uintAt 4 b j
  if b.length < j + 4 + vLen then throw (.illegalArguments "")
  let value ← orPanic (slice? b (j + 4) (j + 4 + vLen))
  pure (⟨key, md, value, false, hs.zero⟩, j + 4 + vLen)

/-- The entry loop of `ReplicateTx`: `n` entries from position `i`. -/
def readEntries (b : List UInt8) : Nat → Nat → Except WireError (List (EntrySpec D) × Nat)
  | 0, i => pure ([], i)
  | n + 1, i => do
    let (e, i) ← readEntry hs b i
    let (es, i) ← readEntries b n i
    pure (e :: es, i)

/-- The block after the entries, from position `i`, if anything is left: whether the values were
truncated, and the position after it. -/
def readTruncated (b : List UInt8) (i : Nat) : Except WireError (Bool × Nat) :=
  if i < b.length then do
    let tLen ← uintAt 2 b i
    if b.length < i + 2 + tLen then throw (.illegalArguments "")
    let v ← orPanic (slice? b (i + 2) (i + 2 + tLen))
    -- `len(v) > 0 && v[0] > 1`
    match v with
    | x :: _ => if 1 < x then throw .illegalTruncationArgument else pure ()
    | [] => pure ()
    -- `isTruncated = v[0] == 1`
    let v0 ← orPanic v.head?
    pure (v0 = 1, i + 2 + tLen)
  else pure (false, i)

/-- The parsing part of `ReplicateTx(exportedTx)`: the header, the entries as read, and whether
the values were truncated. -/
def parseExportedTx (readDigest : List UInt8 → D) (exportedTx : List UInt8) :
    Except WireError (TxHeader D × List (EntrySpec D) × Bool) := do
  if exportedTx.length = 0 then throw (.illegalArguments "")
  if exportedTx.length < 4 then throw (.illegalArguments "")
  let hdrLen ← uintAt 4 exportedTx 0
  if exportedTx.length < 4 + hdrLen then throw (.illegalArguments "")
  let hdr ← TxHeader.ReadFrom readDigest (← orPanic (slice? exportedTx 4 (4 + hdrLen)))
  let (entries, i) ← readEntries hs exportedTx hdr.NEntries.toNat (4 + hdrLen)
  let (isTruncated, i) ← readTruncated exportedTx i
  if i ≠ exportedTx.length then throw (.illegalArguments "")
  pure (hdr, entries, isTruncated)

/-- The parse up to the entries' end, on an input whose header and entries read. -/
theorem parseExportedTx_eq {readDigest : List UInt8 → D} {b : List UInt8} {hdrLen i : Nat}
    {hdr : TxHeader D} {entries : List (EntrySpec D)} (hlen : uintAt 4 b 0 = .ok hdrLen)
    (hfit : 4 + hdrLen ≤ b.length)
    (hhdr : TxHeader.ReadFrom readDigest ((b.drop 4).take hdrLen) = .ok hdr)
    (hent : readEntries hs b hdr.NEntries.toNat (4 + hdrLen) = .ok (entries, i)) :
    parseExportedTx hs readDigest b = (do
      let (isTruncated, j) ← readTruncated b i
      if j ≠ b.length then throw (.illegalArguments "")
      pure (hdr, entries, isTruncated)) := by
  have hslice : slice? b 4 (4 + hdrLen) = some ((b.drop 4).take hdrLen) := by
    simp [slice?, hfit]
  have h0 : b.length ≠ 0 := by omega
  have h4 : ¬ b.length < 4 := by omega
  have hfit' : ¬ b.length < 4 + hdrLen := by omega
  simp [parseExportedTx, h0, h4, hlen, bind, Except.bind, hfit', hslice, orPanic, hhdr, hent]

/-- **The parser of `ReplicateTx` reads past the end of its input.** Whatever header and entries
an input starts with, a single byte after the entries is read as the two-byte length of the
truncation block, and a truncation block of length zero is read at its first byte: both are
runtime panics. -/
theorem parseExportedTx_panics (readDigest : List UInt8 → D) {b : List UInt8} {hdrLen : Nat}
    {hdr : TxHeader D} (hlen : uintAt 4 b 0 = .ok hdrLen) (hfit : 4 + hdrLen ≤ b.length)
    (hhdr : TxHeader.ReadFrom readDigest ((b.drop 4).take hdrLen) = .ok hdr)
    (entries : List (EntrySpec D)) (i : Nat)
    (hent : readEntries hs b hdr.NEntries.toNat (4 + hdrLen) = .ok (entries, i)) :
    (b.length = i + 1 → parseExportedTx hs readDigest b = .error .indexOutOfRange) ∧
    (b.drop i = [0, 0] → parseExportedTx hs readDigest b = .error .indexOutOfRange) := by
  rw [parseExportedTx_eq hs hlen hfit hhdr hent]
  refine ⟨fun hone => ?_, fun hzero => ?_⟩
  · -- `Uint16` of the one byte left
    have hi : i < b.length := by omega
    have hlast : b.drop i = [b[i]] := by
      rw [List.drop_eq_getElem_cons (by omega), List.drop_eq_nil_of_le (by omega)]
    have htrunc : readTruncated b i = .error .indexOutOfRange := by
      simp [readTruncated, show i < b.length by omega, uintAt_of_drop (show i ≤ b.length by omega) hlast,
        uintBE?, orPanic, bind, Except.bind]
    rw [htrunc]
    rfl
  · -- `v[0]` of the empty block
    have hblen : b.length = i + 2 := by
      have := congrArg List.length hzero
      simp at this
      omega
    have hslice : slice? b (i + 2) (i + 2 + 0) = some [] := by simp [slice?, hblen]
    have htrunc : readTruncated b i = .error .indexOutOfRange := by
      simp [readTruncated, uintAt_of_drop (show i ≤ b.length by omega) hzero, uintBE?, ofBE, hblen,
        hslice, orPanic, bind, Except.bind]
    rw [htrunc]
    rfl

set_option maxRecDepth 20000 in
/-- A version-0 header, one empty entry, and one byte after it. -/
theorem parseExportedTx_panics_trailing_byte :
    parseExportedTx escape id (be 4 124 ++ (be 8 1 ++ List.replicate 32 0 ++ be 8 0 ++ be 2 0 ++
      be 2 1 ++ List.replicate 32 0 ++ be 8 0 ++ List.replicate 32 0) ++ List.replicate 8 0 ++ [5]) =
      .error .indexOutOfRange :=
  (@parseExportedTx_panics (List UInt8) escape id _ 124
    ⟨1, 0, 0, List.replicate 32 0, List.replicate 32 0, 0, [], 1, List.replicate 32 0⟩ rfl
    (by decide) rfl [⟨[], none, [], false, List.replicate 32 0⟩] 136 rfl).1 rfl

/-- The entries `ReplicateTx` sets into the new transaction: when the values were truncated, each
value's place holds its digest, `digest(e.Value)`. -/
def replicaSpecs (readDigest : List UInt8 → D) (isTruncated : Bool) (entries : List (EntrySpec D)) :
    List (EntrySpec D) :=
  entries.map fun e =>
    if isTruncated then ⟨e.Key, e.Metadata, [], true, readDigest (copyN 32 e.Value)⟩ else e

/-! ## 4. The round trip -/

/-- The bytes `ExportTx` writes for an entry whose value slot holds `v`: the key and the metadata
behind two-byte lengths, then `v` behind a four-byte one. -/
def exportedEntry (e : TxEntry D) (v : List UInt8) : List UInt8 :=
  be 2 e.key.length ++ e.key ++ be 2 (mdBytes e.md).length ++ mdBytes e.md ++ be 4 v.length ++ v

/-- The metadata `ReplicateTx` reads for an entry: `nil` where no attribute is set. -/
theorem readEntry_exportedEntry {b post : List UInt8} {i : Nat} (e : TxEntry D) (v : List UInt8)
    (hk : e.key.length < 2 ^ 16) (hv : v.length < 2 ^ 32) (hmd : ∀ m ∈ e.md, m.Fits)
    (hi : i ≤ b.length) (h : b.drop i = exportedEntry e v ++ post) :
    readEntry hs b i = .ok (⟨e.key, if mdBytes e.md = [] then none else e.md, v, false, hs.zero⟩,
      i + (exportedEntry e v).length) := by
  simp only [exportedEntry, List.append_assoc] at h ⊢
  have hlen := le_length_of_drop hi h
  simp only [List.length_append, length_be] at hlen ⊢
  have hmlen := length_mdBytes_le e.md
  have hm16 : (mdBytes e.md).length < 2 ^ 16 := by unfold maxKVMetadataLen at hmlen; omega
  -- each field where `ExportTx` wrote it
  have hkey := drop_add_of_drop h
  have hm := drop_add_of_drop hkey
  have hmd0 := drop_add_of_drop hm
  have hv0 := drop_add_of_drop hmd0
  have hval := drop_add_of_drop hv0
  simp only [length_be] at hkey hm hmd0 hv0 hval
  -- and what each read gives back
  have hkLen : uintAt 2 b i = .ok e.key.length := by rw [uintAt_be hi h, Nat.mod_eq_of_lt hk]
  have hkey' : sliceFrom? b (i + 2) = some (e.key ++ (be 2 (mdBytes e.md).length ++
      (mdBytes e.md ++ (be 4 v.length ++ (v ++ post))))) := sliceFrom?_of_drop (by omega) hkey
  have hmLen : uintAt 2 b (i + 2 + e.key.length) = .ok (mdBytes e.md).length := by
    rw [uintAt_be (by omega) hm, Nat.mod_eq_of_lt hm16]
  have hvLen : uintAt 4 b (i + 2 + e.key.length + 2 + (mdBytes e.md).length) = .ok v.length := by
    rw [uintAt_be (by omega) hv0, Nat.mod_eq_of_lt hv]
  have hval' : slice? b (i + 2 + e.key.length + 2 + (mdBytes e.md).length + 4)
      (i + 2 + e.key.length + 2 + (mdBytes e.md).length + 4 + v.length) = some v :=
    slice?_of_drop (by omega) (by simpa using hval)
  by_cases hpos : 0 < (mdBytes e.md).length
  · -- the metadata is read with `unsafeReadFrom`
    obtain ⟨m, hm⟩ : ∃ m, e.md = some m := by
      cases hmd' : e.md with
      | none => simp [hmd', mdBytes] at hpos
      | some m => exact ⟨m, rfl⟩
    have hmRead : KVMetadata.unsafeReadFrom (mdBytes e.md) = .ok m := by
      rw [hm]
      exact KVMetadata.unsafeReadFrom_Bytes (hmd m hm)
    have hmd' : slice? b (i + 2 + e.key.length + 2) (i + 2 + e.key.length + 2 + (mdBytes e.md).length) =
        some (mdBytes e.md) := slice?_of_drop (by omega) hmd0
    have hfits : ∀ n, n ≤ i + 2 + e.key.length + 2 + (mdBytes e.md).length + 4 + v.length →
        ¬ b.length < n := by
      intro n hn
      omega
    have hmdn : (if mdBytes e.md = [] then none else e.md) = some m := by
      rw [if_neg (List.ne_nil_of_length_pos hpos), hm]
    simp (disch := omega) [readEntry, hkLen, hkey', copyN_append, hmLen, hvLen, hval', hmd', hmRead,
      hpos, hfits, orPanic, bind, Except.bind, pure, Except.pure, hmdn]
    omega
  · -- no metadata: the value's length follows the metadata's
    have hnil : mdBytes e.md = [] := List.eq_nil_of_length_eq_zero (by omega)
    have hfits : ∀ n, n ≤ i + 2 + e.key.length + 2 + 4 + v.length → ¬ b.length < n := by
      intro n hn
      omega
    rw [hnil, List.length_nil, Nat.add_zero] at hvLen hval'
    simp (disch := omega) [readEntry, hkLen, hkey', copyN_append, hmLen, hvLen, hval', hnil, hfits,
      orPanic, bind, Except.bind, pure, Except.pure]
    omega
theorem readEntries_exported (slot : TxEntry D → List UInt8) {b : List UInt8} :
    ∀ (es : List (TxEntry D)) (i : Nat) (post : List UInt8),
      (∀ e ∈ es, e.key.length < 2 ^ 16 ∧ (slot e).length < 2 ^ 32 ∧ ∀ m ∈ e.md, m.Fits) →
      i ≤ b.length → b.drop i = (es.map fun e => exportedEntry e (slot e)).flatten ++ post →
      readEntries hs b es.length i =
        .ok (es.map (fun e => ⟨e.key, if mdBytes e.md = [] then none else e.md, slot e, false, hs.zero⟩),
          i + (es.map fun e => exportedEntry e (slot e)).flatten.length) := by
  intro es
  induction es with
  | nil => intro i post _ _ _; simp [readEntries, pure, Except.pure]
  | cons e es ih =>
    intro i post hes hi h
    obtain ⟨hk, hv, hmd⟩ := hes e (List.mem_cons_self ..)
    rw [List.map_cons, List.flatten_cons, List.append_assoc] at h
    have hlen := le_length_of_drop hi h
    have hrest := drop_add_of_drop h
    have hes' : ∀ e ∈ es, e.key.length < 2 ^ 16 ∧ (slot e).length < 2 ^ 32 ∧ ∀ m ∈ e.md, m.Fits :=
      fun e' he' => hes e' (List.mem_cons_of_mem _ he')
    simp [readEntries, readEntry_exportedEntry hs e (slot e) hk hv hmd hi h,
      ih _ post hes' (by omega) hrest, bind, Except.bind, pure, Except.pure, Nat.add_assoc]

theorem readTruncated_flag {b : List UInt8} {i : Nat} (t : Bool) (hi : i ≤ b.length)
    (h : b.drop i = be 2 1 ++ [if t then 1 else 0]) : readTruncated b i = .ok (t, i + 2 + 1) := by
  have hlen := le_length_of_drop hi h
  simp only [length_be, List.length_singleton] at hlen
  have h2 := drop_add_of_drop h
  simp only [length_be] at h2
  have hv : slice? b (i + 2) (i + 2 + 1) = some [if t then 1 else 0] :=
    slice?_of_drop (by omega) (show b.drop (i + 2) = [if t then 1 else 0] ++ [] by rw [h2]; rfl)
  cases t <;> simp [readTruncated, show i < b.length by omega, uintAt_be hi h, hv, orPanic,
    show ¬ b.length < i + 2 + 1 by omega, bind, Except.bind, pure, Except.pure]

/-- One turn of `ExportTx`'s loop where every value is read, or every value is truncated. -/
theorem exportEntry_exported {read : TxEntry D → ValueRead} {trunc : Bool} {i : Nat}
    {st : ExportState} {e : TxEntry D} (hread : read e = if trunc then .eof else .value e.value)
    (hlen : trunc = false → e.value.length = e.vLen)
    (hflag : st.isValueTruncated = true → trunc = true)
    (hfirst : trunc = true → st.isValueTruncated = false → i = 0) :
    exportEntry hs read i st e =
      .ok ⟨st.buf ++ exportedEntry e (if trunc then hs.bytes e.hVal else e.value), trunc⟩ := by
  cases trunc with
  | false =>
    have hst : st.isValueTruncated = false := by
      cases h : st.isValueTruncated
      · rfl
      · exact absurd (hflag h) (by decide)
    simp [exportEntry, exportedEntry, hread, hst, hlen rfl]
  | true =>
    -- the flag is off only at the first entry
    simp [exportEntry, exportedEntry, hread]
    exact hfirst rfl

/-- `ExportTx`'s loop where every value is read, or every value is truncated: it writes each
entry in turn, and leaves the flag set exactly when the values were truncated. -/
theorem exportLoop_exported (read : TxEntry D → ValueRead) (trunc : Bool) :
    ∀ (es : List (TxEntry D)) (i : Nat) (st : ExportState),
      (∀ e ∈ es, read e = (if trunc then .eof else .value e.value) ∧
        (trunc = false → e.value.length = e.vLen)) →
      (st.isValueTruncated = true → trunc = true) →
      (trunc = true → st.isValueTruncated = false → i = 0) →
      exportLoop hs read false i st es = some (.ok ⟨st.buf ++
        (es.map fun e => exportedEntry e (if trunc then hs.bytes e.hVal else e.value)).flatten,
        if es = [] then st.isValueTruncated else trunc⟩, false) := by
  intro es
  induction es with
  | nil => intro i st _ _ _; simp [exportLoop]
  | cons e es ih =>
    intro i st hes hflag hfirst
    obtain ⟨hread, hlen⟩ := hes e (List.mem_cons_self ..)
    simp only [exportLoop, Bool.false_eq_true, if_false,
      exportEntry_exported hs hread hlen hflag hfirst]
    rw [ih (i + 1) _ (fun e' he' => hes e' (List.mem_cons_of_mem _ he')) id
      (fun h h' => absurd (h.symm.trans h') (by decide))]
    -- after the first entry the flag is the verdict
    cases es <;> simp

/-- Metadata with no attribute set is `nil` to the digests as well. -/
theorem mdBytes_normalize (md : Option KVMetadata) :
    mdBytes (if mdBytes md = [] then none else md) = mdBytes md := by
  split
  · rename_i h
    rw [h, mdBytes]
  · rfl

/-- **An exported transaction replicates.** Take a committed transaction: a header of a known
version whose fields fit their Go types, whose metadata is that of a `TxMetadata`, with an id of at
least one, a `BlTxID` below it and as many entries as it counts, and entries whose keys and values
fit their lengths and whose expiry is an `int64`. Let `readValueAt` read every value, of `vLen`
bytes hashing to `hVal`, or none. Then `ExportTx` returns with `_valBsMux` free, and the parser of
`ReplicateTx` reads its bytes back to the header and to each entry's key, metadata (`nil` for
metadata with no attribute) and value, or the value's digest when the values were truncated, and
to the truncation flag, with nothing left over. The entries the replica builds from them have the
primary's digests, so their HTree has the primary's root `Eh`, and the header they are
precommitted under is the primary's. -/
theorem ExportTx_replicates (hw : hs.FixedWidth 32) {readDigest : List UInt8 → D}
    (hread : ∀ d, readDigest (hs.bytes d) = d) (read : TxEntry D → ValueRead) (trunc : Bool)
    (tx : Tx D) (he : tx.header.Encodable)
    (hmd : ∃ md : TxMetadata, md.Fits ∧ md.Bytes = .ok tx.header.Metadata) (hid : 1 ≤ tx.header.ID)
    (hbl : tx.header.BlTxID < tx.header.ID) (hn : tx.header.NEntries = tx.entries.length)
    (hne : tx.entries ≠ [])
    (hent : ∀ e ∈ tx.entries, e.key.length < 2 ^ 16 ∧ e.value.length < 2 ^ 32 ∧
      (∀ m ∈ e.md, m.Fits) ∧ read e = (if trunc then .eof else .value e.value) ∧
      (trunc = false → e.value.length = e.vLen ∧ e.hVal = hs.sum e.value)) :
    ∃ bs, ExportTx hs read false tx = some (.ok bs, false) ∧
      parseExportedTx hs readDigest bs = .ok (tx.header, tx.entries.map (fun e =>
        ⟨e.key, if mdBytes e.md = [] then none else e.md,
          if trunc then hs.bytes e.hVal else e.value, false, hs.zero⟩), trunc) ∧
      ∀ g, tx.header.TxEntryDigest hs = .ok g → ∀ vOff,
        (replicaSpecs readDigest trunc (tx.entries.map (fun e =>
          ⟨e.key, if mdBytes e.md = [] then none else e.md,
            if trunc then hs.bytes e.hVal else e.value, false, hs.zero⟩))).map
          (fun kv => g (precommitEntry hs vOff kv)) = tx.entries.map g := by
  -- what `ExportTx` writes: the header behind its length, the entries, the truncation flag
  obtain ⟨hdrBs, hhdr⟩ : ∃ hdrBs, tx.header.Bytes hs = .ok hdrBs := ⟨_, TxHeader.Bytes_eq hs he⟩
  have hhdrLen : hdrBs.length < 2 ^ 32 := by
    rw [TxHeader.Bytes_eq hs he, Except.ok.injEq] at hhdr
    have hmid : tx.header.middleBytes.length ≤ 2 + 268 + 4 := by
      rcases he.version with ⟨h0, -⟩ | ⟨h1, hmdlen, -⟩
      · simp [TxHeader.middleBytes, h0]
      · simp [TxHeader.middleBytes, h1]
        unfold TxHeader.maxTxMetadataLen at hmdlen
        omega
    rw [← hhdr]
    simp [hw.length_bytes]
    omega
  have hloop := exportLoop_exported hs read trunc tx.entries 0 ⟨be 4 hdrBs.length ++ hdrBs, false⟩
    (fun e he' => ⟨(hent e he').2.2.2.1, fun h => ((hent e he').2.2.2.2 h).1⟩) (by simp)
    (fun _ _ => rfl)
  rw [if_neg hne] at hloop
  obtain ⟨E, hE⟩ : ∃ E, E = (tx.entries.map fun e =>
      exportedEntry e (if trunc then hs.bytes e.hVal else e.value)).flatten := ⟨_, rfl⟩
  rw [← hE] at hloop
  refine ⟨be 4 hdrBs.length ++ hdrBs ++ E ++ be 2 1 ++ [if trunc then 1 else 0],
    by simp [ExportTx, hhdr, hloop], ?_, ?_⟩
  · -- the parser reads the header, then each entry, then the flag, and nothing is left
    have hslot : ∀ e ∈ tx.entries, e.key.length < 2 ^ 16 ∧
        (if trunc then hs.bytes e.hVal else e.value).length < 2 ^ 32 ∧ ∀ m ∈ e.md, m.Fits := by
      intro e he'
      obtain ⟨hk, hv, hmd', -⟩ := hent e he'
      refine ⟨hk, ?_, hmd'⟩
      cases trunc
      · simpa using hv
      · simp [hw.length_bytes]
    have hpos : 0 < tx.entries.length := List.length_pos_of_ne_nil hne
    have hNE : tx.header.NEntries.toNat = tx.entries.length := by rw [hn, Int.toNat_natCast]
    have h0 : (be 4 hdrBs.length ++ hdrBs ++ E ++ be 2 1 ++ [if trunc then 1 else 0]).drop 0 =
        be 4 hdrBs.length ++ (hdrBs ++ (E ++ (be 2 1 ++ [if trunc then 1 else 0]))) := by simp
    have hE4 := drop_add_of_drop (drop_add_of_drop h0)
    have hT := drop_add_of_drop hE4
    simp only [length_be, Nat.zero_add] at hE4 hT
    have hlen4 : uintAt 4 (be 4 hdrBs.length ++ hdrBs ++ E ++ be 2 1 ++ [if trunc then 1 else 0]) 0 =
        .ok hdrBs.length := by
      rw [uintAt_be (by simp) h0, Nat.mod_eq_of_lt hhdrLen]
    have hhdr' : TxHeader.ReadFrom readDigest (((be 4 hdrBs.length ++ hdrBs ++ E ++ be 2 1 ++
        [if trunc then 1 else 0]).drop 4).take hdrBs.length) = .ok tx.header := by
      simpa using TxHeader.ReadFrom_Bytes hs hw hread he hmd hid (by omega) hbl hhdr
    have hent' := readEntries_exported hs _ tx.entries _ _ hslot (by simp) (hE ▸ hE4)
    rw [← hE, ← hNE] at hent'
    rw [parseExportedTx_eq hs hlen4 (by simp) hhdr' hent',
      readTruncated_flag trunc (by simp; omega) hT]
    simp [bind, Except.bind, pure, Except.pure]
    omega
  · -- the replica's entries keep the key, the metadata's bytes and the value's hash
    intro g hg vOff
    rw [replicaSpecs, List.map_map, List.map_map]
    apply List.map_congr_left
    intro e he'
    obtain ⟨-, -, -, -, hval⟩ := hent e he'
    apply TxEntryDigest_congr hs hg
    · cases trunc <;> simp [precommitEntry, mdBytes_normalize]
    · cases trunc <;> simp [precommitEntry]
    · cases trunc
      · simp [precommitEntry, (hval rfl).2]
      · have hcopy : copyN 32 (hs.bytes e.hVal) = hs.bytes e.hVal := by
          simpa using copyN_append [] (hw.length_bytes e.hVal)
        simp [precommitEntry, hcopy, hread]

/-- A header of version 1 with one entry, its value read, under a one-byte checksum padded to
`sha256.Size` bytes. -/
theorem ExportTx_replicates_one_entry :
    ∃ bs, ExportTx (checksum.padded 31) (fun e => .value e.value) false
        ⟨⟨1, 0, 0, 0, 0, 1, [], 1, 0⟩, [⟨[1], none, 1, 0, 7, [7]⟩]⟩ = some (.ok bs, false) ∧
      parseExportedTx (checksum.padded 31) (fun b => b.getLastD 0) bs =
        .ok (⟨1, 0, 0, 0, 0, 1, [], 1, 0⟩, [⟨[1], none, [7], false, 0⟩], false) := by
  obtain ⟨bs, hexp, hparse, -⟩ := @ExportTx_replicates UInt8 (checksum.padded 31)
    (checksum_fixedWidth.padded 31) (fun b => b.getLastD 0)
    (fun d => by simp [Hasher.padded, checksum])
    (fun e => .value e.value) false ⟨⟨1, 0, 0, 0, 0, 1, [], 1, 0⟩, [⟨[1], none, 1, 0, 7, [7]⟩]⟩
    (by decide) ⟨⟨none, none⟩, by decide, rfl⟩ (by decide) (by decide) rfl (by simp) (by decide)
  exact ⟨bs, hexp, hparse⟩

end Immudb.Store
