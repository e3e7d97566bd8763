import Mathlib.Data.List.Nodup
import Immudb.Sql.Values

/-!
# `Immudb/Sql/RowCodec.lean` — stored values and the row format

`EncodeRawValue` (`catalog.go`) writes a value as a four-byte big-endian length followed by its
bytes: the string of a `VARCHAR` or a `BLOB`, eight bytes for an `INTEGER`, a `FLOAT` (the bits
`math.Float64bits` gives) and a `TIMESTAMP` (microseconds since the epoch, `TimeToInt64`), one
byte for a `BOOLEAN`, sixteen for a `UUID`, and what `encoding/json` prints for a `JSON` value.
With `nullable`, a `NULL` is an empty value. `decodeValue` reads a value back by the type of its
column; with `nullable` an empty value is `NULL`.

`SQLTx.encodeRowValue` (`stmt.go`) writes a row as the number of its values that are not `NULL`,
then for each column of the table that has one its id and its value. The `valueExtractor` of
`indexEntryMapperFor` (`engine.go`) reads the row back against the table as it is now. It
decodes the value of each column it knows, and it steps over the others by their length.

A row reads back as it was written (`valueExtractor_encodeRowValue`) when its strings are
shorter than `2 ^ 32` bytes, its timestamps within the range of `TimeToInt64`, and its `JSON`
values given back by `encoding/json` as printed. A timestamp outside that range overflows the
`int64` of microseconds and reads back as another instant (`TimeFromInt64_TimeToInt64_overflow`).

`encoding/json` is kept as two parameters, `marshal` and `unmarshal`. The implicit conversions of
`mayApplyImplicitConversion` are left out: each value is encoded in a column of its own type, and
any other pair fails with `ErrInvalidValue`. A `time.Time` is kept as its seconds and nanoseconds
since the Unix epoch.
-/

set_option autoImplicit false

namespace Immudb.Sql

open Bytes

/-- `EncIDLen`. -/
def EncIDLen : Nat := 4

/-- `SQLValueType`, every type a column of a stored row can have, and `AnyType`. -/
inductive StoredType where
  | IntegerType
  | BooleanType
  | VarcharType
  | UUIDType
  | BLOBType
  | JSONType
  | TimestampType
  | Float64Type
  | AnyType
  deriving DecidableEq, Repr

/-- `time.Time`: the seconds since the Unix epoch and the nanoseconds within the second. -/
structure Time where
  sec : Int
  nsec : Nat
  nsec_lt : nsec < 1000000000
  deriving DecidableEq

/-- `time.Unix(sec, nsec)`: nanoseconds outside `[0, 1e9)` are carried into the seconds,
rounding down. -/
def Time.Unix (sec nsec : Int) : Time :=
  ⟨sec + nsec / 1000000000, (nsec % 1000000000).toNat, by omega⟩

/-- `TimeToInt64(t)`: `t.Unix()*1e6 + int64(t.Nanosecond())/1e3`, in `int64` arithmetic. -/
def TimeToInt64 (t : Time) : Int64 := Int64.ofInt (t.sec * 1000000 + (t.nsec / 1000 : Nat))

/-- `TimeFromInt64(t)`: `time.Unix(t/1e6, (t%1e6)*1e3)`, with Go's division toward zero. -/
def TimeFromInt64 (t : Int64) : Time :=
  Time.Unix (t.toInt.tdiv 1000000) (t.toInt.tmod 1000000 * 1000)

/-- The microseconds since the epoch `TimeToInt64` means to count, before `int64` wraps them. -/
def Time.micros (t : Time) : Int := t.sec * 1000000 + (t.nsec / 1000 : Nat)

/-- The instants `TimeToInt64` writes as they are: within the `int64` range of microseconds, and
on a whole microsecond. -/
def Time.Storable (t : Time) : Prop := -2 ^ 63 ≤ t.micros ∧ t.micros < 2 ^ 63 ∧ t.nsec % 1000 = 0

instance (t : Time) : Decidable t.Storable := inferInstanceAs (Decidable (_ ∧ _ ∧ _))

/-- A value of a stored row, as its `TypedValue` holds it: a `FLOAT` by its bits, a `UUID` by its
sixteen bytes, a `JSON` value as `encoding/json` makes it (`J`). -/
inductive StoredValue (J : Type) where
  | Integer (val : Int64)
  | Boolean (val : Bool)
  | Varchar (val : List UInt8)
  | UUID (val : Vector UInt8 16)
  | Blob (val : List UInt8)
  | JSON (val : J)
  | Timestamp (val : Time)
  | Float64 (val : UInt64)
  | NullValue (t : StoredType)
  deriving DecidableEq

namespace StoredValue

variable {J : Type}

/-- `IsNull()`. -/
def IsNull : StoredValue J → Bool
  | .NullValue _ => true
  | _ => false

/-- `Type()`. -/
def type : StoredValue J → StoredType
  | .Integer _ => .IntegerType
  | .Boolean _ => .BooleanType
  | .Varchar _ => .VarcharType
  | .UUID _ => .UUIDType
  | .Blob _ => .BLOBType
  | .JSON _ => .JSONType
  | .Timestamp _ => .TimestampType
  | .Float64 _ => .Float64Type
  | .NullValue t => t

end StoredValue

section Codec

variable {J : Type} (marshal : J → Except SqlError (List UInt8))
  (unmarshal : List UInt8 → Except SqlError J)

/-- The value after its length: `len(v) + v`. -/
def lengthPrefixed (v : List UInt8) : List UInt8 := be EncLenLen v.length ++ v

/-- `EncodeRawValue(val, colType, maxLen, nullable)`, on a value of the column's type. -/
def EncodeRawValue (val : StoredValue J) (colType : StoredType) (maxLen : Int) (nullable : Bool) :
    Except SqlError (List UInt8) :=
  match val, colType with
  | .NullValue _, _ => if nullable then pure (be EncLenLen 0) else throw .invalidValue
  | .Varchar strVal, .VarcharType =>
    if maxLen > 0 ∧ strVal.length > maxLen then throw .maxLengthExceeded
    else pure (lengthPrefixed strVal)
  -- "map to unsigned integer space"
  | .Integer intVal, .IntegerType => pure (lengthPrefixed (be 8 intVal.toUInt64.toNat))
  | .Boolean boolVal, .BooleanType => pure (lengthPrefixed [if boolVal then 1 else 0])
  | .Blob blobVal, .BLOBType =>
    if maxLen > 0 ∧ blobVal.length > maxLen then throw .maxLengthExceeded
    else pure (lengthPrefixed blobVal)
  | .JSON val, .JSONType => do
    let rawJson ← marshal val
    pure (lengthPrefixed rawJson)
  | .UUID uuidVal, .UUIDType => pure (lengthPrefixed uuidVal.toList)
  | .Timestamp timeVal, .TimestampType =>
    pure (lengthPrefixed (be 8 (TimeToInt64 timeVal).toUInt64.toNat))
  | .Float64 floatBits, .Float64Type => pure (lengthPrefixed (be 8 floatBits.toNat))
  | _, _ => throw .invalidValue

/-- `EncodeValue(val, colType, maxLen)`. -/
def EncodeValue (val : StoredValue J) (colType : StoredType) (maxLen : Int) :
    Except SqlError (List UInt8) :=
  EncodeRawValue marshal val colType maxLen false

/-- `EncodeNullableValue(val, colType, maxLen)`. -/
def EncodeNullableValue (val : StoredValue J) (colType : StoredType) (maxLen : Int) :
    Except SqlError (List UInt8) :=
  EncodeRawValue marshal val colType maxLen true

/-- `DecodeValueLength(b)`: the length of the value and where it starts. -/
def DecodeValueLength (b : List UInt8) : Except SqlError (Nat × Nat) := do
  let some vlen := uintBE? EncLenLen b | throw .corruptedData
  if b.length < EncLenLen + vlen then throw .corruptedData
  pure (vlen, EncLenLen)

/-- `decodeValue(b, colType, nullable)`: the value and the number of bytes read. -/
def decodeValue (b : List UInt8) (colType : StoredType) (nullable : Bool) :
    Except SqlError (StoredValue J × Nat) := do
  let (vlen, voff) ← DecodeValueLength b
  if vlen = 0 ∧ nullable then return (.NullValue colType, voff)
  let v := (b.drop voff).take vlen
  match colType with
  | .VarcharType => pure (.Varchar v, voff + vlen)
  | .IntegerType =>
    if vlen ≠ 8 then throw .corruptedData
    pure (.Integer (ofBE v).toUInt64.toInt64, voff + vlen)
  | .BooleanType =>
    if vlen ≠ 1 then throw .corruptedData
    pure (.Boolean (v.headD 0 = 1), voff + 1)
  | .BLOBType => pure (.Blob v, voff + vlen)
  | .JSONType => do
    let val ← unmarshal v
    pure (.JSON val, voff + vlen)
  | .UUIDType =>
    if vlen ≠ 16 then throw .corruptedData
    -- `uuid.FromBytes` refuses anything but sixteen bytes
    if h : v.length = 16 then pure (.UUID ⟨v.toArray, by simpa using h⟩, voff + vlen)
    else throw .corruptedData
  | .TimestampType =>
    if vlen ≠ 8 then throw .corruptedData
    pure (.Timestamp (TimeFromInt64 (ofBE v).toUInt64.toInt64), voff + vlen)
  | .Float64Type =>
    if vlen ≠ 8 then throw .corruptedData
    pure (.Float64 (ofBE v).toUInt64, voff + vlen)
  | .AnyType => throw .corruptedData

/-- `DecodeValue(b, colType)`. -/
def DecodeValue (b : List UInt8) (colType : StoredType) : Except SqlError (StoredValue J × Nat) :=
  decodeValue unmarshal b colType false

/-- `DecodeNullableValue(b, colType)`. -/
def DecodeNullableValue (b : List UInt8) (colType : StoredType) :
    Except SqlError (StoredValue J × Nat) :=
  decodeValue unmarshal b colType true

/-! ### Rows -/

/-- `Column`, with the fields a stored row is written and read with. -/
structure StoredColumn where
  id : UInt32
  colType : StoredType
  maxLen : Nat

/-- `MaxLen()`. -/
def StoredColumn.MaxLen (col : StoredColumn) : Nat :=
  match col.colType with
  | .BooleanType => 1
  | .IntegerType => 8
  | .TimestampType => 8
  | .Float64Type => 8
  | .UUIDType => 16
  | _ => col.maxLen

/-- `Table`, with its columns, each id once. -/
structure StoredTable where
  cols : List StoredColumn
  ids_nodup : (cols.map StoredColumn.id).Nodup

/-- `GetColumnByID(id)`: `none` is `ErrColumnDoesNotExist`. -/
def StoredTable.GetColumnByID (table : StoredTable) (id : UInt32) : Option StoredColumn :=
  table.cols.find? (·.id = id)

/-- `valuesByColID`, a `map[uint32]TypedValue`: each id once. -/
structure ValuesByColID (J : Type) where
  entries : List (UInt32 × StoredValue J)
  ids_nodup : (entries.map Prod.fst).Nodup

/-- `valuesByColID[id]`. -/
def ValuesByColID.get? {J : Type} (m : ValuesByColID J) (id : UInt32) : Option (StoredValue J) :=
  (m.entries.find? (·.1 = id)).map Prod.snd

/-- The loop of `encodeRowValue` over the table's columns: the id and the value of each column
that has a value other than `NULL`. -/
def encodeRowLoop (valuesByColID : ValuesByColID J) : List StoredColumn → Except SqlError (List UInt8)
  | [] => pure []
  | col :: cols =>
    match valuesByColID.get? col.id with
    | some rval =>
      if rval.IsNull then encodeRowLoop valuesByColID cols
      else do
        let encVal ← EncodeValue marshal rval col.colType col.MaxLen
        let rest ← encodeRowLoop valuesByColID cols
        pure (be EncIDLen col.id.toNat ++ encVal ++ rest)
    | none => encodeRowLoop valuesByColID cols

/-- `SQLTx.encodeRowValue(valuesByColID, table)`. -/
def encodeRowValue (valuesByColID : ValuesByColID J) (table : StoredTable) :
    Except SqlError (List UInt8) := do
  -- null values are not serialized
  let encodedVals := (valuesByColID.entries.filter fun p => !p.2.IsNull).length
  let body ← encodeRowLoop marshal valuesByColID table.cols
  pure (be EncLenLen encodedVals ++ body)

/-- The loop of `valueExtractor`, `cols` values from `voff` on: the values it sets in
`valuesByColID`, in order, and the offset it stops at. A column the table no longer has is
stepped over by the length of its value. -/
def extractLoop (table : StoredTable) (value : List UInt8) :
    Nat → Nat → Except SqlError (List (UInt32 × StoredValue J) × Nat)
  | 0, voff => pure ([], voff)
  | cols + 1, voff => do
    -- the check `len(value) < EncIDLen` never fails here: the count filled four bytes
    let some b := sliceFrom? value voff | throw .indexOutOfRange
    let some colID := uintBE? EncIDLen b | throw .indexOutOfRange
    let voff := voff + EncIDLen
    match table.GetColumnByID colID.toUInt32 with
    | none =>
      let some b := sliceFrom? value voff | throw .indexOutOfRange
      let some vlen := uintBE? EncLenLen b | throw .indexOutOfRange
      extractLoop table value cols (voff + EncLenLen + vlen)
    | some col =>
      let some b := sliceFrom? value voff | throw .indexOutOfRange
      let (val, n) ← DecodeValue unmarshal b col.colType
      let (vals, voff) ← extractLoop table value cols (voff + n)
      pure ((colID.toUInt32, val) :: vals, voff)

/-- The `valueExtractor` of `indexEntryMapperFor(index, primaryIndex)`, reading against
`index.table`; a slice or a `Uint32` past the end is a runtime panic. -/
def valueExtractor (table : StoredTable) (value : List UInt8) :
    Except SqlError (List (UInt32 × StoredValue J) × Nat) := do
  let some cols := uintBE? EncLenLen value | throw .indexOutOfRange
  extractLoop unmarshal table value cols EncLenLen

end Codec

/-! ## Timestamps -/

/-- Go's truncating `t/1e6` and `t%1e6` make the same instant as the floor division. -/
theorem Time.Unix_tdiv_tmod (x : Int) :
    Time.Unix (x.tdiv 1000000) (x.tmod 1000000 * 1000) = Time.Unix (x / 1000000) (x % 1000000 * 1000) := by
  rw [Int.tdiv_eq_ediv, Int.tmod_eq_emod]
  split_ifs with h
  · simp
  · -- a negative `x` off the grid: Go's quotient is one higher, its remainder negative
    have hd : ¬ (1000000 : Int) ∣ x := fun hd => h (Or.inr hd)
    have hs : Int.sign 1000000 = 1 := rfl
    have ha : ((Int.natAbs 1000000 : Nat) : Int) = 1000000 := rfl
    simp only [Time.Unix, Time.mk.injEq]
    omega

theorem toInt_TimeToInt64 {t : Time} (h : -2 ^ 63 ≤ t.micros) (h' : t.micros < 2 ^ 63) :
    (TimeToInt64 t).toInt = t.micros := by
  rw [TimeToInt64, Int64.toInt_ofInt, ← Time.micros]
  unfold Int.bmod
  simp only [Int64.size]
  omega

/-- **An instant within range reads back as it was written.** -/
theorem TimeFromInt64_TimeToInt64 {t : Time} (ht : t.Storable) : TimeFromInt64 (TimeToInt64 t) = t := by
  obtain ⟨h, h', hus⟩ := ht
  rw [TimeFromInt64, toInt_TimeToInt64 h h', Time.Unix_tdiv_tmod]
  obtain ⟨sec, nsec, hn⟩ := t
  simp only [Time.Unix, Time.micros, Time.mk.injEq] at *
  omega

/-- **An instant reads back as it was written exactly when it is storable**: what comes back
has the microseconds of an `int64`, on a whole microsecond. -/
theorem TimeFromInt64_TimeToInt64_eq_iff (t : Time) :
    TimeFromInt64 (TimeToInt64 t) = t ↔ t.Storable := by
  refine ⟨fun h => ?_, TimeFromInt64_TimeToInt64⟩
  have hlo := Int64.le_toInt (TimeToInt64 t)
  have hhi := Int64.toInt_lt (TimeToInt64 t)
  rw [TimeFromInt64, Time.Unix_tdiv_tmod] at h
  generalize (TimeToInt64 t).toInt = w at h hlo hhi
  obtain ⟨sec, nsec, hn⟩ := t
  simp only [Time.Unix, Time.mk.injEq] at h
  simp only [Time.Storable, Time.micros]
  omega

/-! ## Values -/

section Values

variable {J : Type} {marshal : J → Except SqlError (List UInt8)}
  {unmarshal : List UInt8 → Except SqlError J}

/-- What `decodeValue` gives back of a value `EncodeRawValue` wrote: a timestamp goes through its
`int64` of microseconds, every other value comes back as it was. -/
def StoredValue.readBack : StoredValue J → StoredValue J
  | .Timestamp t => .Timestamp (TimeFromInt64 (TimeToInt64 t))
  | v => v

variable (marshal unmarshal) in
/-- A value `EncodeRawValue` writes in a column of its type and `maxLen` behind its true length:
not `NULL`, a string or a blob within the column and shorter than `2 ^ 32` bytes, a JSON value
that `marshal` prints in fewer than `2 ^ 32` bytes and `unmarshal` reads back. -/
def StoredValue.Writable (maxLen : Int) : StoredValue J → Prop
  | .Varchar s | .Blob s => ¬ (maxLen > 0 ∧ s.length > maxLen) ∧ s.length < 2 ^ 32
  | .JSON j => ∃ raw, marshal j = .ok raw ∧ raw.length < 2 ^ 32 ∧ unmarshal raw = .ok j
  | .NullValue _ => False
  | _ => True

/-- What `decodeValue` with `nullable` gives back of a value written with `nullable`: an empty
string or an empty blob is read as `NULL`, as its length `0` says. -/
def StoredValue.readBackNullable : StoredValue J → StoredValue J
  | .Varchar [] => .NullValue .VarcharType
  | .Blob [] => .NullValue .BLOBType
  | v => v.readBack

variable (marshal unmarshal) in
/-- A value `EncodeNullableValue` writes without a length limit, and `DecodeNullableValue`
reads back as `readBackNullable` of it: `NULL`, a JSON value that `marshal` prints in some
bytes, or a writable value. -/
def StoredValue.Spillable : StoredValue J → Prop
  | .NullValue _ => True
  | .JSON j => ∃ raw, marshal j = .ok raw ∧ raw ≠ [] ∧ raw.length < 2 ^ 32 ∧ unmarshal raw = .ok j
  | v => v.Writable marshal unmarshal (-1)

/-- Only a timestamp out of range, or off the microsecond, comes back changed. -/
theorem readBack_eq_self_iff (v : StoredValue J) :
    v.readBack = v ↔ ∀ t, v = .Timestamp t → t.Storable := by
  cases v with
  | Timestamp t => simp [StoredValue.readBack, TimeFromInt64_TimeToInt64_eq_iff]
  | _ => simp [StoredValue.readBack]

theorem length_lengthPrefixed (v : List UInt8) : (lengthPrefixed v).length = EncLenLen + v.length := by
  simp [lengthPrefixed]

theorem uintBE?_lengthPrefixed {v : List UInt8} (hv : v.length < 2 ^ 32) (rest : List UInt8) :
    uintBE? EncLenLen (lengthPrefixed v ++ rest) = some v.length := by
  rw [lengthPrefixed, List.append_assoc, uintBE?_append,
    Nat.mod_eq_of_lt (show v.length < 2 ^ (8 * EncLenLen) from hv)]

/-- The length `EncodeRawValue` writes is read back, with the value behind it. -/
theorem DecodeValueLength_lengthPrefixed {v : List UInt8} (hv : v.length < 2 ^ 32) (rest : List UInt8) :
    DecodeValueLength (lengthPrefixed v ++ rest) = .ok (v.length, EncLenLen) := by
  have hlen : ¬ (lengthPrefixed v ++ rest).length < EncLenLen + v.length := by
    simp [length_lengthPrefixed]
  simp only [DecodeValueLength, uintBE?_lengthPrefixed hv, if_neg hlen]
  rfl

@[simp] theorem take_drop_lengthPrefixed (v rest : List UInt8) :
    ((lengthPrefixed v ++ rest).drop EncLenLen).take v.length = v := by
  simp [lengthPrefixed, EncLenLen]

/-- Something written behind the length is not read as `NULL`. -/
theorem not_null_of_lt {p : List UInt8} {nullable : Bool}
    (h : nullable = true → EncLenLen < (lengthPrefixed p).length) :
    ¬ (p.length = 0 ∧ nullable = true) := by
  rintro ⟨h0, hn⟩
  have hlt := h hn
  rw [length_lengthPrefixed, h0] at hlt
  exact Nat.lt_irrefl _ hlt

/-- A writable value is written, behind its length. -/
theorem EncodeRawValue_writable {v : StoredValue J} {maxLen : Int} (nullable : Bool)
    (hv : v.Writable marshal unmarshal maxLen) :
    ∃ p, EncodeRawValue marshal v v.type maxLen nullable = .ok (lengthPrefixed p) ∧
      p.length < 2 ^ 32 := by
  cases v with
  | Varchar s | Blob s => exact ⟨s, by simp [EncodeRawValue, StoredValue.type, if_neg hv.1, pure, Except.pure], hv.2⟩
  | JSON j =>
    obtain ⟨raw, hraw, hlen, -⟩ := hv
    exact ⟨raw, by simp [EncodeRawValue, StoredValue.type, hraw, bind, Except.bind, pure, Except.pure], hlen⟩
  | NullValue t => exact hv.elim
  | Integer i => exact ⟨_, rfl, by simp⟩
  | Boolean b => exact ⟨_, rfl, by simp⟩
  | UUID u => exact ⟨_, rfl, by simp⟩
  | Timestamp t => exact ⟨_, rfl, by simp⟩
  | Float64 f => exact ⟨_, rfl, by simp⟩

/-- **A value reads back as `readBack` of it.** What `EncodeRawValue` writes of a writable value
in a column of its type, followed by anything, is read by `decodeValue` as the value (a timestamp
through its microseconds) over the bytes written; with `nullable`, provided something was written
behind the length. -/
theorem decodeValue_EncodeRawValue {v : StoredValue J} {maxLen : Int} {nullable : Bool}
    {enc : List UInt8} (hv : v.Writable marshal unmarshal maxLen)
    (henc : EncodeRawValue marshal v v.type maxLen nullable = .ok enc)
    (hnull : nullable = true → EncLenLen < enc.length) (rest : List UInt8) :
    decodeValue unmarshal (enc ++ rest) v.type nullable = .ok (v.readBack, enc.length) := by
  cases v with
  | Integer i =>
    obtain rfl := Except.ok.inj henc
    simp only [decodeValue, StoredValue.type, DecodeValueLength_lengthPrefixed
      (show (be 8 i.toUInt64.toNat).length < 2 ^ 32 by simp), bind, Except.bind, take_drop_lengthPrefixed]
    simp [ofBE_be, length_lengthPrefixed, EncLenLen, pure, Except.pure, StoredValue.readBack]
  | Boolean b =>
    obtain rfl := Except.ok.inj henc
    simp only [decodeValue, StoredValue.type, DecodeValueLength_lengthPrefixed
      (show [if b then (1 : UInt8) else 0].length < 2 ^ 32 by simp), bind, Except.bind,
      take_drop_lengthPrefixed]
    cases b <;> simp [length_lengthPrefixed, EncLenLen, pure, Except.pure, StoredValue.readBack]
  | Varchar s =>
    have henc' := henc
    simp only [EncodeRawValue, StoredValue.type, if_neg hv.1] at henc'
    obtain rfl := Except.ok.inj henc'
    simp only [decodeValue, StoredValue.type, DecodeValueLength_lengthPrefixed hv.2, bind,
      Except.bind, take_drop_lengthPrefixed]
    rw [if_neg (not_null_of_lt hnull)]
    simp [length_lengthPrefixed, pure, Except.pure, StoredValue.readBack]
  | UUID u =>
    obtain rfl := Except.ok.inj henc
    simp only [decodeValue, StoredValue.type, DecodeValueLength_lengthPrefixed
      (show u.toList.length < 2 ^ 32 by simp), bind, Except.bind, take_drop_lengthPrefixed]
    simp [length_lengthPrefixed, EncLenLen, pure, Except.pure, StoredValue.readBack, Vector.toList]
  | Blob s =>
    have henc' := henc
    simp only [EncodeRawValue, StoredValue.type, if_neg hv.1] at henc'
    obtain rfl := Except.ok.inj henc'
    simp only [decodeValue, StoredValue.type, DecodeValueLength_lengthPrefixed hv.2, bind,
      Except.bind, take_drop_lengthPrefixed]
    rw [if_neg (not_null_of_lt hnull)]
    simp [length_lengthPrefixed, pure, Except.pure, StoredValue.readBack]
  | JSON j =>
    -- the bytes `marshal` prints are those `unmarshal` reads back
    obtain ⟨raw, hraw, hlen, hun⟩ := hv
    simp only [EncodeRawValue, StoredValue.type, hraw, bind, Except.bind, pure, Except.pure] at henc
    obtain rfl := Except.ok.inj henc
    simp only [decodeValue, StoredValue.type, DecodeValueLength_lengthPrefixed hlen, bind,
      Except.bind, take_drop_lengthPrefixed]
    rw [if_neg (not_null_of_lt hnull)]
    simp [hun, length_lengthPrefixed, pure, Except.pure, StoredValue.readBack]
  | Timestamp t =>
    obtain rfl := Except.ok.inj henc
    simp only [decodeValue, StoredValue.type, DecodeValueLength_lengthPrefixed
      (show (be 8 (TimeToInt64 t).toUInt64.toNat).length < 2 ^ 32 by simp), bind, Except.bind,
      take_drop_lengthPrefixed]
    simp [ofBE_be, length_lengthPrefixed, EncLenLen, pure, Except.pure, StoredValue.readBack]
  | Float64 f =>
    obtain rfl := Except.ok.inj henc
    simp only [decodeValue, StoredValue.type, DecodeValueLength_lengthPrefixed
      (show (be 8 f.toNat).length < 2 ^ 32 by simp), bind, Except.bind, take_drop_lengthPrefixed]
    simp [ofBE_be, length_lengthPrefixed, EncLenLen, pure, Except.pure, StoredValue.readBack]
  | NullValue t => exact hv.elim

/-- Length `0` is `NULL` of the column's type, when `nullable`. -/
theorem DecodeNullableValue_empty (t : StoredType) (rest : List UInt8) :
    DecodeNullableValue unmarshal (be EncLenLen 0 ++ rest) t = .ok (.NullValue t, EncLenLen) := by
  have h := DecodeValueLength_lengthPrefixed (v := []) (by decide) rest
  simp only [lengthPrefixed, List.length_nil, List.append_nil] at h
  simp [DecodeNullableValue, decodeValue, h, bind, Except.bind, pure, Except.pure]

/-- A value written behind a length other than `0` is read back as `readBack` of it. -/
theorem spill_of_lt {v : StoredValue J} (enc : List UInt8) (hw : v.Writable marshal unmarshal (-1))
    (henc : EncodeNullableValue marshal v v.type (-1) = .ok enc) (hlt : EncLenLen < enc.length)
    (hrb : v.readBackNullable = v.readBack) :
    ∃ enc, EncodeNullableValue marshal v v.type (-1) = .ok enc ∧
      ∀ rest, DecodeNullableValue unmarshal (enc ++ rest) v.type = .ok (v.readBackNullable, enc.length) :=
  ⟨enc, henc, fun rest => hrb ▸ decodeValue_EncodeRawValue hw henc (fun _ => hlt) rest⟩

/-- **A value through `EncodeNullableValue` and `DecodeNullableValue`** comes back as
`readBackNullable` of it, over the bytes written. -/
theorem EncodeNullableValue_spillable {v : StoredValue J} (hv : v.Spillable marshal unmarshal) :
    ∃ enc, EncodeNullableValue marshal v v.type (-1) = .ok enc ∧
      ∀ rest, DecodeNullableValue unmarshal (enc ++ rest) v.type = .ok (v.readBackNullable, enc.length) := by
  cases v with
  | NullValue t => exact ⟨be EncLenLen 0, rfl, fun rest => DecodeNullableValue_empty t rest⟩
  | Varchar s =>
    cases s with
    | nil => exact ⟨be EncLenLen 0, rfl, fun rest => DecodeNullableValue_empty _ rest⟩
    | cons b s =>
      exact spill_of_lt (lengthPrefixed (b :: s)) hv (by simp [EncodeNullableValue, EncodeRawValue,
        StoredValue.type, pure, Except.pure]) (by simp [length_lengthPrefixed]) rfl
  | Blob s =>
    cases s with
    | nil => exact ⟨be EncLenLen 0, rfl, fun rest => DecodeNullableValue_empty _ rest⟩
    | cons b s =>
      exact spill_of_lt (lengthPrefixed (b :: s)) hv (by simp [EncodeNullableValue, EncodeRawValue,
        StoredValue.type, pure, Except.pure]) (by simp [length_lengthPrefixed]) rfl
  | JSON j =>
    obtain ⟨raw, hraw, hne, hlen, hun⟩ := hv
    refine spill_of_lt (lengthPrefixed raw) ⟨raw, hraw, hlen, hun⟩ (by simp [EncodeNullableValue,
      EncodeRawValue, StoredValue.type, hraw, bind, Except.bind, pure, Except.pure]) ?_ rfl
    simpa [length_lengthPrefixed] using List.length_pos_of_ne_nil hne
  | Integer i => exact spill_of_lt _ trivial rfl (by simp [length_lengthPrefixed, EncLenLen]) rfl
  | Boolean b => exact spill_of_lt _ trivial rfl (by simp [length_lengthPrefixed, EncLenLen]) rfl
  | UUID u => exact spill_of_lt _ trivial rfl (by simp [length_lengthPrefixed, EncLenLen]) rfl
  | Timestamp t => exact spill_of_lt _ trivial rfl (by simp [length_lengthPrefixed, EncLenLen]) rfl
  | Float64 f => exact spill_of_lt _ trivial rfl (by simp [length_lengthPrefixed, EncLenLen]) rfl

end Values

/-! ## Rows -/

section Rows

variable {J : Type} {marshal : J → Except SqlError (List UInt8)}
  {unmarshal : List UInt8 → Except SqlError J}

/-- The values `encodeRowValue` writes: each column's that is not `NULL`, in the order of the
table's columns. -/
def rowValues (m : ValuesByColID J) (cols : List StoredColumn) : List (StoredColumn × StoredValue J) :=
  cols.filterMap fun col => (m.get? col.id).bind fun v => if v.IsNull then none else some (col, v)

/-- What a reader of the table `t'` takes of such values: those of the columns it knows, by id. -/
def knownValues (t' : StoredTable) (vals : List (StoredColumn × StoredValue J)) :
    List (UInt32 × StoredValue J) :=
  (vals.filter fun cv => (t'.GetColumnByID cv.1.id).isSome).map fun cv => (cv.1.id, cv.2)

theorem toUInt32_mod (id : UInt32) : (id.toNat % 2 ^ (8 * EncIDLen)).toUInt32 = id := by
  simp [EncIDLen]

/-- The map holds `v` at `id` exactly when it has the entry. -/
theorem ValuesByColID.get?_eq_some_iff {m : ValuesByColID J} {id : UInt32} {v : StoredValue J} :
    m.get? id = some v ↔ (id, v) ∈ m.entries := by
  constructor
  · intro h
    obtain ⟨e, he, rfl⟩ := Option.map_eq_some_iff.mp h
    have hid : e.1 = id := by simpa using List.find?_some he
    rw [← hid]
    exact List.mem_of_find?_eq_some he
  · intro h
    cases hf : m.entries.find? (·.1 = id) with
    | none => exact absurd h (by simpa using List.find?_eq_none.mp hf (id, v))
    | some e =>
      have hid : e.1 = id := by simpa using List.find?_some hf
      have he : e = (id, v) := List.inj_on_of_nodup_map m.ids_nodup (List.mem_of_find?_eq_some hf) h hid
      simp [get?, hf, he]

theorem mem_rowValues {m : ValuesByColID J} {cols : List StoredColumn} {c : StoredColumn}
    {v : StoredValue J} :
    (c, v) ∈ rowValues m cols ↔ c ∈ cols ∧ m.get? c.id = some v ∧ v.IsNull = false := by
  simp only [rowValues, List.mem_filterMap, Option.bind_eq_some_iff]
  constructor
  · rintro ⟨c', hc', w, hw, hsome⟩
    split at hsome
    · cases hsome
    · cases hsome
      exact ⟨hc', hw, eq_false_of_ne_true ‹_›⟩
  · rintro ⟨hc, hw, hn⟩
    exact ⟨c, hc, v, hw, by simp [hn]⟩

/-- The ids of the values written are some of the table's, in its order. -/
theorem sublist_rowValues (m : ValuesByColID J) :
    ∀ cols : List StoredColumn,
      List.Sublist ((rowValues m cols).map fun cv => cv.1.id) (cols.map StoredColumn.id)
  | [] => by simp [rowValues]
  | col :: cols => by
    have ih := sublist_rowValues m cols
    cases hget : m.get? col.id with
    | none => simpa [rowValues, hget] using ih.cons col.id
    | some v =>
      cases hn : v.IsNull with
      | true => simpa [rowValues, hget, hn] using ih.cons col.id
      | false => simpa [rowValues, hget, hn] using ih.cons_cons col.id

/-- **The count `encodeRowValue` writes is the number of values it writes**, when every value of
the map is of a column of the table: both count the ids of the values that are not `NULL`. -/
theorem count_eq_length_rowValues {m : ValuesByColID J} {t : StoredTable}
    (hkeys : ∀ p ∈ m.entries, ∃ c ∈ t.cols, c.id = p.1) :
    (m.entries.filter fun p => !p.2.IsNull).length = (rowValues m t.cols).length := by
  have hA : ((m.entries.filter fun p => !p.2.IsNull).map Prod.fst).Nodup :=
    (List.filter_sublist.map Prod.fst).nodup m.ids_nodup
  have hB : ((rowValues m t.cols).map fun cv => cv.1.id).Nodup :=
    (sublist_rowValues m t.cols).nodup t.ids_nodup
  have hmem : ∀ id, id ∈ (m.entries.filter fun p => !p.2.IsNull).map Prod.fst ↔
      id ∈ (rowValues m t.cols).map fun cv => cv.1.id := by
    intro id
    simp only [List.mem_map, List.mem_filter, Prod.exists, Bool.not_eq_eq_eq_not, Bool.not_true]
    constructor
    · rintro ⟨id', v, ⟨hmemv, hn⟩, rfl⟩
      obtain ⟨c, hc, hcid⟩ := hkeys _ hmemv
      refine ⟨c, v, mem_rowValues.mpr ⟨hc, ?_, hn⟩, hcid⟩
      rw [hcid]
      exact ValuesByColID.get?_eq_some_iff.mpr hmemv
    · rintro ⟨c, v, hcv, rfl⟩
      obtain ⟨-, hget, hn⟩ := mem_rowValues.mp hcv
      exact ⟨c.id, v, ⟨ValuesByColID.get?_eq_some_iff.mp hget, hn⟩, rfl⟩
  have hperm := (List.perm_ext_iff_of_nodup hA hB).mpr hmem
  simpa using hperm.length_eq

variable (marshal unmarshal) in
/-- The values a row may hold in the columns `cols` of the writer, against the reader `t'`: of
the column's type and writable, in a column `t'` gives the same type if it knows it. -/
def RowFits (m : ValuesByColID J) (t' : StoredTable) (cols : List StoredColumn) : Prop :=
  ∀ c ∈ cols, ∀ v, m.get? c.id = some v → v.IsNull = false →
    v.type = c.colType ∧ v.Writable marshal unmarshal c.MaxLen ∧
      ∀ c', t'.GetColumnByID c.id = some c' → c'.colType = c.colType

/-- **The loop of the extractor reads what the loop of `encodeRowValue` wrote**, wherever it
stands in the buffer: the values of the columns the reader knows, each as `readBack` of it, and
the offset right after them. -/
theorem extractLoop_encodeRowLoop {m : ValuesByColID J} {t' : StoredTable} :
    ∀ {cols : List StoredColumn}, RowFits marshal unmarshal m t' cols →
      ∃ body, encodeRowLoop marshal m cols = .ok body ∧
        ∀ {value post : List UInt8} {voff : Nat}, value.drop voff = body ++ post →
          extractLoop unmarshal t' value (rowValues m cols).length voff =
            .ok ((knownValues t' (rowValues m cols)).map (fun p => (p.1, p.2.readBack)),
              voff + body.length)
  | [], _ => ⟨[], rfl, fun _ => by simp [rowValues, knownValues, extractLoop, pure, Except.pure]⟩
  | col :: cols, hfits => by
    obtain ⟨body, hbody, hext⟩ :=
      extractLoop_encodeRowLoop (fun c hc => hfits c (List.mem_cons_of_mem _ hc))
    cases hget : m.get? col.id with
    | none =>
      have hrow : rowValues m (col :: cols) = rowValues m cols := by simp [rowValues, hget]
      refine ⟨body, by simp [encodeRowLoop, hget, hbody], fun h => ?_⟩
      rw [hrow]
      exact hext h
    | some v =>
      cases hn : v.IsNull with
      | true =>
        have hrow : rowValues m (col :: cols) = rowValues m cols := by simp [rowValues, hget, hn]
        refine ⟨body, by simp [encodeRowLoop, hget, hn, hbody], fun h => ?_⟩
        rw [hrow]
        exact hext h
      | false =>
        obtain ⟨htype, hw, hsame⟩ := hfits col List.mem_cons_self v hget hn
        obtain ⟨p, henc, hp⟩ := EncodeRawValue_writable false hw
        have hrow : rowValues m (col :: cols) = (col, v) :: rowValues m cols := by
          simp [rowValues, hget, hn]
        refine ⟨be EncIDLen col.id.toNat ++ lengthPrefixed p ++ body, ?_, fun {value post voff} h => ?_⟩
        · rw [htype] at henc
          simp [encodeRowLoop, hget, hn, EncodeValue, henc, hbody, bind, Except.bind, pure, Except.pure]
        · have hvoff : voff ≤ value.length := by
            by_contra hlt
            rw [List.drop_eq_nil_of_le (by omega)] at h
            have hlen := congrArg List.length h
            simp [EncIDLen] at hlen
            omega
          rw [hrow, List.length_cons]
          -- the id, then the value from `voff + EncIDLen` on
          have h0 : value.drop voff = be EncIDLen col.id.toNat ++ (lengthPrefixed p ++ (body ++ post)) := by
            rw [h]
            simp only [List.append_assoc]
          have h4 : value.drop (voff + EncIDLen) = lengthPrefixed p ++ (body ++ post) := by
            have h' := drop_add_of_drop h0
            rwa [length_be] at h'
          have hvoff4 : voff + EncIDLen ≤ value.length := by
            have hl := le_length_of_drop hvoff h0
            simp only [length_be] at hl
            omega
          have hnext : value.drop (voff + EncIDLen + (lengthPrefixed p).length) = body ++ post :=
            drop_add_of_drop h4
          simp only [extractLoop, sliceFrom?_of_drop hvoff h0, uintBE?_append, toUInt32_mod,
            sliceFrom?_of_drop hvoff4 h4]
          cases hc : t'.GetColumnByID col.id with
          | none =>
            -- a column the reader does not know: stepped over by its length
            have hskip : knownValues t' ((col, v) :: rowValues m cols) = knownValues t' (rowValues m cols) := by
              simp [knownValues, hc]
            simp only [uintBE?_lengthPrefixed hp]
            rw [hskip, hext (by rw [← hnext, length_lengthPrefixed, Nat.add_assoc])]
            simp [length_lengthPrefixed]
            omega
          | some c' =>
            have hdec := decodeValue_EncodeRawValue hw henc nofun (body ++ post)
            rw [htype, ← hsame c' hc] at hdec
            have hkeep : knownValues t' ((col, v) :: rowValues m cols) =
                (col.id, v) :: knownValues t' (rowValues m cols) := by
              simp [knownValues, hc]
            simp only [DecodeValue, hdec, bind, Except.bind, hext hnext, pure, Except.pure, hkeep]
            simp
            omega

/-- **A row reads back as it was written**, each value as `readBack` of it. The reader of a
table `t'` that gives the columns it shares with the writer's table `t` their types takes the
values of the columns it knows, steps over the others by their length, and stops at the end of
the buffer. -/
theorem valueExtractor_encodeRowValue {m : ValuesByColID J} {t t' : StoredTable}
    (hkeys : ∀ p ∈ m.entries, ∃ c ∈ t.cols, c.id = p.1) (hcount : m.entries.length < 2 ^ 32)
    (hfits : RowFits marshal unmarshal m t' t.cols) :
    ∃ enc, encodeRowValue marshal m t = .ok enc ∧
      valueExtractor unmarshal t' enc =
        .ok ((knownValues t' (rowValues m t.cols)).map (fun p => (p.1, p.2.readBack)), enc.length) := by
  obtain ⟨body, hbody, hext⟩ := extractLoop_encodeRowLoop hfits
  -- the count, and the values behind it
  have hc := count_eq_length_rowValues hkeys
  have hlt : (rowValues m t.cols).length < 2 ^ (8 * EncLenLen) :=
    hc ▸ lt_of_le_of_lt (List.length_filter_le _ _) hcount
  have hdrop : (be EncLenLen (rowValues m t.cols).length ++ body).drop EncLenLen = body ++ [] := by
    rw [List.drop_left' (length_be _ _), List.append_nil]
  refine ⟨be EncLenLen (rowValues m t.cols).length ++ body,
    by simp [encodeRowValue, hbody, hc, bind, Except.bind, pure, Except.pure], ?_⟩
  simp only [valueExtractor, uintBE?_append, Nat.mod_eq_of_lt hlt]
  rw [hext hdrop, List.length_append, length_be]

/-- **A row reads back unchanged exactly when its timestamps are storable.** Under the
conditions of `valueExtractor_encodeRowValue`, the extractor gives back the values of the columns
it knows as they were written, over the whole buffer, if and only if every timestamp among them
is within the `int64` range of microseconds and on a whole microsecond. -/
theorem valueExtractor_encodeRowValue_iff {m : ValuesByColID J} {t t' : StoredTable}
    (hkeys : ∀ p ∈ m.entries, ∃ c ∈ t.cols, c.id = p.1) (hcount : m.entries.length < 2 ^ 32)
    (hfits : RowFits marshal unmarshal m t' t.cols) :
    ∃ enc, encodeRowValue marshal m t = .ok enc ∧
      (valueExtractor unmarshal t' enc = .ok (knownValues t' (rowValues m t.cols), enc.length) ↔
        ∀ p ∈ knownValues t' (rowValues m t.cols), ∀ time, p.2 = .Timestamp time → time.Storable) := by
  obtain ⟨enc, henc, hext⟩ := valueExtractor_encodeRowValue hkeys hcount hfits
  refine ⟨enc, henc, ?_⟩
  rw [hext, Except.ok.injEq, Prod.mk.injEq, and_iff_left rfl]
  -- the values are kept exactly when `readBack` keeps each one
  have hmap := List.map_eq_map_iff (f := fun p : UInt32 × StoredValue J => (p.1, p.2.readBack))
    (g := id) (l := knownValues t' (rowValues m t.cols))
  rw [List.map_id] at hmap
  rw [hmap]
  refine forall₂_congr fun p _ => ?_
  simp [Prod.ext_iff, readBack_eq_self_iff]

/-- A table of one `TIMESTAMP` column holding `CAST(10000000000000 AS TIMESTAMP)`: the row is
written, and read back with another instant. -/
theorem valueExtractor_encodeRowValue_timestamp_overflow :
    let col : StoredColumn := ⟨1, .TimestampType, 0⟩
    let t : StoredTable := ⟨[col], by decide⟩
    let m : ValuesByColID Unit := ⟨[(1, .Timestamp ⟨10000000000000, 0, by decide⟩)], by decide⟩
    ∃ enc, encodeRowValue (fun _ => .ok []) m t = .ok enc ∧
      valueExtractor (fun _ => .ok ()) t enc ≠ .ok (knownValues t (rowValues m t.cols), enc.length) := by
  intro col t m
  have hfits : RowFits (fun _ => .ok []) (fun _ => .ok ()) m t t.cols := by
    intro c hc v hv _
    obtain rfl : c = col := List.mem_singleton.mp hc
    obtain rfl : v = .Timestamp ⟨10000000000000, 0, by decide⟩ := by
      simpa [m, col, ValuesByColID.get?] using hv.symm
    refine ⟨rfl, trivial, fun c' hc' => ?_⟩
    obtain rfl : c' = col := by simpa [t, col, StoredTable.GetColumnByID] using hc'.symm
    rfl
  obtain ⟨enc, henc, hiff⟩ := valueExtractor_encodeRowValue_iff
    (fun p hp => ⟨col, List.mem_singleton_self col, by rw [List.mem_singleton.mp hp]⟩)
    (by decide) hfits
  refine ⟨enc, henc, fun h => ?_⟩
  have hst := hiff.mp h (1, .Timestamp ⟨10000000000000, 0, by decide⟩) (by decide) _ rfl
  exact absurd hst (by decide)

end Rows

end Immudb.Sql
