import Mathlib.Data.Rat.Defs
import Immudb.Sql.Catalog

/-!
# `Immudb/Sql/Values.lean` — typed values: comparison, implicit conversion, keys

`embedded/sql`: the values an expression reduces to (`TypedValue`, `stmt.go`), `Compare` between
them, the implicit conversions `mayApplyImplicitConversion` makes (`implicit_conversion.go`,
`type_conversion.go`), and `EncodeValueAsKey` (`catalog.go`), which writes a value into an index
key so that keys sort as values do.

Two conversions meet in an index scan. An `INTEGER` compared with a `FLOAT` is compared as a
`float64`, and Go's `float64(int64)` rounds to the nearest number with 53 significant bits
(`float64OfInt`). A `FLOAT` written into the key of an `INTEGER` column goes the other way, by
`int64(float64)`, which truncates (`int64OfFloat`). Above `2 ^ 53` the two disagree.

Values that fit a column (`Fits`: `NULL`, or of the column's type) compare as their keys do
(`Compare_fits`): that is what makes a range of values a range of keys.

Covered: `INTEGER`, `FLOAT`, `VARCHAR` and `BOOLEAN` values and `NULL`; columns of type `INTEGER`,
`BOOLEAN` and `VARCHAR` (`ColType`). A `FLOAT` is the exact value of a finite `float64`.
`strconv.ParseFloat`, which a string compared with a `FLOAT` goes through, is a parameter.
Timestamps, UUIDs, blobs and JSON are left out, and so are `FLOAT` columns, whose keys are the
bits of the number.
-/

set_option autoImplicit false

namespace Immudb.Sql

open Bytes

/-- `SQLValueType`, for the types modelled. -/
inductive SQLValueType where
  | IntegerType
  | BooleanType
  | VarcharType
  | Float64Type
  | AnyType
  deriving DecidableEq, Repr

/-- The type of a column. -/
inductive ColType where
  | IntegerType
  | BooleanType
  | VarcharType
  deriving DecidableEq, Repr

/-- A column type as a value type. -/
def ColType.toSQL : ColType → SQLValueType
  | .IntegerType => .IntegerType
  | .BooleanType => .BooleanType
  | .VarcharType => .VarcharType

/-- A Go value of the dynamic type `RawValue()` returns. -/
inductive GoValue where
  | int64 (v : Int64)
  | float64 (v : ℚ)
  | string (s : List UInt8)
  | bool (b : Bool)
  | nil
  deriving DecidableEq

/-- `TypedValue`. A `Varchar` holds the bytes of its string; Go's `Bool` is `Boolean`, the name
`Bool` being Lean's. -/
inductive TypedValue where
  | Integer (val : Int64)
  | Float64 (val : ℚ)
  | Varchar (val : List UInt8)
  | Boolean (val : Bool)
  | NullValue (t : SQLValueType)
  deriving DecidableEq

namespace TypedValue

/-- `Type()`. -/
def type : TypedValue → SQLValueType
  | .Integer _ => .IntegerType
  | .Float64 _ => .Float64Type
  | .Varchar _ => .VarcharType
  | .Boolean _ => .BooleanType
  | .NullValue t => t

/-- `IsNull()`. -/
def IsNull : TypedValue → Bool
  | .NullValue _ => true
  | _ => false

/-- `RawValue()`. -/
def RawValue : TypedValue → GoValue
  | .Integer v => .int64 v
  | .Float64 v => .float64 v
  | .Varchar v => .string v
  | .Boolean v => .bool v
  | .NullValue _ => .nil

end TypedValue

/-- `CmpOperator`. -/
inductive CmpOperator where
  | EQ
  | NE
  | LT
  | LE
  | GT
  | GE
  deriving DecidableEq, Repr

/-- `cmpSatisfiesOp`. -/
def cmpSatisfiesOp (cmp : Int) (op : CmpOperator) : Bool :=
  if cmp = 0 then op = .EQ || op = .LE || op = .GE
  else if cmp < 0 then op = .NE || op = .LT || op = .LE
  else op = .NE || op = .GT || op = .GE

theorem pure_eq_ok {α : Type} (a : α) : (pure a : Except SqlError α) = .ok a := rfl

/-- A computation that goes on after a step succeeds only if the step does. -/
theorem bind_eq_ok {α β : Type} {x : Except SqlError α} {f : α → Except SqlError β} {b : β} :
    x >>= f = .ok b ↔ ∃ a, x = .ok a ∧ f a = .ok b := by
  cases x <;> simp [bind, Except.bind]

theorem map_eq_ok {α β : Type} {x : Except SqlError α} {f : α → β} {b : β} :
    f <$> x = .ok b ↔ ∃ a, x = .ok a ∧ f a = b := by
  cases x <;> simp [Functor.map, Except.map]

/-! ## 1. Conversions -/

/-- `float64(v)` of an `int64`: the nearest number with `53` significant bits, and of two the
one whose last kept bit is `0`. -/
def float64OfInt (v : Int64) : ℚ :=
  let a := v.toInt.natAbs
  -- the bits below the `53` highest are rounded off
  let s := a.log2 + 1 - 53
  let q := a / 2 ^ s
  let r := a % 2 ^ s
  let q := if 2 * r > 2 ^ s ∨ (2 * r = 2 ^ s ∧ q % 2 = 1) then q + 1 else q
  ((v.toInt.sign * (q * 2 ^ s : Nat) : Int) : ℚ)

/-- `int64(f)`: truncation toward zero. Out of range Go leaves the result to the platform; this
is amd64's, the least `int64`. -/
def int64OfFloat (f : ℚ) : Int64 :=
  let t := f.num.tdiv f.den
  if -2 ^ 63 ≤ t ∧ t < 2 ^ 63 then Int64.ofInt t else Int64.ofInt (-2 ^ 63)

/-- `strconv.ParseInt(s, 10, 64)`: a sign, then decimal digits, within `int64`. -/
def parseInt (s : List UInt8) : Option Int64 :=
  let (neg, digits) : Bool × List UInt8 := match s with
    | 43 :: rest => (false, rest)
    | 45 :: rest => (true, rest)
    | _ => (false, s)
  if digits.isEmpty || !digits.all (fun c => 48 ≤ c && c ≤ 57) then none
  else
    let un := digits.foldl (fun acc c => acc * 10 + (c.toNat - 48)) (0 : Nat)
    if neg then (if un ≤ 2 ^ 63 then some (Int64.ofInt (-(un : Int))) else none)
    else if un < 2 ^ 63 then some (Int64.ofInt un) else none

section Compare

variable (parseFloat : List UInt8 → Option ℚ)

/-- `mayApplyImplicitConversion(val, requiredColumnType)`. -/
def mayApplyImplicitConversion (val : GoValue) (requiredColumnType : SQLValueType) :
    Except SqlError GoValue :=
  match requiredColumnType, val with
  | _, .nil => pure .nil
  | .Float64Type, .float64 _ => pure val
  | .Float64Type, .int64 v => pure (.float64 (float64OfInt v))
  | .Float64Type, .string s =>
    match parseFloat s with
    | some f => pure (.float64 f)
    | none => throw .unsupportedCast
  | .IntegerType, .int64 _ => pure val
  | .IntegerType, .float64 f => pure (.int64 (int64OfFloat f))
  | .IntegerType, .string s =>
    match parseInt s with
    | some v => pure (.int64 v)
    | none => throw .unsupportedCast
  -- no implicit conversion rule found, do not convert at all
  | _, _ => pure val

/-- `Float64.Compare(val)`. -/
def compareFloat64 (v : ℚ) (val : TypedValue) : Except SqlError Int := do
  match ← mayApplyImplicitConversion parseFloat val.RawValue .Float64Type with
  | .nil => pure 1
  | .float64 rval => pure (cmpOf v rval)
  | _ => throw .notComparableValues

/-- `v.Compare(val)`. -/
def TypedValue.Compare : TypedValue → TypedValue → Except SqlError Int
  | .NullValue t, val =>
    if t ≠ .AnyType ∧ val.type ≠ .AnyType ∧ t ≠ val.type then throw .notComparableValues
    else if val.RawValue = .nil then pure 0 else pure (-1)
  | .Integer v, val =>
    if val.IsNull then pure 1
    else match val with
      | .Float64 r => (fun c => -c) <$> compareFloat64 parseFloat r (.Integer v)
      | .Integer rval => pure (cmpOf v.toInt rval.toInt)
      | _ => throw .notComparableValues
  | .Float64 v, val => compareFloat64 parseFloat v val
  | .Varchar v, val =>
    if val.IsNull then pure 1
    else match val with
      | .Varchar rval => pure (cmpOf v rval)
      | _ => throw .notComparableValues
  | .Boolean v, val =>
    if val.IsNull then pure 1
    else match val with
      | .Boolean rval => pure (if v = rval then 0 else if v then 1 else -1)
      | _ => throw .notComparableValues

/-! ## 2. Keys -/

/-- `KeyValPrefixNull`. -/
def KeyValPrefixNull : UInt8 := 0x20

/-- `KeyValPrefixNotNull`. -/
def KeyValPrefixNotNull : UInt8 := 0x80

/-- `KeyValPrefixUpperBound`. -/
def KeyValPrefixUpperBound : UInt8 := 0xFF

/-- `MaxKeyLen`. -/
def MaxKeyLen : Nat := 512

/-- `EncLenLen`. -/
def EncLenLen : Nat := 4

/-- `EncodeRawValueAsKey(val, colType, maxLen)`: the key and the length of the value. -/
def EncodeRawValueAsKey (val : GoValue) (colType : ColType) (maxLen : Nat) :
    Except SqlError (List UInt8 × Nat) := do
  if maxLen = 0 then throw .invalidValue
  if maxLen > MaxKeyLen then throw .maxKeyLengthExceeded
  let convVal ← mayApplyImplicitConversion parseFloat val colType.toSQL
  if convVal = .nil then return ([KeyValPrefixNull], 0)
  match colType with
  | .VarcharType =>
    let .string strVal := convVal | throw .invalidValue
    if strVal.length > maxLen then throw .maxLengthExceeded
    -- notnull + value + padding + len(value)
    return (KeyValPrefixNotNull :: strVal ++ List.replicate (maxLen - strVal.length) 0 ++
      be EncLenLen strVal.length, strVal.length)
  | .IntegerType =>
    if maxLen ≠ 8 then throw .corruptedData
    let .int64 intVal := convVal | throw .invalidValue
    -- map to unsigned integer space for lexical sorting order
    return (KeyValPrefixNotNull :: flipSign (beInt 8 intVal.toInt), 8)
  | .BooleanType =>
    if maxLen ≠ 1 then throw .corruptedData
    let .bool boolVal := convVal | throw .invalidValue
    return ([KeyValPrefixNotNull, if boolVal then 1 else 0], 1)

/-- `EncodeValueAsKey(val, colType, maxLen)`. -/
def EncodeValueAsKey (val : TypedValue) (colType : ColType) (maxLen : Nat) :
    Except SqlError (List UInt8 × Nat) :=
  EncodeRawValueAsKey parseFloat val.RawValue colType maxLen

/-! ## 3. The values of a column sort as their keys -/

/-- `Column`, with the fields the index scan reads. -/
structure Column where
  id : Nat
  colName : String
  colType : ColType
  maxLen : Nat

/-- `MaxLen()`. -/
def Column.MaxLen (col : Column) : Nat :=
  match col.colType with
  | .BooleanType => 1
  | .IntegerType => 8
  | .VarcharType => col.maxLen

/-- A column an index can hold: `CREATE INDEX` refuses a longer one. -/
def Column.Indexable (col : Column) : Prop := 0 < col.MaxLen ∧ col.MaxLen ≤ MaxKeyLen

/-- `v` can stand in `col`: `NULL`, or a value of the column's type, a string no longer than the
column, of a column no longer than a key. -/
def Fits (col : Column) : TypedValue → Prop
  | .NullValue t => t = col.colType.toSQL ∨ t = .AnyType
  | .Integer _ => col.colType = .IntegerType
  | .Varchar s => col.colType = .VarcharType ∧ s.length ≤ col.MaxLen ∧ col.MaxLen ≤ MaxKeyLen
  | .Boolean _ => col.colType = .BooleanType
  | .Float64 _ => False

/-- The key of a value that fits `col`, written as the order it has: a signed integer as
`v + 2 ^ 63`, a string padded to the column and followed by its length. -/
def keyOf (col : Column) : TypedValue → List UInt8
  | .NullValue _ => [KeyValPrefixNull]
  | .Integer v => KeyValPrefixNotNull :: be 8 (v.toInt + 2 ^ 63).toNat
  | .Varchar s =>
    KeyValPrefixNotNull :: s ++ List.replicate (col.MaxLen - s.length) 0 ++ be EncLenLen s.length
  | .Boolean b => [KeyValPrefixNotNull, if b then 1 else 0]
  | .Float64 _ => []

theorem keyOf_null (col : Column) (t : SQLValueType) :
    keyOf col (.NullValue t) = [KeyValPrefixNull] := rfl

/-- A value that fits a column is written as `keyOf` says. -/
theorem EncodeValueAsKey_fits {col : Column} {v : TypedValue} (hc : col.Indexable)
    (hv : Fits col v) :
    ∃ n, EncodeValueAsKey parseFloat v col.colType col.MaxLen = .ok (keyOf col v, n) := by
  obtain ⟨hpos, hmax⟩ := hc
  have h0 : col.MaxLen ≠ 0 := Nat.pos_iff_ne_zero.mp hpos
  have hle : ¬ col.MaxLen > MaxKeyLen := Nat.not_lt.mpr hmax
  cases v with
  | NullValue t =>
    refine ⟨0, ?_⟩
    simp [EncodeValueAsKey, EncodeRawValueAsKey, TypedValue.RawValue,
      mayApplyImplicitConversion, h0, hle, keyOf]
    rfl
  | Integer i =>
    have hcol : col.colType = .IntegerType := hv
    have h8 : col.MaxLen = 8 := by simp [Column.MaxLen, hcol]
    refine ⟨8, ?_⟩
    simp only [EncodeValueAsKey, EncodeRawValueAsKey, TypedValue.RawValue, hcol, h8]
    simp [mayApplyImplicitConversion, ColType.toSQL, MaxKeyLen, keyOf,
      flipSign_beInt (Int64.le_toInt i) (Int64.toInt_lt i)]
    rfl
  | Varchar str =>
    obtain ⟨hcol, hlen, -⟩ := hv
    refine ⟨str.length, ?_⟩
    have hlen' : ¬ str.length > col.MaxLen := Nat.not_lt.mpr hlen
    simp only [EncodeValueAsKey, EncodeRawValueAsKey, TypedValue.RawValue, hcol]
    simp [mayApplyImplicitConversion, ColType.toSQL, h0, hle, hlen', keyOf]
    rfl
  | Boolean b =>
    have hcol : col.colType = .BooleanType := hv
    have h1 : col.MaxLen = 1 := by simp [Column.MaxLen, hcol]
    refine ⟨1, ?_⟩
    simp only [EncodeValueAsKey, EncodeRawValueAsKey, TypedValue.RawValue, hcol, h1]
    simp [mayApplyImplicitConversion, MaxKeyLen, keyOf]
    rfl
  | Float64 _ => exact absurd hv id

/-- A value that is not `NULL` and fits `col` has the column's type and a key that starts
`KeyValPrefixNotNull`. -/
theorem Fits.notNull {col : Column} {v : TypedValue} (hv : Fits col v) (hn : v.IsNull = false) :
    v.type = col.colType.toSQL ∧ v.RawValue ≠ .nil ∧
      ∃ a, keyOf col v = KeyValPrefixNotNull :: a := by
  cases v with
  | NullValue _ => simp [TypedValue.IsNull] at hn
  | Float64 _ => exact absurd hv id
  | Integer _ =>
    have hcol : col.colType = .IntegerType := hv
    exact ⟨by simp [TypedValue.type, hcol, ColType.toSQL], by simp [TypedValue.RawValue], _, rfl⟩
  | Varchar _ =>
    have hcol : col.colType = .VarcharType := hv.1
    exact ⟨by simp [TypedValue.type, hcol, ColType.toSQL], by simp [TypedValue.RawValue], _, rfl⟩
  | Boolean _ =>
    have hcol : col.colType = .BooleanType := hv
    exact ⟨by simp [TypedValue.type, hcol, ColType.toSQL], by simp [TypedValue.RawValue], _, rfl⟩

theorem cmpOf_null_notNull (a : List UInt8) :
    cmpOf [KeyValPrefixNull] (KeyValPrefixNotNull :: a) = -1 := by
  simp [cmpOf, KeyValPrefixNull, KeyValPrefixNotNull, List.cons_lt_cons_iff]

theorem cmpOf_notNull_null (a : List UInt8) :
    cmpOf (KeyValPrefixNotNull :: a) [KeyValPrefixNull] = 1 := by
  simp [cmpOf, KeyValPrefixNull, KeyValPrefixNotNull, List.cons_lt_cons_iff]

/-- Integers sort as their keys: `v + 2 ^ 63` is below `2 ^ 64`. -/
theorem cmpOf_keyOf_integer (col : Column) (v w : Int64) :
    cmpOf (keyOf col (.Integer v)) (keyOf col (.Integer w)) = cmpOf v.toInt w.toInt := by
  have mono : ∀ a b : Int, (-2 ^ 63 ≤ a ∧ a < 2 ^ 63) → (-2 ^ 63 ≤ b ∧ b < 2 ^ 63) → a < b →
      be 8 (a + 2 ^ 63).toNat < be 8 (b + 2 ^ 63).toNat := by
    intro a b ha hb hab
    exact be_lt_be (by omega) (by simp only [Nat.reduceMul, Nat.reducePow]; omega)
  have h := cmpOf_map _ _ mono (fun a b => by omega) (fun _ _ h => List.lt_asymm h)
    ⟨Int64.le_toInt v, Int64.toInt_lt v⟩ ⟨Int64.le_toInt w, Int64.toInt_lt w⟩
  rw [keyOf, keyOf, cmpOf_cons]
  exact h

/-- Strings no longer than the column sort as their keys. -/
theorem cmpOf_keyOf_varchar {col : Column} (hM : col.MaxLen ≤ MaxKeyLen) {s t : List UInt8}
    (hs : s.length ≤ col.MaxLen) (ht : t.length ≤ col.MaxLen) :
    cmpOf (keyOf col (.Varchar s)) (keyOf col (.Varchar t)) = cmpOf s t := by
  have hM : col.MaxLen < 2 ^ 32 := Nat.lt_of_le_of_lt hM (by decide)
  have mono : ∀ a b : List UInt8, a.length ≤ col.MaxLen → b.length ≤ col.MaxLen → a < b →
      a ++ List.replicate (col.MaxLen - a.length) 0 ++ be EncLenLen a.length <
        b ++ List.replicate (col.MaxLen - b.length) 0 ++ be EncLenLen b.length :=
    fun a b ha hb hab => pad_lt_pad hab (by omega) id (by omega)
  have h := cmpOf_map _ _ mono bytes_trichotomy (fun _ _ h => List.lt_asymm h) hs ht
  simp only [keyOf, List.cons_append]
  rw [cmpOf_cons]
  exact h

/-- Values that fit a column compare as their keys do. -/
theorem Compare_fits {col : Column} {x y : TypedValue} (hx : Fits col x) (hy : Fits col y) :
    x.Compare parseFloat y = .ok (cmpOf (keyOf col x) (keyOf col y)) := by
  cases x with
  | Float64 _ => exact absurd hx id
  | NullValue t =>
    -- `NULL` sorts first; the types of two `NULL`s fitting one column never clash
    cases hn : y.IsNull with
    | true =>
      cases y with
      | NullValue t' =>
        have hok : ¬ (t ≠ .AnyType ∧ t' ≠ .AnyType ∧ t ≠ t') := by
          rcases hx with rfl | rfl <;> rcases hy with rfl | rfl <;> simp
        simp [pure_eq_ok, TypedValue.Compare, TypedValue.type, TypedValue.RawValue, hok, keyOf,
          cmpOf]
      | _ => simp [TypedValue.IsNull] at hn
    | false =>
      obtain ⟨hty, hraw, a, ha⟩ := hy.notNull hn
      have hok : ¬ (t ≠ .AnyType ∧ y.type ≠ .AnyType ∧ t ≠ y.type) := by
        rw [hty]; rcases hx with rfl | rfl <;> simp
      simp [pure_eq_ok, TypedValue.Compare, hok, hraw, keyOf_null, ha, cmpOf_null_notNull]
  | Integer v =>
    have hcol : col.colType = .IntegerType := hx
    cases y with
    | NullValue _ =>
      simp [pure_eq_ok, TypedValue.Compare, TypedValue.IsNull, keyOf, cmpOf_notNull_null]
    | Integer w => simp [pure_eq_ok, TypedValue.Compare, TypedValue.IsNull, cmpOf_keyOf_integer]
    | Float64 _ => exact absurd hy id
    | Varchar _ => exact absurd hy.1 (by simp [hcol])
    | Boolean _ => exact absurd (show col.colType = .BooleanType from hy) (by simp [hcol])
  | Varchar s =>
    obtain ⟨hcol, hs, hM⟩ := hx
    cases y with
    | NullValue _ =>
      simp [pure_eq_ok, TypedValue.Compare, TypedValue.IsNull, keyOf, cmpOf_notNull_null]
    | Varchar t =>
      simp [pure_eq_ok, TypedValue.Compare, TypedValue.IsNull, cmpOf_keyOf_varchar hM hs hy.2.1]
    | Float64 _ => exact absurd hy id
    | Integer _ => exact absurd (show col.colType = .IntegerType from hy) (by simp [hcol])
    | Boolean _ => exact absurd (show col.colType = .BooleanType from hy) (by simp [hcol])
  | Boolean b =>
    have hcol : col.colType = .BooleanType := hx
    cases y with
    | NullValue _ =>
      simp [pure_eq_ok, TypedValue.Compare, TypedValue.IsNull, keyOf, cmpOf_notNull_null]
    | Boolean c =>
      simp only [TypedValue.Compare, TypedValue.IsNull, keyOf]
      cases b <;> cases c <;> decide
    | Float64 _ => exact absurd hy id
    | Integer _ => exact absurd (show col.colType = .IntegerType from hy) (by simp [hcol])
    | Varchar _ => exact absurd hy.1 (by simp [hcol])

end Compare

end Immudb.Sql
