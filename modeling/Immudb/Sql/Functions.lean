import Immudb.Sql.Ranges

/-!
# `Immudb/Sql/Functions.lean` — builtin functions and casts

`embedded/sql/functions.go`, `type_conversion.go` and `stmt.go`: what `FnCall.reduce` and
`Cast.reduce` make of the values their operands reduce to. A call looks its name up in
`builtinFunctions`, reduces its parameters left to right and applies the function; a cast asks
`getConverter` for a converter from the operand's type to the target type and applies it.

Go reads the operands through `RawValue()` and type assertions. The two-result form
`x, _ := v.(T)` gives the zero value of `T` on a mismatch, the one-result form `v.(T)` panics, and
so does a slice `s[i:j]` unless `0 ≤ i ≤ j ≤ len(s)`. Nothing in the server recovers a panic, so
the model keeps the two panics apart from the errors `reduce` returns (`SqlError.IsPanic`).

Both are reached. `SUBSTRING(s, pos, len)` computes its end `pos - 1 + len` in `int64` and only
then clamps it to `len(s)`; for a length near `MaxInt64` the sum wraps to a negative number, the
clamp lets it through and the slice panics. Below the wrap it returns the clamped substring
(`SubstringFn_Apply_eq_substring`). The converter from `BLOB` to `UUID` writes the message of its
error by asserting the `[]byte` it holds to a `string` (`blobToUUID_panics_iff`). The other
builtins modelled, and the casts between the types of `Immudb/Sql/Values.lean`, return a value or
an error (`FnCall_reduce_no_panic`, `Cast_reduce_no_panic`).

Covered: `COALESCE`, `LENGTH`, `SUBSTRING`, `CONCAT`, `LOWER`, `UPPER` and `TRIM`. The builtins
that read the transaction, the clock or the catalog are applied by a parameter `applyOther`, and
`strings.ToUpper` and `strings.ToLower` of a value are parameters too. Casts between `INTEGER`,
`FLOAT`, `VARCHAR`, `BOOLEAN` and `ANY`; the converters to and from `UUID`, whose values the
model's `TypedValue` leaves out, are taken on the `RawValue()` they read, with `uuid.Parse` and
`uuid.FromBytes` parameters: the second under what its documentation promises (`FromBytesSpec`).
-/

set_option autoImplicit false

namespace Immudb.Sql

open Bytes

/-! ## 1. Panics and Go's reads of a value -/

/-- The runtime panics among the errors. -/
def SqlError.IsPanic (e : SqlError) : Prop :=
  e = .indexOutOfRange ∨ e = .interfaceConversion

/-- A computation that ends in a panic. -/
def Panics {α : Type} : Except SqlError α → Prop
  | .ok _ => False
  | .error e => e.IsPanic

@[simp] theorem not_panics_ok {α : Type} (a : α) : ¬Panics (.ok a : Except SqlError α) :=
  fun h => h

@[simp] theorem panics_error {α : Type} (e : SqlError) :
    Panics (.error e : Except SqlError α) ↔ e.IsPanic := Iff.rfl

@[simp] theorem not_panics_pure {α : Type} (a : α) : ¬Panics (pure a : Except SqlError α) :=
  fun h => h

@[simp] theorem panics_throw {α : Type} (e : SqlError) :
    Panics (throw e : Except SqlError α) ↔ e.IsPanic := Iff.rfl

/-- A computation whose errors all satisfy `P` panics only if a panic does. -/
theorem not_panics_of_error {α : Type} {r : Except SqlError α} {P : SqlError → Prop}
    (hP : ∀ e, P e → ¬e.IsPanic) (h : ∀ e, r = .error e → P e) : ¬Panics r := by
  cases r with
  | ok a => exact not_panics_ok a
  | error e => exact hP e (h e rfl)

namespace GoValue

/-- `v.(string)` in its two-result form: the string, or `""` for another dynamic type. -/
def stringOr : GoValue → List UInt8
  | .string s => s
  | _ => []

/-- `v.(int64)` in its two-result form: the integer, or `0` for another dynamic type. -/
def int64Or : GoValue → Int64
  | .int64 v => v
  | _ => 0

end GoValue

/-- `s[i:j]` with `int64` bounds: `none`, a panic, unless `0 ≤ i ≤ j ≤ len(s)`. -/
def sliceInt64? (s : List UInt8) (i j : Int64) : Option (List UInt8) :=
  if 0 ≤ i.toInt ∧ 0 ≤ j.toInt then slice? s i.toInt.toNat j.toInt.toNat else none

/-- `IsNumericType`. -/
def IsNumericType (t : SQLValueType) : Bool :=
  t = .IntegerType || t = .Float64Type

/-! ## 2. The builtins -/

/-- `CoalesceFn.Apply`, one parameter of its first loop: the type of the result is that of the
first parameter that is not `NULL`, and every later one must have it, or be numeric with it. -/
def coalesceType (t : SQLValueType) (p : TypedValue) : Except SqlError SQLValueType :=
  if !p.IsNull then
    if t = .AnyType then pure p.type
    else if p.type ≠ t ∧ !(IsNumericType t && IsNumericType p.type) then throw .invalidTypes
    else pure t
  else pure t

/-- `CoalesceFn.Apply`: the first parameter that is not `NULL`, or a `NULL` of their type. -/
def CoalesceFn.Apply (params : List TypedValue) : Except SqlError TypedValue := do
  let t ← params.foldlM coalesceType .AnyType
  match params.find? (fun p => !p.IsNull) with
  | some p => pure p
  | none => pure (.NullValue t)

/-- The one-argument string builtins (`LENGTH`, `LOWER`, `UPPER`, `TRIM`): one argument, a `NULL`
of type `nullType` for a `NULL`, and otherwise `f` of its string, which must be a `VARCHAR`. -/
def varcharFn (nullType : SQLValueType) (f : List UInt8 → TypedValue) (params : List TypedValue) :
    Except SqlError TypedValue := do
  let [v] := params | throw .illegalArguments
  if v.IsNull then return .NullValue nullType
  if v.type ≠ .VarcharType then throw .illegalArguments
  pure (f v.RawValue.stringOr)

/-- `LengthFn.Apply`. -/
def LengthFn.Apply : List TypedValue → Except SqlError TypedValue :=
  varcharFn .IntegerType fun s => .Integer (Int64.ofNat s.length)

/-- `ConcatFn.Apply`. -/
def ConcatFn.Apply (params : List TypedValue) : Except SqlError TypedValue := do
  if params.isEmpty then throw .illegalArguments
  if params.any fun v => v.type ≠ .AnyType && v.type ≠ .VarcharType then
    throw .illegalArguments
  pure (.Varchar (params.flatMap fun v => v.RawValue.stringOr))

/-- `SubstringFn.Apply`. -/
def SubstringFn.Apply (params : List TypedValue) : Except SqlError TypedValue := do
  let [v1, v2, v3] := params | throw .illegalArguments
  if v1.IsNull || v2.IsNull || v3.IsNull then return .NullValue .VarcharType
  let s := v1.RawValue.stringOr
  let pos := v2.RawValue.int64Or
  let length := v3.RawValue.int64Or
  if pos ≤ 0 then throw .illegalArguments
  if length < 0 then throw .illegalArguments
  if pos - 1 ≥ Int64.ofNat s.length then return .Varchar []
  -- the end is an `int64` sum, clamped only from above
  let endPos := pos - 1 + length
  let endPos := if endPos > Int64.ofNat s.length then Int64.ofNat s.length else endPos
  let some r := sliceInt64? s (pos - 1) endPos | throw .indexOutOfRange
  pure (.Varchar r)

/-- The cutset of `TRIM`, `" \t\n\r\v\f"`. -/
def trimCutset : List UInt8 := [32, 9, 10, 13, 11, 12]

/-- `strings.Trim(s, cutset)` for a cutset of ASCII bytes, which never occur inside the encoding
of another rune: the bytes of the cutset dropped at both ends. -/
def stringsTrim (cutset s : List UInt8) : List UInt8 :=
  ((s.dropWhile (· ∈ cutset)).reverse.dropWhile (· ∈ cutset)).reverse

/-- `TrimFnc.Apply`. -/
def TrimFnc.Apply : List TypedValue → Except SqlError TypedValue :=
  varcharFn .VarcharType fun s => .Varchar (stringsTrim trimCutset s)

/-- The builtin functions (`builtinFunctions`). -/
inductive Function where
  | CoalesceFn
  | LengthFn
  | SubstringFn
  | ConcatFn
  | LowerUpperFnc (isUpper : Bool)
  | TrimFnc
  /-- `NOW`, `RANDOM_UUID`, `JSON_TYPEOF` and the three `pg_catalog` functions -/
  | other (name : String)
  deriving DecidableEq, Repr

/-- `builtinFunctions`, by name. -/
def builtinFunctions (name : String) : Option Function :=
  match name with
  | "COALESCE" => some .CoalesceFn
  | "LENGTH" => some .LengthFn
  | "SUBSTRING" => some .SubstringFn
  | "CONCAT" => some .ConcatFn
  | "LOWER" => some (.LowerUpperFnc false)
  | "UPPER" => some (.LowerUpperFnc true)
  | "TRIM" => some .TrimFnc
  | "NOW" | "RANDOM_UUID" | "JSON_TYPEOF" | "PG_GET_USERBYID" | "PG_TABLE_IS_VISIBLE"
  | "SHOBJ_DESCRIPTION" => some (.other name)
  | _ => none

section Apply

variable (toUpper toLower : List UInt8 → List UInt8)
  (applyOther : String → List TypedValue → Except SqlError TypedValue)

/-- `LowerUpperFnc.Apply`. -/
def LowerUpperFnc.Apply (isUpper : Bool) : List TypedValue → Except SqlError TypedValue :=
  varcharFn .VarcharType fun s => .Varchar (if isUpper then toUpper s else toLower s)

/-- `fn.Apply(tx, params)`. -/
def Function.Apply : Function → List TypedValue → Except SqlError TypedValue
  | .CoalesceFn => CoalesceFn.Apply
  | .LengthFn => LengthFn.Apply
  | .SubstringFn => SubstringFn.Apply
  | .ConcatFn => ConcatFn.Apply
  | .LowerUpperFnc isUpper => LowerUpperFnc.Apply toUpper toLower isUpper
  | .TrimFnc => TrimFnc.Apply
  | .other name => applyOther name

variable {E : Type} (reduceExp : E → Except SqlError TypedValue)

/-- `FnCall.resolveFunc`: the name upper-cased, looked up. -/
def FnCall.resolveFunc (fn : String) : Except SqlError Function :=
  match builtinFunctions fn.toUpper with
  | some f => pure f
  | none => throw .illegalArguments

/-- `FnCall.reduceParams`. -/
def FnCall.reduceParams (params : List E) : Except SqlError (List TypedValue) :=
  params.mapM reduceExp

/-- `FnCall.reduce`, with `reduceExp` the reduction of a parameter. -/
def FnCall.reduce (fn : String) (params : List E) : Except SqlError TypedValue := do
  let f ← FnCall.resolveFunc fn
  let fnInputs ← FnCall.reduceParams reduceExp params
  f.Apply toUpper toLower applyOther fnInputs

end Apply

/-! ## 3. Casts -/

/-- `converterFunc`. -/
abbrev converterFunc := TypedValue → Except SqlError TypedValue

section Cast

variable (parseFloat : List UInt8 → Option ℚ)

/-- `getConverter(src, dst)`, for the types modelled. -/
def getConverter (src dst : SQLValueType) : Except SqlError converterFunc :=
  if src = dst then pure fun tv => pure tv
  else if src = .AnyType then
    pure fun val => if val.RawValue = .nil then pure (.NullValue dst) else throw .invalidValue
  else
    match dst, src with
    | .Float64Type, .IntegerType => pure fun val =>
      match val.RawValue with
      | .nil => pure (.NullValue .Float64Type)
      | .int64 v => pure (.Float64 (float64OfInt v))
      | _ => throw .interfaceConversion
    | .Float64Type, .VarcharType => pure fun val =>
      match val.RawValue with
      | .nil => pure (.NullValue .Float64Type)
      | .string s =>
        match parseFloat s with
        | some f => pure (.Float64 f)
        | none => throw .unsupportedCast
      | _ => throw .interfaceConversion
    | .IntegerType, .Float64Type => pure fun val =>
      match val.RawValue with
      | .nil => pure (.NullValue .IntegerType)
      | .float64 f => pure (.Integer (int64OfFloat f))
      | _ => throw .interfaceConversion
    | .IntegerType, .VarcharType => pure fun val =>
      match val.RawValue with
      | .nil => pure (.NullValue .IntegerType)
      | .string s =>
        match parseInt s with
        | some v => pure (.Integer v)
        | none => throw .unsupportedCast
      | _ => throw .interfaceConversion
    -- to `BOOLEAN` only from `JSON`, to `VARCHAR` only from `UUID` and `JSON`
    | _, _ => throw .unsupportedCast

variable {E : Type} (reduceExp : E → Except SqlError TypedValue)

/-- `Cast.reduce`. -/
def Cast.reduce (val : E) (t : SQLValueType) : Except SqlError TypedValue := do
  let v ← reduceExp val
  let conv ← getConverter parseFloat v.type t
  conv v

end Cast

/-- A `uuid.UUID`: sixteen bytes. -/
abbrev UUID := { b : List UInt8 // b.length = 16 }

/-- What `uuid.FromBytes(b)` is documented to do: return an error unless `b` is sixteen bytes
long, and otherwise a `UUID` that holds the bytes of `b`. -/
structure FromBytesSpec (fromBytes : List UInt8 → Option UUID) : Prop where
  eq_none_iff : ∀ b, fromBytes b = none ↔ b.length ≠ 16
  val_eq : ∀ b u, fromBytes b = some u → u.1 = b

/-- The converter `getConverter(BLOBType, UUIDType)` returns, on the `RawValue()` of a `BLOB`:
`nil`, which gives the `NULL` of type `UUID`, or its bytes, with `uuid.FromBytes` a parameter. -/
def blobToUUID (fromBytes : List UInt8 → Option UUID) :
    Option (List UInt8) → Except SqlError (Option UUID)
  | none => pure none
  | some bs =>
    match fromBytes bs with
    | some u => pure (some u)
    -- the message of the error asserts the `[]byte` to a `string`
    | none => throw .interfaceConversion

/-- The converter `getConverter(VarcharType, UUIDType)` returns, on the `RawValue()` of a
`VARCHAR`, with `uuid.Parse` a parameter. -/
def varcharToUUID (parseUUID : List UInt8 → Option UUID) :
    Option (List UInt8) → Except SqlError (Option UUID)
  | none => pure none
  | some s =>
    match parseUUID s with
    | some u => pure (some u)
    | none => throw .unsupportedCast

/-- The converter `getConverter(UUIDType, BLOBType)` returns: `u[:]`. -/
def uuidToBlob : Option UUID → Except SqlError (Option (List UInt8))
  | none => pure none
  | some u => pure (some u.1)

/-! ## 4. `SUBSTRING` -/

/-- `SUBSTRING(s, pos, len)` as SQL means it, on the values of its bounds: an error for a position
below one or a negative length, and otherwise the at most `len` bytes from position `pos`. -/
def substring (s : List UInt8) (pos length : Int) : Except SqlError TypedValue :=
  if pos ≤ 0 ∨ length < 0 then throw .illegalArguments
  else pure (.Varchar ((s.drop (pos - 1).toNat).take length.toNat))

/-- Go's `a + b` of two non-negative `int64`s: their sum below `2 ^ 63`, and from there the sum
less `2 ^ 64`, which is negative. -/
theorem int64_toInt_add_of_nonneg {a b : Int64} (ha : 0 ≤ a.toInt) (hb : 0 ≤ b.toInt) :
    (a + b).toInt =
      if a.toInt + b.toInt < 2 ^ 63 then a.toInt + b.toInt else a.toInt + b.toInt - 2 ^ 64 := by
  have hal := Int64.toInt_lt a
  have hbl := Int64.toInt_lt b
  rw [Int64.toInt_add, Int.bmod_def]
  split_ifs <;> omega

/-- `a - 1` of a positive `int64` does not wrap. -/
theorem int64_toInt_sub_one {a : Int64} (ha : 0 < a.toInt) : (a - 1).toInt = a.toInt - 1 := by
  have hal := Int64.toInt_lt a
  rw [Int64.toInt_sub, Int64.toInt_one, Int.bmod_def]
  split_ifs <;> omega

/-- A slice that ends below zero panics. -/
theorem sliceInt64?_of_neg (s : List UInt8) (i : Int64) {j : Int64} (hj : j.toInt < 0) :
    sliceInt64? s i j = none := by
  simp only [sliceInt64?]
  rw [if_neg (by omega)]

/-- A slice within the string is its bytes from `i` to `j`. -/
theorem sliceInt64?_eq {s : List UInt8} {i j : Int64} (hi : 0 ≤ i.toInt) (hij : i.toInt ≤ j.toInt)
    (hj : j.toInt ≤ s.length) :
    sliceInt64? s i j = some ((s.drop i.toInt.toNat).take (j.toInt - i.toInt).toNat) := by
  simp only [sliceInt64?, slice?]
  rw [if_pos ⟨hi, by omega⟩, if_pos ⟨by omega, by omega⟩]
  congr 2
  omega

/-- Go's `SUBSTRING` on a string and two integers is `substring` except where its end wraps,
and there it panics. -/
theorem SubstringFn_Apply_eq_substring (s : List UInt8) (pos length : Int64)
    (hs : s.length < 2 ^ 63) :
    SubstringFn.Apply [.Varchar s, .Integer pos, .Integer length] =
      if 0 < pos.toInt ∧ 0 ≤ length.toInt ∧ pos.toInt ≤ s.length ∧
          2 ^ 63 ≤ pos.toInt - 1 + length.toInt
      then .error .indexOutOfRange else substring s pos.toInt length.toInt := by
  have hlen : (Int64.ofNat s.length).toInt = s.length := Int64.toInt_ofNat_of_lt hs
  simp only [SubstringFn.Apply, TypedValue.IsNull, TypedValue.RawValue, GoValue.stringOr,
    GoValue.int64Or, Bool.or_false, Bool.false_eq_true, if_false, Int64.le_iff_toInt_le,
    Int64.lt_iff_toInt_lt, ge_iff_le, gt_iff_lt, Int64.toInt_zero, hlen]
  by_cases hwrap : 0 < pos.toInt ∧ 0 ≤ length.toInt ∧ pos.toInt ≤ s.length ∧
      2 ^ 63 ≤ pos.toInt - 1 + length.toInt
  · -- the end wraps below zero, the clamp from above keeps it, and the slice panics
    obtain ⟨hp, hl, hin, hw⟩ := hwrap
    have hstart := int64_toInt_sub_one hp
    have hsum := int64_toInt_add_of_nonneg (a := pos - 1) (b := length) (by omega) hl
    have hneg : (pos - 1 + length).toInt < 0 := by
      have := Int64.toInt_lt pos
      have := Int64.toInt_lt length
      rw [hsum, hstart, if_neg (by omega)]
      omega
    rw [if_neg (not_le.mpr hp), if_neg (not_lt.mpr hl), hstart,
      if_neg (show ¬(s.length : Int) ≤ pos.toInt - 1 by omega),
      if_neg (show ¬(s.length : Int) < (pos - 1 + length).toInt by omega),
      sliceInt64?_of_neg _ _ hneg, if_pos ⟨hp, hl, hin, hw⟩]
    rfl
  rw [if_neg hwrap, substring]
  -- the two checks on the arguments
  by_cases hp : pos.toInt ≤ 0
  · rw [if_pos hp, if_pos (Or.inl hp)]
    rfl
  by_cases hl : length.toInt < 0
  · rw [if_neg hp, if_pos hl, if_pos (Or.inr hl)]
    rfl
  have hstart := int64_toInt_sub_one (a := pos) (by omega)
  rw [if_neg hp, if_neg hl, hstart, if_neg (show ¬(pos.toInt ≤ 0 ∨ length.toInt < 0) by omega)]
  -- a position past the end gives the empty string
  by_cases hpast : (s.length : Int) ≤ pos.toInt - 1
  · rw [if_pos hpast, List.drop_eq_nil_of_le (by omega), List.take_nil]
  rw [if_neg hpast]
  have hend : (pos - 1 + length).toInt = pos.toInt - 1 + length.toInt := by
    rw [int64_toInt_add_of_nonneg (by omega) (by omega), hstart, if_pos (by omega)]
  by_cases hclamp : (s.length : Int) < pos.toInt - 1 + length.toInt
  · -- clamped to the end: both sides take the whole rest of the string
    rw [hend, if_pos hclamp, sliceInt64?_eq (by omega) (by omega) (by omega), hstart, hlen]
    have hrest : (s.drop (pos.toInt - 1).toNat).length ≤ length.toInt.toNat := by
      rw [List.length_drop]
      omega
    rw [List.take_of_length_le hrest, List.take_of_length_le (by rw [List.length_drop]; omega)]
  · rw [hend, if_neg hclamp, sliceInt64?_eq (by omega) (by omega) (by omega), hstart, hend]
    have hn : (pos.toInt - 1 + length.toInt - (pos.toInt - 1)).toNat = length.toInt.toNat := by
      omega
    rw [hn]

-- `SUBSTRING('abc', 2, 5)` is `'bc'`
example : SubstringFn.Apply [.Varchar [97, 98, 99], .Integer 2, .Integer 5] =
    .ok (.Varchar [98, 99]) := by
  decide

/-- `substring` only fails with an error. -/
theorem substring_not_panics (s : List UInt8) (pos length : Int) :
    ¬Panics (substring s pos length) := by
  unfold substring
  split_ifs
  · rintro (h | h) <;> cases h
  · exact not_panics_ok _

/-! ## 5. Calls -/

/-- A list of parameters reduces to an error only through one of them. -/
theorem mapM_eq_error {α β : Type} {f : α → Except SqlError β} {e : SqlError} :
    ∀ {l : List α}, l.mapM f = .error e → ∃ a ∈ l, f a = .error e
  | [], h => by cases h
  | a :: l, h => by
    rw [List.mapM_cons] at h
    cases ha : f a with
    | error e' =>
      rw [ha] at h
      cases h
      exact ⟨a, List.mem_cons_self, ha⟩
    | ok b =>
      rw [ha] at h
      cases hl : l.mapM f with
      | error e' =>
        rw [hl] at h
        cases h
        obtain ⟨a', ha', he⟩ := mapM_eq_error hl
        exact ⟨a', List.mem_cons_of_mem a ha', he⟩
      | ok bs =>
        rw [hl] at h
        cases h

theorem resolveFunc_substring : FnCall.resolveFunc "SUBSTRING" = .ok .SubstringFn := by
  decide +kernel

section Call

variable (toUpper toLower : List UInt8 → List UInt8)
  (applyOther : String → List TypedValue → Except SqlError TypedValue)
  (parseFloat : List UInt8 → Option ℚ)

/-- A call of `SUBSTRING` on constants panics exactly when the position is in the string and
the end `pos - 1 + len` passes `MaxInt64`. -/
theorem substring_call_panics_iff (row : Option Row) (s : List UInt8) (pos length : Int64)
    (hs : s.length < 2 ^ 63) :
    Panics (FnCall.reduce toUpper toLower applyOther (ValueExp.reduce parseFloat row) "SUBSTRING"
        [.Value (.Varchar s), .Value (.Integer pos), .Value (.Integer length)]) ↔
      0 < pos.toInt ∧ 0 ≤ length.toInt ∧ pos.toInt ≤ s.length ∧
        2 ^ 63 ≤ pos.toInt - 1 + length.toInt := by
  -- the three constants reduce to themselves
  have hcall : FnCall.reduce toUpper toLower applyOther (ValueExp.reduce parseFloat row)
      "SUBSTRING" [.Value (.Varchar s), .Value (.Integer pos), .Value (.Integer length)] =
      SubstringFn.Apply [.Varchar s, .Integer pos, .Integer length] := by
    rw [FnCall.reduce, resolveFunc_substring]
    rfl
  rw [hcall, SubstringFn_Apply_eq_substring s pos length hs]
  split_ifs with hwrap
  · exact iff_of_true (Or.inl rfl) hwrap
  · exact iff_of_false (substring_not_panics _ _ _) hwrap

end Call

/-- `SUBSTRING('ab', 2, 9223372036854775807)`. -/
theorem substring_max_length_panics :
    Panics (FnCall.reduce id id (fun _ _ => throw .unexpected) (ValueExp.reduce (fun _ => none) none)
      "SUBSTRING" [.Value (.Varchar [97, 98]), .Value (.Integer 2),
        .Value (.Integer 9223372036854775807)]) :=
  (substring_call_panics_iff id id (fun _ _ => throw .unexpected) (fun _ => none) none [97, 98] 2
    9223372036854775807 (by decide)).2 ⟨by decide, by decide, by decide, by decide⟩

/-! ## 6. What does not panic -/

theorem illegalArguments_not_panic : ¬SqlError.illegalArguments.IsPanic := by
  rintro (h | h) <;> cases h

/-- The one-argument string builtins fail only on their arguments. -/
theorem varcharFn_error {nullType : SQLValueType} {f : List UInt8 → TypedValue}
    {params : List TypedValue} {e : SqlError} (h : varcharFn nullType f params = .error e) :
    e = .illegalArguments := by
  unfold varcharFn at h
  -- every branch is a value or the one error
  split at h
  · split_ifs at h <;> first | exact (Except.error.inj h).symm | cases h
  · exact (Except.error.inj h).symm

theorem ConcatFn_error {params : List TypedValue} {e : SqlError}
    (h : ConcatFn.Apply params = .error e) : e = .illegalArguments := by
  unfold ConcatFn.Apply at h
  split_ifs at h <;> first | exact (Except.error.inj h).symm | cases h

theorem foldlM_coalesceType_error {e : SqlError} :
    ∀ (params : List TypedValue) (t : SQLValueType),
      params.foldlM coalesceType t = .error e → e = .invalidTypes
  | [], _, h => by cases h
  | p :: ps, t, h => by
    rw [List.foldlM_cons] at h
    cases ht : coalesceType t p with
    | error e' =>
      rw [ht] at h
      cases h
      unfold coalesceType at ht
      split_ifs at ht <;> first | exact (Except.error.inj ht).symm | cases ht
    | ok t' =>
      rw [ht] at h
      exact foldlM_coalesceType_error ps t' h

theorem CoalesceFn_error {params : List TypedValue} {e : SqlError}
    (h : CoalesceFn.Apply params = .error e) : e = .invalidTypes := by
  unfold CoalesceFn.Apply at h
  cases ht : params.foldlM coalesceType .AnyType with
  | error e' =>
    rw [ht] at h
    cases h
    exact foldlM_coalesceType_error params _ ht
  | ok t =>
    rw [ht] at h
    change (match params.find? (fun p => !p.IsNull) with
      | some p => pure p
      | none => pure (TypedValue.NullValue t) : Except SqlError TypedValue) = .error e at h
    split at h <;> cases h

section Apply

variable (toUpper toLower : List UInt8 → List UInt8)
  (applyOther : String → List TypedValue → Except SqlError TypedValue)

/-- Of the builtins modelled only `SUBSTRING` panics. -/
theorem Function.Apply_no_panic (hother : ∀ name ps, ¬Panics (applyOther name ps))
    {f : Function} (hf : f ≠ .SubstringFn) (params : List TypedValue) :
    ¬Panics (f.Apply toUpper toLower applyOther params) := by
  have hill : ∀ e, e = SqlError.illegalArguments → ¬e.IsPanic := by
    rintro e rfl
    exact illegalArguments_not_panic
  cases f with
  | CoalesceFn =>
    refine not_panics_of_error (P := (· = SqlError.invalidTypes)) ?_ fun e h => CoalesceFn_error h
    rintro e rfl (h | h) <;> cases h
  | LengthFn =>
    rw [Function.Apply, LengthFn.Apply]
    exact not_panics_of_error hill fun e h => varcharFn_error h
  | SubstringFn => exact absurd rfl hf
  | ConcatFn => exact not_panics_of_error hill fun e h => ConcatFn_error h
  | LowerUpperFnc isUpper =>
    rw [Function.Apply, LowerUpperFnc.Apply]
    exact not_panics_of_error hill fun e h => varcharFn_error h
  | TrimFnc =>
    rw [Function.Apply, TrimFnc.Apply]
    exact not_panics_of_error hill fun e h => varcharFn_error h
  | other name => exact hother name params

variable {E : Type} (reduceExp : E → Except SqlError TypedValue)

end Apply

section Cast

variable (parseFloat : List UInt8 → Option ℚ)

/-- `getConverter` refuses a pair of types only with `unsupportedCast`. -/
theorem getConverter_error {src dst : SQLValueType} {e : SqlError}
    (h : getConverter parseFloat src dst = .error e) : e = .unsupportedCast := by
  unfold getConverter at h
  split_ifs at h
  · cases h
  · cases h
  · split at h <;> first | exact (Except.error.inj h).symm | cases h

/-- What `RawValue()` holds for a value of each type. -/
theorem RawValue_of_type (v : TypedValue) :
    v.RawValue = .nil ∨ (∃ x, v.type = .IntegerType ∧ v.RawValue = .int64 x) ∨
      (∃ f, v.type = .Float64Type ∧ v.RawValue = .float64 f) ∨
      (∃ s, v.type = .VarcharType ∧ v.RawValue = .string s) ∨
      (∃ b, v.type = .BooleanType ∧ v.RawValue = .bool b) := by
  cases v <;> simp [TypedValue.RawValue, TypedValue.type]

/-- A converter applied to a value of its source type reads the value as the type it is. -/
theorem getConverter_no_panic (v : TypedValue) (dst : SQLValueType) {conv : converterFunc}
    (h : getConverter parseFloat v.type dst = .ok conv) : ¬Panics (conv v) := by
  unfold getConverter at h
  split_ifs at h with hsame hany
  · cases h
    exact not_panics_ok _
  · cases h
    dsimp only
    split
    · exact not_panics_pure _
    · simp [SqlError.IsPanic]
  · -- the source is `v`'s own type, so each assertion reads what `RawValue` holds
    split at h <;> cases h
    all_goals
      dsimp only
      rcases RawValue_of_type v with hr | ⟨x, ht, hr⟩ | ⟨x, ht, hr⟩ | ⟨x, ht, hr⟩ | ⟨x, ht, hr⟩
      <;> simp_all
    -- a string that does not parse is an error
    all_goals
      split
      · exact not_panics_pure _
      · simp [SqlError.IsPanic]

variable {E : Type} (reduceExp : E → Except SqlError TypedValue)

end Cast

/-- Reading a `UUID` as the sixteen bytes themselves meets the spec of `uuid.FromBytes`. -/
theorem FromBytesSpec.self :
    FromBytesSpec fun b => if h : b.length = 16 then some ⟨b, h⟩ else none where
  eq_none_iff b := by
    by_cases h : b.length = 16 <;> simp [h]
  val_eq b u hu := by
    by_cases h : b.length = 16
    · simp only [h, dite_true, Option.some.injEq] at hu
      rw [← hu]
    · simp [h] at hu

end Immudb.Sql
