import Immudb.Pgsql.Wire

/-!
# `Immudb/Pgsql/Bind.lean` — binding the parameters of a prepared statement

`pkg/pgsql/server/fmessages/bind.go`, `string_reader.go`, `types.go` and the `BindMsg` case of
`session.QueryMachine`. `ParseBindMsg` reads a Bind message: the portal and statement names, the
parameters' format codes, the values, each its length then its bytes, and the result columns'
format codes. The query machine looks the statement up and `buildNamedParams` converts the values
by the types of the statement's parameters.

`ParseBindMsg` checks the number of format codes against the number of values, but nothing
checks the values against the statement's parameters: `buildNamedParams` indexes the values by
the parameters' positions and a binary boolean by its first byte, and both panic on a value that
is not there (`buildNamedParams_panics_iff`, `Session_bind_panics_iff`). Binary integers of two
and four bytes are widened as unsigned: they agree with the wire's two's complement reading only
when their top bit is clear (`getInt64_eq_wireInt_iff`).

The payload is read through a `bufio.Reader` of its own size, which holds all of it after the
first read: a read gets what is left, up to what it asks for, and `io.EOF` only when nothing is
left. `schema.EncodeParams` turns the map of named values into a list, in the map's order, and
cannot fail on the values bound here: the model's result is the map.
-/

set_option autoImplicit false

namespace Immudb.Pgsql

open Bytes

/-- The runtime panics among the errors. -/
def PgError.IsPanic (e : PgError) : Prop := e = .indexOutOfRange

instance : DecidablePred PgError.IsPanic := fun e => inferInstanceAs (Decidable (e = _))

/-- A result that is a panic. -/
def Panics {α : Type} (x : Except PgError α) : Prop := ∃ e, x = .error e ∧ e.IsPanic

@[simp] theorem not_panics_pure {α : Type} (a : α) : ¬Panics (pure a : Except PgError α) := by
  rintro ⟨e, h, -⟩
  cases h

@[simp] theorem panics_throw {α : Type} (e : PgError) :
    Panics (throw e : Except PgError α) ↔ e.IsPanic :=
  ⟨fun ⟨_, h, hp⟩ => (Except.error.inj h) ▸ hp, fun hp => ⟨e, rfl, hp⟩⟩

@[simp] theorem panics_error {α : Type} (e : PgError) :
    Panics (Except.error e : Except PgError α) ↔ e.IsPanic :=
  panics_throw e

@[simp] theorem not_panics_ok {α : Type} (a : α) : ¬Panics (Except.ok a : Except PgError α) :=
  not_panics_pure a

@[simp] theorem except_ok_bind {α β : Type} (a : α) (f : α → Except PgError β) :
    (Except.ok a >>= f) = f a := rfl

@[simp] theorem except_error_bind {α β : Type} (e : PgError) (f : α → Except PgError β) :
    (Except.error e >>= f) = Except.error e := rfl

/-- A computation panics where its first part does, or where what follows it does. -/
theorem panics_bind {α β : Type} (x : Except PgError α) (f : α → Except PgError β) :
    Panics (x >>= f) ↔ Panics x ∨ ∃ a, x = .ok a ∧ Panics (f a) := by
  cases x with
  | error e => simp [Panics]
  | ok a => simp [Panics]

/-- A computation whose only error is `io.EOF` does not panic. -/
theorem not_panics_of_EOF {α : Type} {x : Except PgError α} (h : ∀ e, x = .error e → e = .EOF) :
    ¬Panics x := by
  rintro ⟨e, hx, hp⟩
  rw [h e hx] at hp
  cases hp

/-! ## 1. `ParseBindMsg` -/

/-- `getNextString`: the bytes up to the next zero, and what follows the zero. -/
def getNextString (r : List UInt8) : Except PgError (List UInt8 × List UInt8) :=
  if (0 : UInt8) ∈ r then pure (r.takeWhile (· != 0), (r.dropWhile (· != 0)).drop 1)
  else throw .EOF

/-- `r.Read(p)` of the `bufio.Reader` into a `p` of `n` bytes. -/
def bufRead (r : List UInt8) (n : Nat) : Except PgError (List UInt8 × List UInt8) :=
  if n = 0 then pure ([], r)
  else if r = [] then throw .EOF
  else pure (r.take n, r.drop n)

/-- `getNextInt16`: two bytes, zeros for those missing, big-endian in two's complement. -/
def getNextInt16 (r : List UInt8) : Except PgError (Int16 × List UInt8) := do
  let (got, r) ← bufRead r 2
  pure (Int16.ofNat (ofBE (copyN 2 got)), r)

/-- `getNextInt32`: four bytes, zeros for those missing, big-endian in two's complement. -/
def getNextInt32 (r : List UInt8) : Except PgError (Int32 × List UInt8) := do
  let (got, r) ← bufRead r 4
  pure (Int32.ofNat (ofBE (copyN 4 got)), r)

/-- `n` calls of `getNextInt16`, the values in order. -/
def readInt16s : Nat → List UInt8 → Except PgError (List Int16 × List UInt8)
  | 0, r => pure ([], r)
  | n + 1, r => do
    let (p, r) ← getNextInt16 r
    let (ps, r) ← readInt16s n r
    pure (p :: ps, r)

/-- A parameter value as `ParseBindMsg` keeps it: `string(pVal)` for text, `pVal` for binary. -/
inductive ParamVal where
  | text (s : List UInt8)
  | binary (b : List UInt8)
  deriving DecidableEq, Repr

/-- The `i`-th value `pVal` kept as text or binary: as one format code or none forces, else by
the `i`-th code. -/
def formatValue (forceTXT forceBIN : Bool) (codes : List Int16) (i : Nat) (pVal : List UInt8) :
    Except PgError ParamVal :=
  if forceTXT then pure (.text pVal)
  else if forceBIN then pure (.binary pVal)
  else
    match codes[i]? with
    | some 0 => pure (.text pVal)
    | some 1 => pure (.binary pVal)
    | some _ => throw .malformedMessage
    | none => throw .indexOutOfRange

/-- The loop over the parameter values of `ParseBindMsg`, from the `i`-th with `n` left and
`totalParamLen` bytes of values so far: each is its length, four bytes, then as many bytes read
with one `r.Read`. -/
def readParamVals (forceTXT forceBIN : Bool) (codes : List Int16) :
    Nat → Nat → Nat → List UInt8 → Except PgError (List ParamVal × List UInt8)
  | 0, _, _, r => pure ([], r)
  | n + 1, i, totalParamLen, r => do
    let (pLen, r) ← getNextInt32 r
    if pLen.toInt < 0 then throw .negativeParameterValueLen
    else
      let totalParamLen := totalParamLen + pLen.toInt.toNat
      if MaxMsgSize < totalParamLen then throw .parametersValueSizeTooLarge
      else do
        let (got, r) ← bufRead r pLen.toInt.toNat
        let val ← formatValue forceTXT forceBIN codes i (copyN pLen.toInt.toNat got)
        let (vals, r) ← readParamVals forceTXT forceBIN codes n (i + 1) totalParamLen r
        pure (val :: vals, r)

/-- `BindMsg` as `ParseBindMsg` returns it; its `ParameterFormatCodes` are never set. -/
structure BindMsg where
  DestPortalName : List UInt8
  PreparedStatementName : List UInt8
  ParamVals : List ParamVal
  ResultColumnFormatCodes : List Int16
  deriving DecidableEq, Repr

/-- How the format codes say to read the values: `(forceTXT, forceBIN)`, or a code per value. -/
def formatOf : List Int16 → Except PgError (Bool × Bool)
  | [] => pure (true, false)
  | [c] => if c = 0 then pure (true, false) else if c = 1 then pure (false, true)
    else throw .malformedMessage
  | _ => pure (false, false)

/-- `ParseBindMsg`. -/
def ParseBindMsg (payload : List UInt8) : Except PgError BindMsg := do
  let (destPortalName, r) ← getNextString payload
  let (preparedStatement, r) ← getNextString r
  let (parameterFormatCodeNumber, r) ← getNextInt16 r
  if parameterFormatCodeNumber.toInt < 0 then throw .malformedMessage
  else do
    let (parameterFormatCodes, r) ← readInt16s parameterFormatCodeNumber.toInt.toNat r
    let (pCount, r) ← getNextInt16 r
    let (forceTXT, forceBIN) ← formatOf parameterFormatCodes
    if 1 < parameterFormatCodes.length ∧ (parameterFormatCodes.length : Int) ≠ pCount.toInt then
      throw .malformedMessage
    else do
      let (params, r) ←
        readParamVals forceTXT forceBIN parameterFormatCodes pCount.toInt.toNat 0 0 r
      let (resultColumnFormatCodesNumber, r) ← getNextInt16 r
      if resultColumnFormatCodesNumber.toInt < 0 then throw .malformedMessage
      else do
        let (resultColumnFormatCodes, _) ← readInt16s resultColumnFormatCodesNumber.toInt.toNat r
        pure ⟨destPortalName, preparedStatement, params, resultColumnFormatCodes⟩

/-! ## 2. `buildNamedParams` -/

/-- The type of a statement's parameter, with the types `buildNamedParams` tells apart; `other`
stands for the rest (`FLOAT`, `TIMESTAMP`, `UUID`, `JSON`, `ANY`). -/
inductive ParamType where
  | IntegerType
  | VarcharType
  | BooleanType
  | BLOBType
  | other
  deriving DecidableEq, Repr

/-- `sql.ColDescriptor` of a parameter: its name, and its `Type` (a keyword of Lean). -/
structure ColDescriptor where
  Column : String
  colType : ParamType
  deriving DecidableEq, Repr

/-- A value bound to a named parameter. -/
inductive ParamValue where
  | Integer (v : Int64)
  | Varchar (s : List UInt8)
  | Boolean (b : Bool)
  | Blob (b : List UInt8)
  deriving DecidableEq, Repr

/-- `strconv.ParseUint(s, 10, 64)` from the value `n` of the digits read so far: a digit at a
time, `ErrRange` as soon as the value passes `2 ^ 64 - 1`, `ErrSyntax` at a byte not a digit. -/
def parseUint10 : List UInt8 → Nat → Except PgError Nat
  | [], n => pure n
  | c :: cs, n =>
    if 48 ≤ c ∧ c ≤ 57 then
      if 2 ^ 64 ≤ n * 10 + (c.toNat - 48) then throw .atoiRange
      else parseUint10 cs (n * 10 + (c.toNat - 48))
    else throw .atoiSyntax

/-- The sign `strconv.ParseInt` takes off: whether the number is negative, and its digits. -/
def splitSign : List UInt8 → Bool × List UInt8
  | 45 :: ds => (true, ds)
  | 43 :: ds => (false, ds)
  | ds => (false, ds)

/-- `strconv.Atoi` on a 64-bit platform: a sign, then decimal digits, the value an `int`. -/
def Atoi (s : List UInt8) : Except PgError Int64 := do
  let (neg, digits) := splitSign s
  if digits = [] then throw .atoiSyntax
  else do
    let un ← parseUint10 digits 0
    if !neg ∧ 2 ^ 63 ≤ un then throw .atoiRange
    else if neg ∧ 2 ^ 63 < un then throw .atoiRange
    else pure (Int64.ofInt (if neg then -(un : Int) else un))

/-- The value of a hexadecimal digit. -/
def fromHexChar (c : UInt8) : Option Nat :=
  if 48 ≤ c ∧ c ≤ 57 then some (c.toNat - 48)
  else if 97 ≤ c ∧ c ≤ 102 then some (c.toNat - 87)
  else if 65 ≤ c ∧ c ≤ 70 then some (c.toNat - 55)
  else none

/-- `hex.DecodeString`: two digits a byte; an odd length or a byte not a digit is an error. -/
def hexDecodeString : List UInt8 → Except PgError (List UInt8)
  | [] => pure []
  | [_] => throw .invalidHex
  | a :: b :: rest =>
    match fromHexChar a, fromHexChar b with
    | some x, some y => do
      let r ← hexDecodeString rest
      pure ((x * 16 + y).toUInt8 :: r)
    | _, _ => throw .invalidHex

/-- `getInt64`: eight bytes as `int64(binary.BigEndian.Uint64(p))`, four and two bytes as
`int64` of the unsigned `Uint32` and `Uint16`. -/
def getInt64 (p : List UInt8) : Except PgError Int64 :=
  if p.length = 8 then pure (Int64.ofNat (ofBE p))
  else if p.length = 4 then pure (Int64.ofNat (ofBE p))
  else if p.length = 2 then pure (Int64.ofNat (ofBE p))
  else throw (.cannotConvertInteger p.length)

/-- The bytes of the string `"true"`. -/
def trueBytes : List UInt8 := "true".toList.map Char.toUInt8

/-- The body of `buildNamedParams`' loop for one parameter: the value it binds to the
parameter's name, none for a type it does not convert. -/
def paramValue (param : ColDescriptor) : ParamVal → Except PgError (Option ParamValue)
  | .text p =>
    match param.colType with
    | .IntegerType => do
      let i ← Atoi p
      pure (some (.Integer i))
    | .VarcharType => pure (some (.Varchar p))
    | .BooleanType => pure (some (.Boolean (p == trueBytes)))
    | .BLOBType => do
      let d ← hexDecodeString p
      pure (some (.Blob d))
    | .other => pure none
  | .binary p =>
    match param.colType with
    | .IntegerType => do
      let i ← getInt64 p
      pure (some (.Integer i))
    | .VarcharType => pure (some (.Varchar p))
    -- `p[0] == byte(1)`
    | .BooleanType =>
      match p with
      | [] => throw .indexOutOfRange
      | b :: _ => pure (some (.Boolean (b == 1)))
    | .BLOBType => pure (some (.Blob p))
    | .other => pure none

/-- The loop of `buildNamedParams` over the statement's parameters, `paramsVal[index]` taken for
the parameter at `index`. -/
def buildNamedParamsLoop : List ColDescriptor → List ParamVal → List (String × ParamValue) →
    Except PgError (List (String × ParamValue))
  | [], _, pMap => pure pMap
  | _ :: _, [], _ => throw .indexOutOfRange
  | param :: params, val :: vals, pMap => do
    let v ← paramValue param val
    let pMap := match v with
      | some v => goMapSet pMap param.Column v
      | none => pMap
    buildNamedParamsLoop params vals pMap

/-- `buildNamedParams`: the named values bound, as the map `schema.EncodeParams` encodes. -/
def buildNamedParams (paramsType : List ColDescriptor) (paramsVal : List ParamVal) :
    Except PgError (List (String × ParamValue)) :=
  buildNamedParamsLoop paramsType paramsVal []


/-! ## 3. What `ParseBindMsg` fails with -/

/-- A computation that does not panic, followed by one that does not panic where it succeeds,
does not panic. -/
theorem not_panics_bind {α β : Type} {x : Except PgError α} {f : α → Except PgError β}
    (hx : ¬Panics x) (hf : ∀ a, x = .ok a → ¬Panics (f a)) : ¬Panics (x >>= f) := by
  rw [panics_bind]
  rintro (h | ⟨a, ha, h⟩)
  · exact hx h
  · exact hf a ha h

theorem bufRead_error {r : List UInt8} {n : Nat} {e : PgError} (h : bufRead r n = .error e) :
    e = .EOF := by
  unfold bufRead at h
  split_ifs at h
  · cases h
  · exact (Except.error.inj h).symm
  · cases h

theorem getNextString_error {r : List UInt8} {e : PgError} (h : getNextString r = .error e) :
    e = .EOF := by
  unfold getNextString at h
  split_ifs at h
  · cases h
  · exact (Except.error.inj h).symm

theorem getNextInt16_not_panics (r : List UInt8) : ¬Panics (getNextInt16 r) :=
  not_panics_bind (not_panics_of_EOF fun _ => bufRead_error) fun _ _ => not_panics_pure _

theorem getNextInt32_not_panics (r : List UInt8) : ¬Panics (getNextInt32 r) :=
  not_panics_bind (not_panics_of_EOF fun _ => bufRead_error) fun _ _ => not_panics_pure _

theorem readInt16s_not_panics : ∀ (n : Nat) (r : List UInt8), ¬Panics (readInt16s n r)
  | 0, _ => not_panics_pure _
  | n + 1, r => not_panics_bind (getNextInt16_not_panics r) fun p _ =>
      not_panics_bind (readInt16s_not_panics n p.2) fun _ _ => not_panics_pure _

/-- A format code is looked up only where there is one for each value, so the lookup never
misses. -/
theorem formatValue_not_panics {forceTXT forceBIN : Bool} {codes : List Int16} {i : Nat}
    (hcodes : forceTXT = true ∨ forceBIN = true ∨ i < codes.length) (pVal : List UInt8) :
    ¬Panics (formatValue forceTXT forceBIN codes i pVal) := by
  unfold formatValue
  split_ifs with hT hB
  · exact not_panics_pure _
  · exact not_panics_pure _
  · have hi : i < codes.length := by
      rcases hcodes with h | h | h
      · exact absurd h hT
      · exact absurd h hB
      · exact h
    rw [List.getElem?_eq_getElem hi]
    split <;> simp_all [PgError.IsPanic]

theorem readParamVals_not_panics (forceTXT forceBIN : Bool) (codes : List Int16) :
    ∀ (n i totalParamLen : Nat) (r : List UInt8),
      (forceTXT = true ∨ forceBIN = true ∨ i + n ≤ codes.length) →
      ¬Panics (readParamVals forceTXT forceBIN codes n i totalParamLen r)
  | 0, _, _, _, _ => not_panics_pure _
  | n + 1, i, totalParamLen, r, hcodes => by
    -- the `i`-th value has its code, and so do those after it
    have hnow : forceTXT = true ∨ forceBIN = true ∨ i < codes.length := by
      rcases hcodes with h | h | h
      · exact .inl h
      · exact .inr (.inl h)
      · exact .inr (.inr (by omega))
    have hnext : forceTXT = true ∨ forceBIN = true ∨ i + 1 + n ≤ codes.length := by
      rcases hcodes with h | h | h
      · exact .inl h
      · exact .inr (.inl h)
      · exact .inr (.inr (by omega))
    unfold readParamVals
    refine not_panics_bind (getNextInt32_not_panics r) fun ⟨pLen, r₁⟩ _ => ?_
    dsimp only
    split_ifs
    · simp [PgError.IsPanic]
    · simp [PgError.IsPanic]
    · refine not_panics_bind (not_panics_of_EOF fun _ => bufRead_error) fun ⟨got, r₂⟩ _ => ?_
      refine not_panics_bind (formatValue_not_panics hnow _) fun val _ => ?_
      exact not_panics_bind (readParamVals_not_panics forceTXT forceBIN codes n (i + 1) _ _ hnext)
        fun _ _ => not_panics_pure _


theorem formatOf_not_panics (codes : List Int16) : ¬Panics (formatOf codes) := by
  unfold formatOf
  split
  · exact not_panics_pure _
  · split_ifs
    · exact not_panics_pure _
    · exact not_panics_pure _
    · simp [PgError.IsPanic]
  · exact not_panics_pure _

/-- Without a forcing format code there is one code for each value. -/
theorem formatOf_forces {codes : List Int16} {forceTXT forceBIN : Bool} {pCount : Int16}
    (h : formatOf codes = .ok (forceTXT, forceBIN))
    (hlen : ¬(1 < codes.length ∧ (codes.length : Int) ≠ pCount.toInt)) :
    forceTXT = true ∨ forceBIN = true ∨ 0 + pCount.toInt.toNat ≤ codes.length := by
  match codes, h with
  | [], h =>
    cases h
    exact .inl rfl
  | [c], h =>
    simp only [formatOf] at h
    split_ifs at h
    · cases h
      exact .inl rfl
    · cases h
      exact .inr (.inl rfl)
  | c₁ :: c₂ :: cs, _ =>
    -- two codes or more: their number is the number of values
    simp only [List.length_cons, not_and, not_not] at hlen ⊢
    have := hlen (by omega)
    right; right
    omega

/-- `ParseBindMsg` never panics: it fails only with the errors it returns. -/
theorem ParseBindMsg_not_panics (payload : List UInt8) : ¬Panics (ParseBindMsg payload) := by
  unfold ParseBindMsg
  refine not_panics_bind (not_panics_of_EOF fun _ => getNextString_error) fun ⟨_, r₁⟩ _ => ?_
  refine not_panics_bind (not_panics_of_EOF fun _ => getNextString_error) fun ⟨_, r₂⟩ _ => ?_
  refine not_panics_bind (getNextInt16_not_panics r₂) fun ⟨n, r₃⟩ _ => ?_
  dsimp only
  split_ifs
  · simp [PgError.IsPanic]
  refine not_panics_bind (readInt16s_not_panics _ r₃) fun ⟨codes, r₄⟩ _ => ?_
  refine not_panics_bind (getNextInt16_not_panics r₄) fun ⟨pCount, r₅⟩ _ => ?_
  refine not_panics_bind (formatOf_not_panics codes) fun ⟨forceTXT, forceBIN⟩ hf => ?_
  dsimp only
  split_ifs with hlen
  · simp [PgError.IsPanic]
  refine not_panics_bind (readParamVals_not_panics _ _ _ _ _ _ _ (formatOf_forces hf hlen))
    fun ⟨_, r₆⟩ _ => ?_
  refine not_panics_bind (getNextInt16_not_panics r₆) fun ⟨m, r₇⟩ _ => ?_
  dsimp only
  split_ifs
  · simp [PgError.IsPanic]
  exact not_panics_bind (readInt16s_not_panics _ r₇) fun _ _ => not_panics_pure _


/-! ## 4. Where `buildNamedParams` panics -/

theorem parseUint10_not_panics : ∀ (s : List UInt8) (n : Nat), ¬Panics (parseUint10 s n)
  | [], _ => not_panics_pure _
  | c :: cs, n => by
    unfold parseUint10
    split_ifs
    · simp [PgError.IsPanic]
    · exact parseUint10_not_panics cs _
    · simp [PgError.IsPanic]

theorem Atoi_not_panics (s : List UInt8) : ¬Panics (Atoi s) := by
  unfold Atoi
  obtain ⟨neg, digits⟩ := splitSign s
  dsimp only
  by_cases hd : digits = []
  · rw [if_pos hd]
    simp [PgError.IsPanic]
  rw [if_neg hd]
  -- the range checks fail with `ErrRange`, and the value is returned otherwise
  refine not_panics_bind (parseUint10_not_panics digits 0) fun un _ => ?_
  split_ifs <;> simp [PgError.IsPanic]

theorem hexDecodeString_not_panics : ∀ s : List UInt8, ¬Panics (hexDecodeString s)
  | [] => not_panics_pure _
  | [_] => by simp [hexDecodeString, PgError.IsPanic]
  | a :: b :: rest => by
    unfold hexDecodeString
    split
    · exact not_panics_bind (hexDecodeString_not_panics rest) fun _ _ => not_panics_pure _
    · simp [PgError.IsPanic]

theorem getInt64_not_panics (p : List UInt8) : ¬Panics (getInt64 p) := by
  unfold getInt64
  split_ifs
  · exact not_panics_pure _
  · exact not_panics_pure _
  · exact not_panics_pure _
  · simp [PgError.IsPanic]

/-- The conversion of one value panics exactly on a binary boolean of no bytes. -/
theorem paramValue_panics_iff (d : ColDescriptor) (v : ParamVal) :
    Panics (paramValue d v) ↔ d.colType = .BooleanType ∧ v = .binary [] := by
  rcases d with ⟨name, ty⟩
  cases v with
  | text p =>
    -- a text value fails only with the error of its conversion
    have hne : ¬Panics (paramValue ⟨name, ty⟩ (.text p)) := by
      cases ty
      · exact not_panics_bind (Atoi_not_panics p) fun _ _ => not_panics_pure _
      · exact not_panics_pure _
      · exact not_panics_pure _
      · exact not_panics_bind (hexDecodeString_not_panics p) fun _ _ => not_panics_pure _
      · exact not_panics_pure _
    simp [hne]
  | binary p =>
    cases ty
    · have := not_panics_bind (f := fun i => (pure (some (ParamValue.Integer i)) :
        Except PgError (Option ParamValue))) (getInt64_not_panics p) fun _ _ => not_panics_pure _
      simpa [paramValue] using this
    · simp [paramValue]
    · cases p with
      | nil => simp [paramValue, PgError.IsPanic]
      | cons b bs => simp [paramValue]
    · simp [paramValue]
    · simp [paramValue]


/-- `buildNamedParams`' loop panics at the first parameter with no value, or with a binary
boolean of no bytes, when every parameter before it converts. -/
theorem buildNamedParamsLoop_panics_iff :
    ∀ (params : List ColDescriptor) (vals : List ParamVal) (pMap : List (String × ParamValue)),
      Panics (buildNamedParamsLoop params vals pMap) ↔
        ∃ (i : Nat) (d : ColDescriptor), params[i]? = some d ∧
          (∀ j < i, ∃ dj vj x, params[j]? = some dj ∧ vals[j]? = some vj ∧
            paramValue dj vj = .ok x) ∧
          (vals[i]? = none ∨ (d.colType = .BooleanType ∧ vals[i]? = some (.binary [])))
  | [], _, _ => by simp [buildNamedParamsLoop]
  | d :: _, [], _ => by
    simp only [buildNamedParamsLoop, panics_throw]
    exact ⟨fun _ => ⟨0, d, rfl, fun j hj => absurd hj (Nat.not_lt_zero j), .inl rfl⟩,
      fun _ => rfl⟩
  | d :: ds, v :: vs, pMap => by
    unfold buildNamedParamsLoop
    cases hp : paramValue d v with
    | error e =>
      -- the loop stops at the first parameter, which panics or fails
      have hfirst := paramValue_panics_iff d v
      rw [hp, panics_error] at hfirst
      rw [except_error_bind, panics_error, hfirst]
      constructor
      · rintro ⟨hb, rfl⟩
        exact ⟨0, d, rfl, fun j hj => absurd hj (Nat.not_lt_zero j), .inr ⟨hb, rfl⟩⟩
      · rintro ⟨i, d', hd', hbefore, hat⟩
        cases i with
        | zero =>
          cases hd'
          simp only [List.getElem?_cons_zero, reduceCtorEq, false_or, Option.some.injEq] at hat
          exact hat
        | succ i =>
          obtain ⟨dj, vj, x, hdj, hvj, hok⟩ := hbefore 0 (Nat.succ_pos i)
          cases hdj
          cases hvj
          rw [hp] at hok
          cases hok
    | ok x =>
      -- the first parameter converts, and the loop goes on with the rest
      rw [except_ok_bind, buildNamedParamsLoop_panics_iff ds vs]
      constructor
      · rintro ⟨i, d', hd', hbefore, hat⟩
        refine ⟨i + 1, d', hd', fun j hj => ?_, hat⟩
        cases j with
        | zero => exact ⟨d, v, x, rfl, rfl, hp⟩
        | succ j => exact hbefore j (by omega)
      · rintro ⟨i, d', hd', hbefore, hat⟩
        cases i with
        | zero =>
          -- the first parameter has its value, and it is no empty binary boolean
          cases hd'
          simp only [List.getElem?_cons_zero, reduceCtorEq, false_or, Option.some.injEq] at hat
          have hpan := (paramValue_panics_iff d v).mpr hat
          rw [hp] at hpan
          exact absurd hpan (not_panics_ok x)
        | succ i =>
          exact ⟨i, d', hd', fun j hj => hbefore (j + 1) (by omega), hat⟩


/-! ## 5. The Bind message in the query machine -/

/-- A prepared statement: the descriptors of its parameters. -/
structure Statement where
  Params : List ColDescriptor

/-- A portal: a statement with its parameters bound. -/
structure Portal where
  Name : List UInt8
  Statement : Statement
  Parameters : List (String × ParamValue)
  ResultColumnFormatCodes : List Int16

/-- The session's prepared statements and portals, and whether it skips the messages of the
extended query protocol up to the next Sync, after an error. -/
structure Session where
  statements : List (List UInt8 × Statement)
  portals : List (List UInt8 × Portal)
  waitForSync : Bool

/-- The server's answer to a message. -/
inductive Reply where
  | ErrorResponse (e : PgError)
  | BindComplete

/-- A Bind message read by `session.QueryMachine`: the session after it and the reply, none
for a message skipped. A panic is an error. -/
def Session.bind (s : Session) (payload : List UInt8) : Except PgError (Session × Option Reply) :=
  match ParseBindMsg payload with
  -- `nextMessage` fails, and the error is answered before any message is skipped
  | .error e => if e.IsPanic then throw e else pure (s, some (.ErrorResponse e))
  | .ok v =>
    if s.waitForSync then pure (s, none)
    -- unnamed portal overrides previous
    else if (s.portals.lookup v.DestPortalName).isSome ∧ v.DestPortalName ≠ [] then
      pure ({ s with waitForSync := true },
        some (.ErrorResponse (.portalAlreadyPresent v.DestPortalName)))
    else
      match s.statements.lookup v.PreparedStatementName with
      | none => pure ({ s with waitForSync := true },
          some (.ErrorResponse (.statementNotFound v.PreparedStatementName)))
      | some st =>
        match buildNamedParams st.Params v.ParamVals with
        | .error e =>
          if e.IsPanic then throw e
          else pure ({ s with waitForSync := true }, some (.ErrorResponse e))
        | .ok encodedParams =>
          let newPortal : Portal :=
            ⟨v.DestPortalName, st, encodedParams, v.ResultColumnFormatCodes⟩
          pure ({ s with portals := goMapSet s.portals v.DestPortalName newPortal },
            some .BindComplete)

/-- The query machine panics on a Bind message exactly where `buildNamedParams` does: the
message parses, is not skipped, names no other portal that exists, and names a statement. -/
theorem Session_bind_panics_iff (s : Session) (payload : List UInt8) :
    Panics (s.bind payload) ↔ s.waitForSync = false ∧ ∃ v st, ParseBindMsg payload = .ok v ∧
      ¬((s.portals.lookup v.DestPortalName).isSome ∧ v.DestPortalName ≠ []) ∧
      s.statements.lookup v.PreparedStatementName = some st ∧
      Panics (buildNamedParams st.Params v.ParamVals) := by
  unfold Session.bind
  cases hparse : ParseBindMsg payload with
  | error e =>
    -- the parser's errors are answered, for it never panics
    have he : ¬e.IsPanic := fun hp => ParseBindMsg_not_panics payload ⟨e, hparse, hp⟩
    simp [he]
  | ok v =>
    simp only [Except.ok.injEq, exists_and_left, exists_eq_left']
    cases hw : s.waitForSync
    · simp only [Bool.false_eq_true, if_false, true_and]
      split_ifs with hportal
      · simp [hportal]
      simp only [hportal, not_false_eq_true, true_and]
      cases hst : s.statements.lookup v.PreparedStatementName with
      | none => simp
      | some st =>
        simp only [Option.some.injEq, exists_eq_left']
        cases hb : buildNamedParams st.Params v.ParamVals with
        | error e =>
          by_cases he : e.IsPanic
          · simp [he]
          · simp [he]
        | ok params => simp
    · simp


/-! ## 6. Binary integers -/

/-- The value PostgreSQL gives a binary `int2`, `int4` or `int8`: its bytes big-endian, in two's
complement. -/
def wireInt (p : List UInt8) : Int :=
  if 2 ^ (8 * p.length - 1) ≤ ofBE p then (ofBE p : Int) - 2 ^ (8 * p.length) else ofBE p

/-- Two, four and eight bytes are all read as `Int64.ofNat` of their unsigned value. -/
theorem getInt64_of_length {p : List UInt8} (hp : p.length = 2 ∨ p.length = 4 ∨ p.length = 8) :
    getInt64 p = pure (Int64.ofNat (ofBE p)) := by
  unfold getInt64
  rcases hp with h | h | h <;> simp [h]

/-- Fewer than eight bytes are widened as unsigned: the value is the unsigned one. -/
theorem getInt64_short_toInt {p : List UInt8} (hp : p.length = 2 ∨ p.length = 4) :
    (Int64.ofNat (ofBE p)).toInt = ofBE p := by
  have hlt := ofBE_lt p
  have hsmall : ofBE p < 2 ^ 63 := by
    rcases hp with h | h <;> rw [h] at hlt <;> omega
  exact Int64.toInt_ofNat_of_lt hsmall

/-- `getInt64` reads eight bytes as the wire does, and two or four bytes as the wire does exactly
when their top bit is clear: a negative `int2` or `int4` is bound as a positive number. -/
theorem getInt64_eq_wireInt_iff (p : List UInt8)
    (hp : p.length = 2 ∨ p.length = 4 ∨ p.length = 8) :
    (∃ i, getInt64 p = .ok i ∧ i.toInt = wireInt p) ↔
      p.length = 8 ∨ ofBE p < 2 ^ (8 * p.length - 1) := by
  rw [getInt64_of_length hp]
  have hlt := ofBE_lt p
  simp only [pure, Except.pure, Except.ok.injEq, exists_eq_left', wireInt]
  rcases hp with h | h | h
  · -- two bytes: the unsigned value is the wire's only below `2 ^ 15`
    rw [getInt64_short_toInt (.inl h), h]
    rw [h] at hlt
    split_ifs <;> omega
  · rw [getInt64_short_toInt (.inr h), h]
    rw [h] at hlt
    split_ifs <;> omega
  · -- eight bytes: `int64` of the `Uint64` is the two's complement reading
    rw [Int64.toInt_ofNat', Int.bmod_def, h]
    rw [h] at hlt
    simp only [true_or, iff_true]
    norm_num [Int64.size] at hlt ⊢
    split_ifs <;> omega


/-- A Bind message makes the query machine panic exactly when `buildNamedParams` does on the
statement it names, and that is at the first parameter with no value or with a binary boolean of
no bytes, after parameters that all convert. A binary integer is bound as the wire's value for
eight bytes, and for two and four bytes only when its top bit is clear. -/
theorem bind_panics_iff_and_getInt64_wireInt :
    (∀ (s : Session) (payload : List UInt8),
      Panics (s.bind payload) ↔ s.waitForSync = false ∧ ∃ v st, ParseBindMsg payload = .ok v ∧
        ¬((s.portals.lookup v.DestPortalName).isSome ∧ v.DestPortalName ≠ []) ∧
        s.statements.lookup v.PreparedStatementName = some st ∧
        Panics (buildNamedParams st.Params v.ParamVals)) ∧
    (∀ (params : List ColDescriptor) (vals : List ParamVal),
      Panics (buildNamedParams params vals) ↔
        ∃ (i : Nat) (d : ColDescriptor), params[i]? = some d ∧
          (∀ j < i, ∃ dj vj x, params[j]? = some dj ∧ vals[j]? = some vj ∧
            paramValue dj vj = .ok x) ∧
          (vals[i]? = none ∨ (d.colType = .BooleanType ∧ vals[i]? = some (.binary [])))) ∧
    (∀ p : List UInt8, (p.length = 2 ∨ p.length = 4 ∨ p.length = 8) →
      ((∃ i, getInt64 p = .ok i ∧ i.toInt = wireInt p) ↔
        p.length = 8 ∨ ofBE p < 2 ^ (8 * p.length - 1))) :=
  ⟨Session_bind_panics_iff, fun params vals => buildNamedParamsLoop_panics_iff params vals [],
    getInt64_eq_wireInt_iff⟩

/-- The unnamed statement with one `INTEGER` parameter, bound by a Bind message with no values:
the query machine panics. And the binary `int2` of `-1`, `FF FF`, is not bound as `-1`. -/
theorem bind_no_values_panics :
    Panics (Session.bind ⟨[([], ⟨[⟨"a", .IntegerType⟩]⟩)], [], false⟩ [0, 0, 0, 0, 0, 0, 0, 0]) ∧
      ¬∃ i, getInt64 [255, 255] = .ok i ∧ i.toInt = wireInt [255, 255] := by
  obtain ⟨hbind, hparams, hint⟩ := bind_panics_iff_and_getInt64_wireInt
  refine ⟨(hbind _ _).mpr ⟨rfl, ⟨[], [], [], []⟩, ⟨[⟨"a", .IntegerType⟩]⟩, rfl, by simp, rfl, ?_⟩,
    fun h => absurd ((hint [255, 255] (.inl rfl)).mp h) (by decide)⟩
  exact (hparams _ _).mpr ⟨0, ⟨"a", .IntegerType⟩, rfl, fun j hj => absurd hj (Nat.not_lt_zero j),
    .inl rfl⟩

end Immudb.Pgsql
