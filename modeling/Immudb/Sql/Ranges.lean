import Mathlib.Data.List.Nodup
import Immudb.Sql.Values

/-!
# `Immudb/Sql/Ranges.lean` — a `WHERE` clause, and the ranges it leaves on each column

`embedded/sql/stmt.go`. A `WHERE` clause is an expression: columns, constants and parameters,
comparisons, `AND`, `OR` and `NOT` (`ValueExp`). Three things are computed from it. The
conditional row reader substitutes the parameters and reduces the clause on each row, and keeps
the rows it reduces to `true` (`satisfies`). The type checker of `InferParameters` infers the
type of each part (`inferType`, `requiresType`). And `genScanSpecs` asks it for the range of
values it allows on each column (`selectorRanges`): a comparison of a column with a constant
bounds the column (`updateRangeFor`); `AND` refines the bounds (`refineWith`); `OR` keeps, for
each column bounded on both sides, the hull of the two ranges (`extendWith`); anything else
bounds nothing.

The model covers one table, not aliased, and selectors that name a column of it. Go mutates
the expression tree as it substitutes parameters and infers the type of a `NULL`; for one run
of a statement that is the same as the functions here. The map `rangesByColID` is a list in the
order its entries were made; Go iterates a map in no fixed order, which changes at most which
of two errors is reported.

A range over-approximates the rows: every row the clause keeps has, in every bounded column,
a value between the bounds (`selectorRanges_holds`), as long as each constant a column is
compared with fits the column (`Exact`). The inclusive flags are computed as the source does,
but the key range ignores them, and so does this statement.
-/

set_option autoImplicit false

namespace Immudb.Sql

open Bytes

/-- `LogicOperator`. -/
inductive LogicOperator where
  | And
  | Or
  deriving DecidableEq, Repr

/-- The expressions of a `WHERE` clause: `ColSelector`, a constant (`Integer`, `Float64`,
`Varchar`, `Bool`, `NullValue`), `Param`, `CmpBoolExp`, `BinBoolExp` and `NotBoolExp`. -/
inductive ValueExp where
  | ColSelector (col : String)
  | Value (v : TypedValue)
  | Param (id : String)
  | CmpBoolExp (op : CmpOperator) (left right : ValueExp)
  | BinBoolExp (op : LogicOperator) (left right : ValueExp)
  | NotBoolExp (exp : ValueExp)
  deriving DecidableEq

/-- `revCol`. -/
def revCol : String := "_rev"

/-- `Index`, with the fields the scan reads. -/
structure Index where
  id : Nat
  cols : List Column

/-- `Table`: each column id and each column name once, as the catalog makes them. -/
structure Table where
  id : Nat
  name : String
  cols : List Column
  primaryIndex : Index
  ids_nodup : (cols.map Column.id).Nodup
  names_nodup : (cols.map Column.colName).Nodup

/-- `GetColumnByName(col)`. -/
def Table.GetColumnByName (table : Table) (col : String) : Except SqlError Column :=
  match table.cols.find? (·.colName = col) with
  | some c => pure c
  | none => throw .columnDoesNotExist

/-- The parameters of a statement, each as the `TypedValue` `Param.substitute` makes of it; a
parameter given as `nil` is `NullValue AnyType`. -/
abbrev Params := String → Option TypedValue

/-- A row: its values by column name, `NULL` included (`Row.ValuesBySelector`). -/
abbrev Row := String → Option TypedValue

namespace ValueExp

/-- `isConstant()`. -/
def isConstant : ValueExp → Bool
  | .ColSelector _ => false
  | .Value _ => true
  | .Param _ => true
  | .CmpBoolExp _ l r => l.isConstant && r.isConstant
  | .BinBoolExp _ l r => l.isConstant && r.isConstant
  | .NotBoolExp e => e.isConstant

theorem isConstant_cmpBoolExp (op : CmpOperator) (l r : ValueExp) :
    (CmpBoolExp op l r).isConstant = (l.isConstant && r.isConstant) := rfl

theorem isConstant_binBoolExp (op : LogicOperator) (l r : ValueExp) :
    (BinBoolExp op l r).isConstant = (l.isConstant && r.isConstant) := rfl

/-- `substitute(params)`. -/
def substitute (params : Params) : ValueExp → Except SqlError ValueExp
  | .Param id =>
    match params id with
    | some v => pure (.Value v)
    | none => throw .missingParameter
  | .CmpBoolExp op l r => do
    let rl ← l.substitute params
    let rr ← r.substitute params
    pure (.CmpBoolExp op rl rr)
  | .BinBoolExp op l r => do
    let rl ← l.substitute params
    let rr ← r.substitute params
    pure (.BinBoolExp op rl rr)
  | .NotBoolExp e => do
    let re ← e.substitute params
    pure (.NotBoolExp re)
  | e => pure e

/- The equations of `substitute`, and of `reduce` below, for the cases the proofs take apart:
they hold by definition, and the proofs rewrite with them rather than unfold the functions. -/

theorem substitute_param (params : Params) (id : String) :
    (Param id).substitute params =
      match params id with
      | some v => pure (.Value v)
      | none => throw .missingParameter := rfl

theorem substitute_cmpBoolExp (params : Params) (op : CmpOperator) (l r : ValueExp) :
    (CmpBoolExp op l r).substitute params = (do
      let rl ← l.substitute params
      let rr ← r.substitute params
      pure (.CmpBoolExp op rl rr)) := rfl

theorem substitute_binBoolExp (params : Params) (op : LogicOperator) (l r : ValueExp) :
    (BinBoolExp op l r).substitute params = (do
      let rl ← l.substitute params
      let rr ← r.substitute params
      pure (.BinBoolExp op rl rr)) := rfl

theorem substitute_notBoolExp (params : Params) (e : ValueExp) :
    (NotBoolExp e).substitute params = (do
      let re ← e.substitute params
      pure (.NotBoolExp re)) := rfl

section Reduce

variable (parseFloat : List UInt8 → Option ℚ)

/-- `reduce(tx, row, implicitTable)`; `none` is a reduction with no row. -/
def reduce (row : Option Row) : ValueExp → Except SqlError TypedValue
  | .ColSelector col =>
    match row with
    | none => throw .invalidValue
    | some row =>
      match row col with
      | some v => pure v
      | none => throw .columnDoesNotExist
  | .Value v => pure v
  | .Param _ => throw .unexpected
  | .CmpBoolExp op l r => do
    let vl ← l.reduce row
    let vr ← r.reduce row
    let c ← vl.Compare parseFloat vr
    pure (.Boolean (cmpSatisfiesOp c op))
  | .BinBoolExp op l r => do
    let .Boolean bl ← l.reduce row | throw .invalidValue
    -- short-circuit evaluation
    if (bl && op = .Or) || (!bl && op = .And) then return .Boolean bl
    let .Boolean br ← r.reduce row | throw .invalidValue
    match op with
    | .And => pure (.Boolean (bl && br))
    | .Or => pure (.Boolean (bl || br))
  | .NotBoolExp e => do
    let v ← e.reduce row
    let .bool r := v.RawValue | throw .invalidCondition
    pure (.Boolean !r)

theorem reduce_colSelector_some (row : Row) (col : String) :
    (ColSelector col).reduce parseFloat (some row) =
      match row col with
      | some v => pure v
      | none => throw .columnDoesNotExist := rfl

theorem reduce_cmpBoolExp (row : Option Row) (op : CmpOperator) (l r : ValueExp) :
    (CmpBoolExp op l r).reduce parseFloat row = (do
      let vl ← l.reduce parseFloat row
      let vr ← r.reduce parseFloat row
      let c ← vl.Compare parseFloat vr
      pure (.Boolean (cmpSatisfiesOp c op))) := rfl

theorem reduce_binBoolExp (row : Option Row) (op : LogicOperator) (l r : ValueExp) :
    (BinBoolExp op l r).reduce parseFloat row = (do
      let .Boolean bl ← l.reduce parseFloat row | throw .invalidValue
      if (bl && op = .Or) || (!bl && op = .And) then return .Boolean bl
      let .Boolean br ← r.reduce parseFloat row | throw .invalidValue
      match op with
      | .And => pure (.Boolean (bl && br))
      | .Or => pure (.Boolean (bl || br))) := rfl

theorem reduce_notBoolExp (row : Option Row) (e : ValueExp) :
    (NotBoolExp e).reduce parseFloat row = (do
      let v ← e.reduce parseFloat row
      let .bool r := v.RawValue | throw .invalidCondition
      pure (.Boolean !r)) := rfl

end Reduce

end ValueExp

/-- What `conditionalRowReader.Read` does with a row: `true` returns it, `false` skips it. -/
def satisfies (parseFloat : List UInt8 → Option ℚ) (params : Params) (cond : ValueExp)
    (row : Row) : Except SqlError Bool := do
  let cond ← cond.substitute params
  let r ← cond.reduce parseFloat (some row)
  match r with
  | .NullValue .BooleanType => pure false
  | .Boolean b => pure b
  | _ => throw .invalidCondition

/-! ## 1. The type checker -/

/-- `coerceTypes(t1, t2)`. -/
def coerceTypes (t1 t2 : SQLValueType) : Option SQLValueType :=
  if t1 = t2 then some t1
  else if t1 = .AnyType then some t2
  else if t2 = .AnyType then some t1
  else if (t1 = .IntegerType ∧ t2 = .Float64Type) ∨ (t1 = .Float64Type ∧ t2 = .IntegerType) then
    some .Float64Type
  else none

/-- The types `InferParameters` has given the parameters so far. -/
abbrev ParamTypes := String → Option SQLValueType

/-- `params[id] = t`. -/
def ParamTypes.set (pt : ParamTypes) (id : String) (t : SQLValueType) : ParamTypes :=
  fun x => if x = id then some t else pt x

mutual

/-- `inferType(cols, params, implicitTable)`, with the column types by name. -/
def inferType (cols : String → Option SQLValueType) :
    ValueExp → ParamTypes → Except SqlError (SQLValueType × ParamTypes)
  | .ColSelector col, pt =>
    match cols col with
    | some t => pure (t, pt)
    | none => throw .columnDoesNotExist
  | .Value v, pt => pure (v.type, pt)
  | .Param id, pt =>
    match pt id with
    | some t => pure (t, pt)
    | none => pure (.AnyType, pt.set id .AnyType)
  | .CmpBoolExp _ l r, pt => do
    let (tleft, pt) ← inferType cols l pt
    let (tright, pt) ← inferType cols r pt
    -- unification step
    if tleft = tright then return (.BooleanType, pt)
    if (coerceTypes tleft tright).isNone then throw .invalidTypes
    let pt ← if tleft = .AnyType then requiresType cols tright l pt else pure pt
    let pt ← if tright = .AnyType then requiresType cols tleft r pt else pure pt
    return (.BooleanType, pt)
  | .BinBoolExp _ l r, pt => do
    let pt ← requiresType cols .BooleanType l pt
    let pt ← requiresType cols .BooleanType r pt
    return (.BooleanType, pt)
  | .NotBoolExp e, pt => do
    let pt ← requiresType cols .BooleanType e pt
    return (.BooleanType, pt)
termination_by e => (sizeOf e, 0)

/-- `requiresType(t, cols, params, implicitTable)`. -/
def requiresType (cols : String → Option SQLValueType) (t : SQLValueType) :
    ValueExp → ParamTypes → Except SqlError ParamTypes
  | .ColSelector col, pt =>
    match cols col with
    | some ct => if ct ≠ t then throw .invalidTypes else pure pt
    | none => throw .columnDoesNotExist
  | .Value (.NullValue vt), pt =>
    if vt = t then pure pt else if vt ≠ .AnyType then throw .invalidTypes else pure pt
  | .Value v, pt => if t ≠ v.type then throw .invalidTypes else pure pt
  | .Param id, pt =>
    match pt id with
    | some currT => if currT ≠ t ∧ currT ≠ .AnyType then throw .inferredMultipleTypes
      else pure (pt.set id t)
    | none => pure (pt.set id t)
  | .CmpBoolExp op l r, pt =>
    if t ≠ .BooleanType then throw .invalidTypes
    else do
      let (_, pt) ← inferType cols (.CmpBoolExp op l r) pt
      pure pt
  | .BinBoolExp _ l r, pt =>
    if t ≠ .BooleanType then throw .invalidTypes
    else do
      let pt ← requiresType cols .BooleanType l pt
      requiresType cols .BooleanType r pt
  | .NotBoolExp e, pt =>
    if t ≠ .BooleanType then throw .invalidTypes else requiresType cols .BooleanType e pt
termination_by e => (sizeOf e, 1)

end

/-- The column types of a table, by name, as the type checker sees them. -/
def Table.colTypes (table : Table) (col : String) : Option SQLValueType :=
  (table.cols.find? (·.colName = col)).map (·.colType.toSQL)

/-! ## 2. Ranges -/

/-- `typedValueSemiRange`. -/
structure SemiRange where
  val : TypedValue
  inclusive : Bool

/-- `typedValueRange`: a missing bound is `nil`. -/
structure ValueRange where
  lRange : Option SemiRange
  hRange : Option SemiRange

/-- `rangesByColID`. -/
abbrev RangeMap := List (Nat × ValueRange)

namespace RangeMap

/-- `rangesByColID[colID]`. -/
def lookup (m : RangeMap) (colID : Nat) : Option ValueRange :=
  (m.find? (·.1 = colID)).map (·.2)

/-- `rangesByColID[colID] = r`. -/
def insert (m : RangeMap) (colID : Nat) (r : ValueRange) : RangeMap :=
  (colID, r) :: m.filter (·.1 ≠ colID)

end RangeMap

section Ranges

variable (parseFloat : List UInt8 → Option ℚ)

/-- `maxSemiRange(or1, or2)`. -/
def maxSemiRange (or1 or2 : SemiRange) : Except SqlError SemiRange := do
  let r ← or1.val.Compare parseFloat or2.val
  let maxVal := if r < 0 then or2.val else or1.val
  pure ⟨maxVal, or1.inclusive && or2.inclusive⟩

/-- `minSemiRange(or1, or2)`. -/
def minSemiRange (or1 or2 : SemiRange) : Except SqlError SemiRange := do
  let r ← or1.val.Compare parseFloat or2.val
  let minVal := if r > 0 then or2.val else or1.val
  pure ⟨minVal, or1.inclusive || or2.inclusive⟩

/-- `r.refineWith(refiningRange)`, which `AND` uses. -/
def ValueRange.refineWith (r refiningRange : ValueRange) : Except SqlError ValueRange := do
  let lRange ← match r.lRange, refiningRange.lRange with
    | none, l => pure l
    | some l₁, some l₂ => some <$> maxSemiRange parseFloat l₁ l₂
    | some l₁, none => pure (some l₁)
  let hRange ← match r.hRange, refiningRange.hRange with
    | none, h => pure h
    | some h₁, some h₂ => some <$> minSemiRange parseFloat h₁ h₂
    | some h₁, none => pure (some h₁)
  pure ⟨lRange, hRange⟩

/-- `r.extendWith(extendingRange)`, which `OR` uses. -/
def ValueRange.extendWith (r extendingRange : ValueRange) : Except SqlError ValueRange := do
  let lRange ← match r.lRange, extendingRange.lRange with
    | some l₁, some l₂ => some <$> minSemiRange parseFloat l₁ l₂
    | _, _ => pure none
  let hRange ← match r.hRange, extendingRange.hRange with
    | some h₁, some h₂ => some <$> maxSemiRange parseFloat h₁ h₂
    | _, _ => pure none
  pure ⟨lRange, hRange⟩

/-- `updateRangeFor(colID, val, cmp, rangesByColID)`. -/
def updateRangeFor (colID : Nat) (val : TypedValue) (cmp : CmpOperator) (m : RangeMap) :
    Except SqlError RangeMap :=
  let newRange : Option ValueRange := match cmp with
    | .EQ => some ⟨some ⟨val, true⟩, some ⟨val, true⟩⟩
    | .LT => some ⟨none, some ⟨val, false⟩⟩
    | .LE => some ⟨none, some ⟨val, true⟩⟩
    | .GT => some ⟨some ⟨val, false⟩, none⟩
    | .GE => some ⟨some ⟨val, true⟩, none⟩
    | .NE => none
  match newRange with
  -- `NE` bounds nothing
  | none => pure m
  | some newRange =>
    match m.lookup colID with
    | none => pure (m.insert colID newRange)
    | some currRange => do
      let r ← currRange.refineWith parseFloat newRange
      pure (m.insert colID r)

/-- `matchingFunc` of `CmpBoolExp.selectorRanges`: it reads the comparison's own sides, not its
arguments, and returns its second argument as the constant. -/
def matchingFunc (bexpLeft bexpRight : ValueExp) (_ right : ValueExp) :
    Option (String × ValueExp) :=
  match bexpLeft with
  | .ColSelector s => if s ≠ revCol ∧ bexpRight.isConstant then some (s, right) else none
  | _ => none

/-- The loop of `BinBoolExp.selectorRanges` for `OR`: each column bounded on both sides gets the
hull of its two ranges. -/
def extendLoop (rRanges : RangeMap) : RangeMap → RangeMap → Except SqlError RangeMap
  | [], m => pure m
  | (colID, lr) :: lRanges, m =>
    match rRanges.lookup colID with
    | none => extendLoop rRanges lRanges m
    | some rr => do
      let lr ← lr.extendWith parseFloat rr
      extendLoop rRanges lRanges (m.insert colID lr)

/-- `selectorRanges(table, asTable, params, rangesByColID)`. -/
def selectorRanges (table : Table) (params : Params) :
    ValueExp → RangeMap → Except SqlError RangeMap
  | .CmpBoolExp op left right, m =>
    let matched := match matchingFunc left right left right with
      | some r => some r
      | none => matchingFunc left right right left
    match matched with
    | none => pure m
    | some (col, c) => do
      let column ← table.GetColumnByName col
      match c.substitute params with
      -- not supported when parameters are not provided during query resolution
      | .error .missingParameter => pure m
      | .error e => throw e
      | .ok val => do
        let rval ← val.reduce parseFloat none
        updateRangeFor parseFloat column.id rval op m
  | .BinBoolExp .And left right, m => do
    let m ← selectorRanges table params left m
    selectorRanges table params right m
  | .BinBoolExp .Or left right, m => do
    let lRanges ← selectorRanges table params left []
    let rRanges ← selectorRanges table params right []
    extendLoop parseFloat rRanges lRanges m
  | _, m => pure m

end Ranges

/-! ## 3. The ranges hold every row the clause keeps -/

/-- Two columns of a table with one id are the same column. -/
theorem Table.col_eq_of_id {table : Table} {c₁ c₂ : Column} (h₁ : c₁ ∈ table.cols)
    (h₂ : c₂ ∈ table.cols) (h : c₁.id = c₂.id) : c₁ = c₂ :=
  List.inj_on_of_nodup_map table.ids_nodup h₁ h₂ h

theorem Table.GetColumnByName_ok {table : Table} {s : String} {col : Column}
    (h : table.GetColumnByName s = .ok col) : col ∈ table.cols ∧ col.colName = s := by
  unfold GetColumnByName at h
  cases hc : table.cols.find? (·.colName = s) with
  | none => rw [hc] at h; cases h
  | some c =>
    rw [hc] at h
    cases h
    exact ⟨List.mem_of_find?_eq_some hc, by simpa using List.find?_some hc⟩

namespace ValueRange

/-- The lower bounds of `r` satisfy `P`, and the upper ones `Q`. -/
def Bounds (P Q : TypedValue → Prop) (r : ValueRange) : Prop :=
  (∀ l ∈ r.lRange, P l.val) ∧ ∀ h ∈ r.hRange, Q h.val

/-- The bounds of `r` fit `col`. -/
def Fits (col : Column) (r : ValueRange) : Prop :=
  r.Bounds (Sql.Fits col) (Sql.Fits col)

/-- `v` is between the bounds of `r`, in the order of the keys of `col`. -/
def Holds (col : Column) (r : ValueRange) (v : TypedValue) : Prop :=
  r.Bounds (fun l => keyOf col l ≤ keyOf col v) (fun h => keyOf col v ≤ keyOf col h)

end ValueRange

namespace RangeMap

/-- Each range of `m` is of a column of `table`, and its bounds fit the column. -/
def Typed (table : Table) (m : RangeMap) : Prop :=
  ∀ e ∈ m, ∃ col ∈ table.cols, col.id = e.1 ∧ e.2.Fits col

/-- Each value of `row` that fits its column is within the column's range in `m`. -/
def Holds (table : Table) (row : Row) (m : RangeMap) : Prop :=
  ∀ e ∈ m, ∀ col ∈ table.cols, col.id = e.1 →
    ∀ v, row col.colName = some v → Fits col v → e.2.Holds col v

theorem mem_of_lookup {m : RangeMap} {c : Nat} {r : ValueRange} (h : m.lookup c = some r) :
    (c, r) ∈ m := by
  obtain ⟨e, he, rfl⟩ := Option.map_eq_some_iff.mp h
  have hc : e.1 = c := by simpa using List.find?_some he
  rw [← hc]
  exact List.mem_of_find?_eq_some he

theorem mem_insert {m : RangeMap} {c : Nat} {r : ValueRange} {e : Nat × ValueRange}
    (h : e ∈ m.insert c r) : e = (c, r) ∨ e ∈ m := by
  simp only [insert, List.mem_cons, List.mem_filter] at h
  exact h.imp id And.left

theorem Typed.nil (table : Table) : Typed table [] := fun _ h => absurd h List.not_mem_nil

theorem Holds.nil (table : Table) (row : Row) : Holds table row [] :=
  fun _ h => absurd h List.not_mem_nil

theorem Typed.insert {table : Table} {m : RangeMap} {col : Column} {r : ValueRange}
    (hm : m.Typed table) (hcol : col ∈ table.cols) (hr : r.Fits col) :
    (m.insert col.id r).Typed table := by
  intro e he
  rcases mem_insert he with rfl | he
  · exact ⟨col, hcol, rfl, hr⟩
  · exact hm e he

theorem Holds.insert {table : Table} {row : Row} {m : RangeMap} {c : Nat} {r : ValueRange}
    (hm : m.Holds table row) (hr : ∀ col ∈ table.cols, col.id = c →
      ∀ v, row col.colName = some v → Fits col v → r.Holds col v) :
    (m.insert c r).Holds table row := by
  intro e he
  rcases mem_insert he with rfl | he
  · exact hr
  · exact hm e he

/-- The range `m` gives the column `col` of `table`. -/
theorem Typed.lookup {table : Table} {m : RangeMap} {col : Column} {r : ValueRange}
    (hm : m.Typed table) (hcol : col ∈ table.cols) (h : m.lookup col.id = some r) :
    r.Fits col := by
  obtain ⟨col', hcol', hid, hr⟩ := hm _ (mem_of_lookup h)
  rwa [Table.col_eq_of_id hcol hcol' hid.symm]

theorem Typed.tail {table : Table} {e : Nat × ValueRange} {m : RangeMap}
    (h : Typed table (e :: m)) : m.Typed table :=
  fun e' he' => h e' (List.mem_cons_of_mem _ he')

theorem Holds.tail {table : Table} {row : Row} {e : Nat × ValueRange} {m : RangeMap}
    (h : Holds table row (e :: m)) : m.Holds table row :=
  fun e' he' => h e' (List.mem_cons_of_mem _ he')

end RangeMap

section Sound

variable {parseFloat : List UInt8 → Option ℚ}

theorem maxSemiRange_val {l₁ l₂ l : SemiRange} (h : maxSemiRange parseFloat l₁ l₂ = .ok l) :
    l.val = l₁.val ∨ l.val = l₂.val := by
  obtain ⟨c, -, h⟩ := bind_eq_ok.mp h
  cases h
  by_cases hc : c < 0 <;> simp [hc]

theorem minSemiRange_val {l₁ l₂ l : SemiRange} (h : minSemiRange parseFloat l₁ l₂ = .ok l) :
    l.val = l₁.val ∨ l.val = l₂.val := by
  obtain ⟨c, -, h⟩ := bind_eq_ok.mp h
  cases h
  by_cases hc : c > 0 <;> simp [hc]

/-- Of two bounds that fit a column, `maxSemiRange` keeps the one with the greater key. -/
theorem le_maxSemiRange {col : Column} {l₁ l₂ l : SemiRange} (h₁ : Fits col l₁.val)
    (h₂ : Fits col l₂.val) (h : maxSemiRange parseFloat l₁ l₂ = .ok l) :
    keyOf col l₁.val ≤ keyOf col l.val ∧ keyOf col l₂.val ≤ keyOf col l.val := by
  obtain ⟨c, hc, h⟩ := bind_eq_ok.mp h
  rw [Compare_fits parseFloat h₁ h₂] at hc
  cases hc
  cases h
  by_cases hneg : cmpOf (keyOf col l₁.val) (keyOf col l₂.val) < 0
  · simpa [hneg, List.le_refl] using cmpOf_nonpos_iff.mp (Int.le_of_lt hneg)
  · simpa [hneg, List.le_refl] using cmpOf_nonneg_iff.mp (Int.not_lt.mp hneg)

/-- Of two bounds that fit a column, `minSemiRange` keeps the one with the lesser key. -/
theorem minSemiRange_le {col : Column} {l₁ l₂ l : SemiRange} (h₁ : Fits col l₁.val)
    (h₂ : Fits col l₂.val) (h : minSemiRange parseFloat l₁ l₂ = .ok l) :
    keyOf col l.val ≤ keyOf col l₁.val ∧ keyOf col l.val ≤ keyOf col l₂.val := by
  obtain ⟨c, hc, h⟩ := bind_eq_ok.mp h
  rw [Compare_fits parseFloat h₁ h₂] at hc
  cases hc
  cases h
  by_cases hpos : cmpOf (keyOf col l₁.val) (keyOf col l₂.val) > 0
  · simpa [hpos, List.le_refl] using cmpOf_nonneg_iff.mp (Int.le_of_lt hpos)
  · simpa [hpos, List.le_refl] using cmpOf_nonpos_iff.mp (Int.not_lt.mp hpos)

/-- A bound picked of two keeps what holds of both. -/
theorem pick_forall {P : TypedValue → Prop} {pick : SemiRange → SemiRange → Except SqlError SemiRange}
    (hpick : ∀ {a b c}, pick a b = .ok c → c.val = a.val ∨ c.val = b.val) {a b : SemiRange}
    {o : Option SemiRange} (ha : P a.val) (hb : P b.val) (h : some <$> pick a b = .ok o) :
    ∀ l ∈ o, P l.val := by
  obtain ⟨c, hc, rfl⟩ := map_eq_ok.mp h
  intro l hl
  cases hl
  rcases hpick hc with e | e <;> rw [e] <;> assumption

/-- `AND` keeps, of each side, one of the two ranges' bounds: what holds of the bounds of both
holds of the range it makes. -/
theorem refineWith_bounds {P Q : TypedValue → Prop} {r r' r'' : ValueRange}
    (hr : r.Bounds P Q) (hr' : r'.Bounds P Q) (h : r.refineWith parseFloat r' = .ok r'') :
    r''.Bounds P Q := by
  obtain ⟨l₁, h₁⟩ := r
  obtain ⟨l₂, h₂⟩ := r'
  unfold ValueRange.refineWith at h
  extract_lets jpl at h
  -- the upper bound, once the lower one is chosen
  have hjp : ∀ lR, (∀ l ∈ lR, P l.val) → jpl lR = .ok r'' → r''.Bounds P Q := by
    intro lR hlR h
    simp only [jpl] at h
    split at h <;> obtain ⟨hR, hh, h⟩ := bind_eq_ok.mp h <;> cases h <;> refine ⟨hlR, ?_⟩
    · cases hh; exact hr'.2
    · exact pick_forall minSemiRange_val (hr.2 _ rfl) (hr'.2 _ rfl) hh
    · cases hh; exact hr.2
  dsimp only at h
  split at h <;> obtain ⟨lR, hl, h⟩ := bind_eq_ok.mp h
  · cases hl; exact hjp _ hr'.1 h
  · exact hjp _ (pick_forall maxSemiRange_val (hr.1 _ rfl) (hr'.1 _ rfl) hl) h
  · cases hl; exact hjp _ hr.1 h

/-- `OR` keeps a side only where both ranges bound it, with the bound `pick` makes of the two:
what holds of the bounds `pick` makes holds of the range. -/
theorem extendWith_bounds {P Q : TypedValue → Prop} {r r' r'' : ValueRange}
    (hl : ∀ a b c, a ∈ r.lRange → b ∈ r'.lRange → minSemiRange parseFloat a b = .ok c → P c.val)
    (hh : ∀ a b c, a ∈ r.hRange → b ∈ r'.hRange → maxSemiRange parseFloat a b = .ok c → Q c.val)
    (h : r.extendWith parseFloat r' = .ok r'') : r''.Bounds P Q := by
  obtain ⟨l₁, h₁⟩ := r
  obtain ⟨l₂, h₂⟩ := r'
  unfold ValueRange.extendWith at h
  extract_lets jpl at h
  -- the upper bound, once the lower one is chosen
  have hjp : ∀ lR, (∀ l ∈ lR, P l.val) → jpl lR = .ok r'' → r''.Bounds P Q := by
    intro lR hlR h
    simp only [jpl] at h
    split at h <;> obtain ⟨hR, hR', h⟩ := bind_eq_ok.mp h <;> cases h <;> refine ⟨hlR, ?_⟩
    · obtain ⟨c, hc, rfl⟩ := map_eq_ok.mp hR'
      rintro _ ⟨⟩
      exact hh _ _ _ rfl rfl hc
    · cases hR'; rintro _ ⟨⟩
  dsimp only at h
  split at h <;> obtain ⟨lR, hlR, h⟩ := bind_eq_ok.mp h
  · obtain ⟨c, hc, rfl⟩ := map_eq_ok.mp hlR
    refine hjp _ ?_ h
    rintro _ ⟨⟩
    exact hl _ _ _ rfl rfl hc
  · cases hlR; exact hjp _ (by rintro _ ⟨⟩) h

theorem extendWith_fits {col : Column} {r r' r'' : ValueRange} (hr : r.Fits col)
    (hr' : r'.Fits col) (h : r.extendWith parseFloat r' = .ok r'') : r''.Fits col := by
  refine extendWith_bounds (fun a b c ha hb hc => ?_) (fun a b c ha hb hc => ?_) h
  · rcases minSemiRange_val hc with e | e <;> rw [e]
    exacts [hr.1 a ha, hr'.1 b hb]
  · rcases maxSemiRange_val hc with e | e <;> rw [e]
    exacts [hr.2 a ha, hr'.2 b hb]

/-- `OR` keeps the hull of the two ranges: a value within either is within it. -/
theorem extendWith_holds {col : Column} {v : TypedValue} {r r' r'' : ValueRange}
    (hr : r.Fits col) (hr' : r'.Fits col) (hv : r.Holds col v ∨ r'.Holds col v)
    (h : r.extendWith parseFloat r' = .ok r'') : r''.Holds col v := by
  refine extendWith_bounds (fun a b c ha hb hc => ?_) (fun a b c ha hb hc => ?_) h
  · have hle := minSemiRange_le (hr.1 a ha) (hr'.1 b hb) hc
    rcases hv with hv | hv
    · exact List.le_trans hle.1 (hv.1 a ha)
    · exact List.le_trans hle.2 (hv.1 b hb)
  · have hle := le_maxSemiRange (hr.2 a ha) (hr'.2 b hb) hc
    rcases hv with hv | hv
    · exact List.le_trans (hv.2 a ha) hle.1
    · exact List.le_trans (hv.2 b hb) hle.2

/-- What a comparison that holds says of the keys it compares: a lower bound for `=`, `>` and
`>=`, an upper one for `=`, `<` and `<=`. -/
theorem cmpSatisfiesOp_cmpOf {a b : List UInt8} {op : CmpOperator}
    (h : cmpSatisfiesOp (cmpOf a b) op = true) :
    (op = .EQ ∨ op = .GT ∨ op = .GE → b ≤ a) ∧ (op = .EQ ∨ op = .LT ∨ op = .LE → a ≤ b) := by
  have hnn : 0 ≤ cmpOf a b → b ≤ a := cmpOf_nonneg_iff.mp
  have hnp : cmpOf a b ≤ 0 → a ≤ b := cmpOf_nonpos_iff.mp
  unfold cmpSatisfiesOp at h
  constructor <;> rintro (rfl | rfl | rfl) <;> split_ifs at h <;> simp at h
  all_goals first | exact hnn (by omega) | exact hnp (by omega)

/-- `updateRangeFor` leaves the map as it is, or gives the column a range whose bounds are `val`
on the sides the comparison bounds, refined by the range the column had. -/
theorem updateRangeFor_spec {colID : Nat} {val : TypedValue} {cmp : CmpOperator}
    {m m' : RangeMap} (h : updateRangeFor parseFloat colID val cmp m = .ok m') :
    m' = m ∨ ∃ r, m' = m.insert colID r ∧ ∀ P Q : TypedValue → Prop,
      (cmp = .EQ ∨ cmp = .GT ∨ cmp = .GE → P val) → (cmp = .EQ ∨ cmp = .LT ∨ cmp = .LE → Q val) →
      (∀ r₀, m.lookup colID = some r₀ → r₀.Bounds P Q) → r.Bounds P Q := by
  unfold updateRangeFor at h
  cases cmp
  case NE => exact .inl (by cases h; rfl)
  all_goals
    right
    dsimp only at h
    split at h
    · cases h
      refine ⟨_, rfl, fun P Q hP hQ _ => ⟨?_, ?_⟩⟩ <;> rintro _ ⟨⟩
      all_goals first | exact hP (by decide) | exact hQ (by decide)
    · obtain ⟨r, hr, h⟩ := bind_eq_ok.mp h
      cases h
      refine ⟨r, rfl, fun P Q hP hQ hm => refineWith_bounds (hm _ ‹_›) ⟨?_, ?_⟩ hr⟩ <;>
        rintro _ ⟨⟩
      all_goals first | exact hP (by decide) | exact hQ (by decide)

theorem updateRangeFor_typed {table : Table} {col : Column} {val : TypedValue}
    {cmp : CmpOperator} {m m' : RangeMap} (hm : m.Typed table) (hcol : col ∈ table.cols)
    (hval : Fits col val) (h : updateRangeFor parseFloat col.id val cmp m = .ok m') :
    m'.Typed table := by
  rcases updateRangeFor_spec h with rfl | ⟨r, rfl, hr⟩
  · exact hm
  · exact hm.insert hcol (hr _ _ (fun _ => hval) (fun _ => hval) fun _ h => hm.lookup hcol h)

/-- A comparison of the column `col` with `val` that the row satisfies keeps the row within the
range `updateRangeFor` gives the column. -/
theorem updateRangeFor_holds {table : Table} {row : Row} {col : Column} {val : TypedValue}
    {cmp : CmpOperator} {m m' : RangeMap} (hrow : m.Holds table row) (hcol : col ∈ table.cols)
    (hsat : ∀ v, row col.colName = some v → Fits col v →
      cmpSatisfiesOp (cmpOf (keyOf col v) (keyOf col val)) cmp = true)
    (h : updateRangeFor parseFloat col.id val cmp m = .ok m') : m'.Holds table row := by
  rcases updateRangeFor_spec h with rfl | ⟨r, rfl, hr⟩
  · exact hrow
  · refine hrow.insert fun col' hcol' hid v hv hfit => ?_
    obtain rfl := Table.col_eq_of_id hcol' hcol hid
    obtain ⟨hlo, hhi⟩ := cmpSatisfiesOp_cmpOf (hsat v hv hfit)
    exact hr _ _ hlo hhi fun r₀ h₀ => hrow _ (RangeMap.mem_of_lookup h₀) col' hcol' rfl v hv hfit

theorem extendLoop_typed {table : Table} {rRanges : RangeMap} (hr : rRanges.Typed table)
    {lRanges m m' : RangeMap} (hl : lRanges.Typed table) (hm : m.Typed table)
    (h : extendLoop parseFloat rRanges lRanges m = .ok m') : m'.Typed table := by
  induction lRanges generalizing m with
  | nil => cases h; exact hm
  | cons e lRanges ih =>
    obtain ⟨colID, lr⟩ := e
    unfold extendLoop at h
    split at h
    · exact ih hl.tail hm h
    · obtain ⟨r, hext, h⟩ := bind_eq_ok.mp h
      obtain ⟨col, hcol, rfl, hlr⟩ := hl _ List.mem_cons_self
      exact ih hl.tail (hm.insert hcol (extendWith_fits hlr (hr.lookup hcol ‹_›) hext)) h

/-- The loop of `OR` keeps a row that is within the ranges of either side. -/
theorem extendLoop_holds {table : Table} {row : Row} {rRanges : RangeMap}
    (hr : rRanges.Typed table) {lRanges m m' : RangeMap} (hl : lRanges.Typed table)
    (hor : lRanges.Holds table row ∨ rRanges.Holds table row) (hm : m.Holds table row)
    (h : extendLoop parseFloat rRanges lRanges m = .ok m') : m'.Holds table row := by
  induction lRanges generalizing m with
  | nil => cases h; exact hm
  | cons e lRanges ih =>
    obtain ⟨colID, lr⟩ := e
    unfold extendLoop at h
    split at h
    · exact ih hl.tail (hor.imp_left RangeMap.Holds.tail) hm h
    · rename_i rr hrr
      obtain ⟨r, hext, h⟩ := bind_eq_ok.mp h
      obtain ⟨col, hcol, rfl, hlr⟩ := hl _ List.mem_cons_self
      refine ih hl.tail (hor.imp_left RangeMap.Holds.tail)
        (hm.insert fun col' hcol' hid v hv hfit => ?_) h
      obtain rfl := Table.col_eq_of_id hcol' hcol hid
      refine extendWith_holds hlr (hr.lookup hcol hrr) ?_ hext
      exact hor.imp (fun h => h _ List.mem_cons_self col' hcol' rfl v hv hfit)
        (fun h => h _ (RangeMap.mem_of_lookup hrr) col' hcol' rfl v hv hfit)

end Sound

namespace ValueExp

variable {parseFloat : List UInt8 → Option ℚ} {params : Params}

theorem substitute_cmp {op : CmpOperator} {l r e' : ValueExp}
    (h : (CmpBoolExp op l r).substitute params = .ok e') :
    ∃ l' r', l.substitute params = .ok l' ∧ r.substitute params = .ok r' ∧
      e' = .CmpBoolExp op l' r' := by
  rw [substitute_cmpBoolExp] at h
  obtain ⟨l', hl, h⟩ := bind_eq_ok.mp h
  obtain ⟨r', hr, h⟩ := bind_eq_ok.mp h
  cases h
  exact ⟨l', r', hl, hr, rfl⟩

theorem substitute_bin {op : LogicOperator} {l r e' : ValueExp}
    (h : (BinBoolExp op l r).substitute params = .ok e') :
    ∃ l' r', l.substitute params = .ok l' ∧ r.substitute params = .ok r' ∧
      e' = .BinBoolExp op l' r' := by
  rw [substitute_binBoolExp] at h
  obtain ⟨l', hl, h⟩ := bind_eq_ok.mp h
  obtain ⟨r', hr, h⟩ := bind_eq_ok.mp h
  cases h
  exact ⟨l', r', hl, hr, rfl⟩

/-- Substituting the parameters of a constant leaves a constant. -/
theorem substitute_isConstant {e e' : ValueExp} (hc : e.isConstant = true)
    (h : e.substitute params = .ok e') : e'.isConstant = true := by
  induction e generalizing e' with
  | ColSelector _ => cases hc
  | Value _ => cases h; rfl
  | Param id =>
    rw [substitute_param] at h
    split at h
    · cases h; rfl
    · cases h
  | CmpBoolExp op l r ihl ihr =>
    rw [isConstant_cmpBoolExp, Bool.and_eq_true] at hc
    obtain ⟨l', r', hl, hr, rfl⟩ := substitute_cmp h
    rw [isConstant_cmpBoolExp, ihl hc.1 hl, ihr hc.2 hr, Bool.and_self]
  | BinBoolExp op l r ihl ihr =>
    rw [isConstant_binBoolExp, Bool.and_eq_true] at hc
    obtain ⟨l', r', hl, hr, rfl⟩ := substitute_bin h
    rw [isConstant_binBoolExp, ihl hc.1 hl, ihr hc.2 hr, Bool.and_self]
  | NotBoolExp e ih =>
    rw [substitute_notBoolExp] at h
    obtain ⟨e'', he, h⟩ := bind_eq_ok.mp h
    cases h
    -- `isConstant` of a negation is that of its operand, by definition
    exact (ih hc he : e''.isConstant = true)

/-- A constant reduces to the same value on every row as on none. -/
theorem reduce_of_isConstant (row : Row) {e : ValueExp} (hc : e.isConstant = true) :
    e.reduce parseFloat (some row) = e.reduce parseFloat none := by
  induction e with
  | ColSelector _ => cases hc
  | Value _ => rfl
  | Param _ => rfl
  | CmpBoolExp op l r ihl ihr =>
    rw [isConstant_cmpBoolExp, Bool.and_eq_true] at hc
    rw [reduce_cmpBoolExp, reduce_cmpBoolExp, ihl hc.1, ihr hc.2]
  | BinBoolExp op l r ihl ihr =>
    rw [isConstant_binBoolExp, Bool.and_eq_true] at hc
    rw [reduce_binBoolExp, reduce_binBoolExp, ihl hc.1, ihr hc.2]
  | NotBoolExp e ih => rw [reduce_notBoolExp, reduce_notBoolExp, ih hc]

theorem reduce_colSelector {row : Row} {s : String} {v : TypedValue}
    (h : (ColSelector s).reduce parseFloat (some row) = .ok v) : row s = some v := by
  rw [reduce_colSelector_some] at h
  split at h
  · cases h; assumption
  · cases h

theorem reduce_cmp {row : Option Row} {op : CmpOperator} {l r : ValueExp}
    (h : (CmpBoolExp op l r).reduce parseFloat row = .ok (.Boolean true)) :
    ∃ vl vr c, l.reduce parseFloat row = .ok vl ∧ r.reduce parseFloat row = .ok vr ∧
      vl.Compare parseFloat vr = .ok c ∧ cmpSatisfiesOp c op = true := by
  rw [reduce_cmpBoolExp] at h
  obtain ⟨vl, hl, h⟩ := bind_eq_ok.mp h
  obtain ⟨vr, hr, h⟩ := bind_eq_ok.mp h
  obtain ⟨c, hc, h⟩ := bind_eq_ok.mp h
  simp only [pure_eq_ok, Except.ok.injEq, TypedValue.Boolean.injEq] at h
  exact ⟨vl, vr, c, hl, hr, hc, h⟩

theorem reduce_and {row : Option Row} {l r : ValueExp}
    (h : (BinBoolExp .And l r).reduce parseFloat row = .ok (.Boolean true)) :
    l.reduce parseFloat row = .ok (.Boolean true) ∧ r.reduce parseFloat row = .ok (.Boolean true) := by
  rw [reduce_binBoolExp] at h
  obtain ⟨vl, hl, h⟩ := bind_eq_ok.mp h
  split at h
  · rename_i bl
    cases bl
    · -- `false AND _` stops at its left side
      rw [if_pos (by decide)] at h
      cases h
    · rw [if_neg (by decide)] at h
      obtain ⟨vr, hr, h⟩ := bind_eq_ok.mp h
      split at h
      · cases h
        exact ⟨hl, hr⟩
      · cases h
  · cases h

theorem reduce_or {row : Option Row} {l r : ValueExp}
    (h : (BinBoolExp .Or l r).reduce parseFloat row = .ok (.Boolean true)) :
    l.reduce parseFloat row = .ok (.Boolean true) ∨ r.reduce parseFloat row = .ok (.Boolean true) := by
  rw [reduce_binBoolExp] at h
  obtain ⟨vl, hl, h⟩ := bind_eq_ok.mp h
  split at h
  · rename_i bl
    cases bl
    · rw [if_neg (by decide)] at h
      obtain ⟨vr, hr, h⟩ := bind_eq_ok.mp h
      split at h
      · cases h
        exact .inr hr
      · cases h
    · -- `true OR _` stops at its left side
      exact .inl hl
  · cases h

end ValueExp

theorem satisfies_eq_true {parseFloat : List UInt8 → Option ℚ} {params : Params}
    {cond : ValueExp} {row : Row} (h : satisfies parseFloat params cond row = .ok true) :
    ∃ e, cond.substitute params = .ok e ∧ e.reduce parseFloat (some row) = .ok (.Boolean true) := by
  obtain ⟨e, he, h⟩ := bind_eq_ok.mp h
  obtain ⟨v, hv, h⟩ := bind_eq_ok.mp h
  refine ⟨e, he, ?_⟩
  split at h
  · cases h
  · cases h
    exact hv
  · cases h

/-- The clause compares each column it would bound with constants that fit the column, once the
parameters are in. -/
def Exact (parseFloat : List UInt8 → Option ℚ) (table : Table) (params : Params) :
    ValueExp → Prop
  | .CmpBoolExp _ (.ColSelector s) right =>
    ∀ col val v, table.GetColumnByName s = .ok col → right.substitute params = .ok val →
      val.reduce parseFloat none = .ok v → Fits col v
  | .BinBoolExp _ l r => Exact parseFloat table params l ∧ Exact parseFloat table params r
  | _ => True

section Sound

variable {parseFloat : List UInt8 → Option ℚ} {table : Table} {params : Params}

/-- `matchingFunc` looks at the comparison's own sides only: the side it is given as the
constant changes what it returns, never whether it matches. -/
theorem matchingFunc_eq_none {l r a b : ValueExp} (c d : ValueExp)
    (h : matchingFunc l r a b = none) : matchingFunc l r c d = none := by
  unfold matchingFunc at h ⊢
  split
  · rw [if_neg]
    intro hc
    simp [hc] at h
  · rfl

theorem matchingFunc_eq_some {l r a b : ValueExp} {s : String} {c : ValueExp}
    (h : matchingFunc l r a b = some (s, c)) :
    l = .ColSelector s ∧ r.isConstant = true ∧ c = b := by
  unfold matchingFunc at h
  split at h
  · split_ifs at h with hc
    cases h
    exact ⟨rfl, hc.2, rfl⟩
  · cases h

/-- A comparison bounds a column only when its left side is the column and its right side a
constant: `matchingFunc` is asked twice about the same sides, so `c = a` never matches. -/
theorem selectorRanges_cmp {op : CmpOperator} {left right : ValueExp} {m m' : RangeMap}
    (h : selectorRanges parseFloat table params (.CmpBoolExp op left right) m = .ok m') :
    m' = m ∨ ∃ s col val rval, left = .ColSelector s ∧ right.isConstant = true ∧
      table.GetColumnByName s = .ok col ∧ right.substitute params = .ok val ∧
      val.reduce parseFloat none = .ok rval ∧ updateRangeFor parseFloat col.id rval op m = .ok m' := by
  rw [selectorRanges] at h
  cases hm : matchingFunc left right left right with
  | none =>
    rw [hm, matchingFunc_eq_none right left hm] at h
    cases h
    exact .inl rfl
  | some p =>
    obtain ⟨s, c⟩ := p
    obtain ⟨rfl, hc, rfl⟩ := matchingFunc_eq_some hm
    rw [hm] at h
    obtain ⟨col, hcol, h⟩ := bind_eq_ok.mp h
    split at h
    · cases h
      exact .inl rfl
    · cases h
    · obtain ⟨rval, hr, h⟩ := bind_eq_ok.mp h
      exact .inr ⟨s, col, _, rval, rfl, hc, hcol, ‹_›, hr, h⟩

/-- The ranges of a clause whose constants fit their columns have bounds that fit them. -/
theorem selectorRanges_typed {e : ValueExp} {m m' : RangeMap}
    (hex : Exact parseFloat table params e) (hm : m.Typed table)
    (h : selectorRanges parseFloat table params e m = .ok m') : m'.Typed table := by
  induction e generalizing m m' with
  | CmpBoolExp op left right =>
    obtain rfl | ⟨s, col, val, rval, rfl, -, hcol, hval, hrval, h⟩ := selectorRanges_cmp h
    · exact hm
    · exact updateRangeFor_typed hm (Table.GetColumnByName_ok hcol).1
        (hex col val rval hcol hval hrval) h
  | BinBoolExp op left right ihl ihr =>
    cases op with
    | And =>
      obtain ⟨m₁, h₁, h⟩ := bind_eq_ok.mp h
      exact ihr hex.2 (ihl hex.1 hm h₁) h
    | Or =>
      obtain ⟨lR, hl, h⟩ := bind_eq_ok.mp h
      obtain ⟨rR, hr, h⟩ := bind_eq_ok.mp h
      exact extendLoop_typed (ihr hex.2 (.nil table) hr) (ihl hex.1 (.nil table) hl) hm h
  | _ => cases h; exact hm

/-- One step of the induction: a clause that reduces to `true` on `row` keeps the row within the
ranges, if it was within them before. -/
theorem selectorRanges_sound {row : Row} {e e' : ValueExp} {m m' : RangeMap}
    (hex : Exact parseFloat table params e) (hm : m.Typed table) (hrow : m.Holds table row)
    (hsub : e.substitute params = .ok e')
    (hred : e'.reduce parseFloat (some row) = .ok (.Boolean true))
    (h : selectorRanges parseFloat table params e m = .ok m') : m'.Holds table row := by
  induction e generalizing e' m m' with
  | CmpBoolExp op left right =>
    obtain rfl | ⟨s, col, val, rval, rfl, hc, hcol, hval, hrval, h⟩ := selectorRanges_cmp h
    · exact hrow
    obtain ⟨hmem, hname⟩ := Table.GetColumnByName_ok hcol
    obtain ⟨l', r', hl, hr, rfl⟩ := ValueExp.substitute_cmp hsub
    cases hl
    rw [hval] at hr
    cases hr
    obtain ⟨vl, vr, c, hvl, hvr, hcmp, hsat⟩ := ValueExp.reduce_cmp hred
    -- the constant reduces on the row as it did with none
    rw [ValueExp.reduce_of_isConstant row (ValueExp.substitute_isConstant hc hval), hrval] at hvr
    cases hvr
    have hfit : Fits col rval := hex col val rval hcol hval hrval
    refine updateRangeFor_holds hrow hmem (fun v hv hv' => ?_) h
    rw [hname, ValueExp.reduce_colSelector hvl] at hv
    cases hv
    rw [Compare_fits parseFloat hv' hfit] at hcmp
    cases hcmp
    exact hsat
  | BinBoolExp op left right ihl ihr =>
    obtain ⟨l', r', hl, hr, rfl⟩ := ValueExp.substitute_bin hsub
    cases op with
    | And =>
      obtain ⟨hl', hr'⟩ := ValueExp.reduce_and hred
      obtain ⟨m₁, h₁, h⟩ := bind_eq_ok.mp h
      exact ihr hex.2 (selectorRanges_typed hex.1 hm h₁) (ihl hex.1 hm hrow hl hl' h₁) hr hr' h
    | Or =>
      obtain ⟨lR, hlR, h⟩ := bind_eq_ok.mp h
      obtain ⟨rR, hrR, h⟩ := bind_eq_ok.mp h
      refine extendLoop_holds (selectorRanges_typed hex.2 (.nil table) hrR)
        (selectorRanges_typed hex.1 (.nil table) hlR) ?_ hrow h
      rcases ValueExp.reduce_or hred with hl' | hr'
      · exact .inl (ihl hex.1 (.nil table) (.nil table row) hl hl' hlR)
      · exact .inr (ihr hex.2 (.nil table) (.nil table row) hr hr' hrR)
  | _ => cases h; exact hrow

/-- Every row the clause keeps is within the ranges `selectorRanges` computes for it, in each
column where the row's value fits, as long as the constants the columns are compared with fit
them. -/
theorem selectorRanges_holds {row : Row} {e : ValueExp} {m : RangeMap}
    (hex : Exact parseFloat table params e) (hsat : satisfies parseFloat params e row = .ok true)
    (h : selectorRanges parseFloat table params e [] = .ok m) :
    m.Typed table ∧ m.Holds table row := by
  obtain ⟨e', hsub, hred⟩ := satisfies_eq_true hsat
  exact ⟨selectorRanges_typed hex (.nil table) h,
    selectorRanges_sound hex (.nil table) (.nil table row) hsub hred h⟩

end Sound

end Immudb.Sql
