import Immudb.Sql.Ranges

/-!
# `Immudb/Sql/IndexScan.lean` — the key range of an index scan, and the keys of the rows

`embedded/sql/row_reader.go` and `embedded/sql/engine.go`. A `SELECT` over a table reads one of
its indexes. `keyReaderSpecFrom` turns the ranges `selectorRanges` leaves on the columns of the
index into a range of keys, from `SeekKey` to `EndKey`, which the store's reader scans for the
keys with the index's prefix (`KeyReaderSpec.Covers`). `indexEntryMapperFor` gives the key each
row has in the index: the keys of its values in the index's columns, then those of its primary
key.

The scan loses no row whose values are within the ranges (`keyReaderSpecFrom_covers`): the
keys of one column sort as the values do, and no key of a column is a proper prefix of another,
so the low key stays below the key of the row and the high key above it, column by column.
Within the ranges is what `selectorRanges_holds` gives when the constants a clause compares
columns with fit the columns. A float constant compared with an integer column does not: it is
keyed as its truncation, but compared with the column's values as a float, so a row whose
integer `float64` rounds down to the constant is kept by the filter and missed by the scan
(`keyReaderSpecFrom_misses_rounded`).

The row the filter reads and the key the index holds are made here from one stored row, its
values by column id (`vals`), and one engine prefix.
-/

set_option autoImplicit false

namespace Immudb.Sql

open Bytes

/-- `MappedPrefix`: the bytes of `"M."`. -/
def MappedPrefix : List UInt8 := [77, 46]

/-- `EncodeID(id)`: four bytes, big-endian. -/
def EncodeID (id : Nat) : List UInt8 := be 4 id

/-- `MapKey(prefix, mappingPrefix, encValues...)`. -/
def MapKey (keyPrefix mappingPrefix : List UInt8) (encValues : List (List UInt8)) :
    List UInt8 :=
  keyPrefix ++ mappingPrefix ++ encValues.flatten

/-- `store.KeyReaderSpec`, with the fields `keyReaderSpecFrom` sets but the filters and
`IncludeHistory`. -/
structure KeyReaderSpec where
  SeekKey : List UInt8
  InclusiveSeek : Bool
  EndKey : List UInt8
  InclusiveEnd : Bool
  Prefix : List UInt8
  DescOrder : Bool
  deriving DecidableEq, Repr

/-- `ScanSpecs`, with the fields `keyReaderSpecFrom` reads. -/
structure ScanSpecs where
  Index : Index
  rangesByColID : RangeMap
  DescOrder : Bool

/-- The keys a reader of `spec` returns, by the checks of `tbtree.Reader.Read`: those with the
prefix, from the seek key to the end key in the order of the scan. -/
def KeyReaderSpec.Covers (spec : KeyReaderSpec) (k : List UInt8) : Prop :=
  spec.Prefix <+: k ∧
    if spec.DescOrder then
      (if spec.InclusiveEnd then spec.EndKey ≤ k else spec.EndKey < k) ∧
        (if spec.InclusiveSeek then k ≤ spec.SeekKey else k < spec.SeekKey)
    else
      (if spec.InclusiveSeek then spec.SeekKey ≤ k else spec.SeekKey < k) ∧
        (if spec.InclusiveEnd then k ≤ spec.EndKey else k < spec.EndKey)

instance (spec : KeyReaderSpec) (k : List UInt8) : Decidable (spec.Covers k) :=
  inferInstanceAs (Decidable (_ ∧ _))

/-- `valuesByColID` as `indexEntryMapperFor` fills it: `NULL` of its type for each column of the
table, overwritten by the values `valueExtractor` decodes from the stored row. -/
def Table.valuesByColID (table : Table) (vals : Nat → Option TypedValue) (id : Nat) :
    Option TypedValue :=
  match vals id with
  | some v => some v
  | none => (table.cols.find? (·.id = id)).map fun col => .NullValue col.colType.toSQL

/-- The row the reader of the table makes of the same stored row, by column name. -/
def Table.rowOf (table : Table) (vals : Nat → Option TypedValue) : Row := fun name =>
  (table.cols.find? (·.colName = name)).bind fun col => table.valuesByColID vals col.id

section KeyReader

variable (parseFloat : List UInt8 → Option ℚ)

/-- One side of a step of the loop of `keyReaderSpecFrom`: a key not yet ready grows by the key
of the column's bound on its side, or becomes ready where the column has none. -/
def growKey (col : Column) (bound : Option SemiRange) :
    List UInt8 × Bool → Except SqlError (List UInt8 × Bool)
  | (key, true) => pure (key, true)
  | (key, false) =>
    match bound with
    | none => pure (key, true)
    | some b => do
      let (encVal, _) ← EncodeValueAsKey parseFloat b.val col.colType col.MaxLen
      pure (key ++ encVal, false)

/-- The loop of `keyReaderSpecFrom` over the columns of the index, with the low key and the high
key and whether each is ready; it breaks at the first column with no range. -/
def keyReaderLoop (rangesByColID : RangeMap) :
    List Column → List UInt8 × Bool → List UInt8 × Bool →
      Except SqlError ((List UInt8 × Bool) × (List UInt8 × Bool))
  | [], lo, hi => pure (lo, hi)
  | col :: cols, lo, hi =>
    match rangesByColID.lookup col.id with
    | none => pure (lo, hi)
    | some colRange => do
      let hi ← growKey parseFloat col colRange.hRange hi
      let lo ← growKey parseFloat col colRange.lRange lo
      keyReaderLoop rangesByColID cols lo hi

/-- `keyReaderSpecFrom(sqlPrefix, table, scanSpecs)`. -/
def keyReaderSpecFrom (sqlPrefix : List UInt8) (table : Table) (scanSpecs : ScanSpecs) :
    Except SqlError KeyReaderSpec := do
  let keyPrefix :=
    MapKey sqlPrefix MappedPrefix [EncodeID table.id, EncodeID scanSpecs.Index.id]
  let ((loKey, _), (hiKey, _)) ← keyReaderLoop parseFloat scanSpecs.rangesByColID
    scanSpecs.Index.cols (keyPrefix, false) (keyPrefix, false)
  -- the high key takes in every key it is a prefix of
  let hiKey := hiKey ++ [KeyValPrefixUpperBound]
  let (seekKey, endKey) := if scanSpecs.DescOrder then (hiKey, loKey) else (loKey, hiKey)
  pure ⟨seekKey, true, endKey, true, keyPrefix, scanSpecs.DescOrder⟩

/-- The loop of `indexEntryMapperFor` over the columns of the index: the key of each column's
value, one after the other as `MapKey` writes them. -/
def encodeIndexValues (valuesByColID : Nat → Option TypedValue) :
    List Column → Except SqlError (List UInt8)
  | [] => pure []
  | col :: cols => do
    -- the columns of an index are the table's, each with a value
    let some v := valuesByColID col.id | throw .unexpected
    let (encKey, _) ← EncodeValueAsKey parseFloat v col.colType col.MaxLen
    let rest ← encodeIndexValues valuesByColID cols
    pure (encKey ++ rest)

/-- The loop of `encodedKey`, with the length of the values so far. -/
def encodedKeyLoop (valuesByColID : Nat → Option TypedValue) :
    List Column → Nat → Except SqlError (List UInt8 × Nat)
  | [], indexKeyLen => pure ([], indexKeyLen)
  | col :: cols, indexKeyLen => do
    let some rval := valuesByColID col.id | throw .pkCanNotBeNull
    if rval.IsNull then throw .pkCanNotBeNull
    let (encVal, n) ← EncodeValueAsKey parseFloat rval col.colType col.MaxLen
    if n > MaxKeyLen then throw .limitedKeyType
    let (rest, indexKeyLen) ← encodedKeyLoop valuesByColID cols (indexKeyLen + n)
    pure (encVal ++ rest, indexKeyLen)

/-- `encodedKey(index, valuesByColID)`: the keys of the values of the primary key. -/
def encodedKey (index : Index) (valuesByColID : Nat → Option TypedValue) :
    Except SqlError (List UInt8) := do
  let (valbuf, indexKeyLen) ← encodedKeyLoop parseFloat valuesByColID index.cols 0
  if indexKeyLen > MaxKeyLen then throw .limitedKeyType
  pure valbuf

/-- The key `indexEntryMapperFor(index, primaryIndex)` maps a stored row to. -/
def indexEntryMapperFor (sqlPrefix : List UInt8) (table : Table) (index : Index)
    (vals : Nat → Option TypedValue) : Except SqlError (List UInt8) := do
  let valuesByColID := table.valuesByColID vals
  let encVals ← encodeIndexValues parseFloat valuesByColID index.cols
  let pkEncVals ← encodedKey parseFloat table.primaryIndex valuesByColID
  pure (MapKey sqlPrefix MappedPrefix [EncodeID table.id, EncodeID index.id, encVals, pkEncVals])

end KeyReader

/-! ## 1. Keys of one column -/

section Keys

variable {parseFloat : List UInt8 → Option ℚ}

/-- Every key `EncodeRawValueAsKey` makes starts with `KeyValPrefixNull` or
`KeyValPrefixNotNull`, below `KeyValPrefixUpperBound`. -/
theorem EncodeRawValueAsKey_cons {val : GoValue} {colType : ColType} {maxLen : Nat}
    {k : List UInt8} {n : Nat}
    (h : EncodeRawValueAsKey parseFloat val colType maxLen = .ok (k, n)) :
    ∃ p t, k = p :: t ∧ p < KeyValPrefixUpperBound := by
  unfold EncodeRawValueAsKey at h
  extract_lets jp₁ jp₂ at h
  split at h
  · cases h
  simp only [jp₂] at h
  split at h
  · cases h
  simp only [jp₁] at h
  obtain ⟨conv, -, h⟩ := bind_eq_ok.mp h
  split at h
  · cases h; exact ⟨_, _, rfl, by decide⟩
  -- every other value is keyed after `KeyValPrefixNotNull`
  suffices ∃ t, k = KeyValPrefixNotNull :: t from
    let ⟨t, ht⟩ := this; ⟨_, t, ht, by decide⟩
  repeat' split at h
  all_goals first
    | (cases h; exact ⟨_, rfl⟩)
    | cases h

theorem cons_append_lt_top {p : UInt8} (hp : p < KeyValPrefixUpperBound) (t : List UInt8) :
    p :: t < [KeyValPrefixUpperBound] :=
  List.cons_lt_cons_iff.mpr (.inl hp)

theorem keyOf_cons {col : Column} {v : TypedValue} (hv : Fits col v) :
    ∃ p t, keyOf col v = p :: t ∧ p < KeyValPrefixUpperBound := by
  cases v with
  | Float64 _ => exact absurd hv id
  | _ => exact ⟨_, _, rfl, by decide⟩

/-- A key of a column, and whatever follows it, sorts below `KeyValPrefixUpperBound`. -/
theorem keyOf_append_lt_top {col : Column} {v : TypedValue} (hv : Fits col v)
    (Y : List UInt8) : keyOf col v ++ Y < [KeyValPrefixUpperBound] := by
  obtain ⟨p, t, ht, hp⟩ := keyOf_cons hv
  rw [ht, List.cons_append]
  exact cons_append_lt_top hp _

theorem keyOf_of_isNull {col : Column} {v : TypedValue} (hn : v.IsNull = true) :
    keyOf col v = [KeyValPrefixNull] := by
  cases v <;> first | rfl | simp [TypedValue.IsNull] at hn

/-- The keys of the values of a column that are not `NULL` have one length. -/
theorem keyOf_length {col : Column} {v : TypedValue} (hv : Fits col v)
    (hn : v.IsNull = false) :
    (keyOf col v).length =
      col.MaxLen + 1 + if col.colType = .VarcharType then EncLenLen else 0 := by
  cases v with
  | NullValue _ => simp [TypedValue.IsNull] at hn
  | Float64 _ => exact absurd hv id
  | Integer _ =>
    have hcol : col.colType = .IntegerType := hv
    simp [keyOf, Column.MaxLen, hcol, length_be]
  | Varchar s =>
    obtain ⟨hcol, hs, -⟩ := hv
    simp only [keyOf, hcol, if_true, List.length_append, List.length_cons,
      List.length_replicate, length_be]
    omega
  | Boolean _ =>
    have hcol : col.colType = .BooleanType := hv
    simp [keyOf, Column.MaxLen, hcol]

/-- No key of a column is a proper prefix of another: what follows two keys never changes
their order. -/
theorem keyOf_lt_append {col : Column} {a b : TypedValue} (ha : Fits col a) (hb : Fits col b)
    (h : keyOf col a < keyOf col b) (X Y : List UInt8) :
    keyOf col a ++ X < keyOf col b ++ Y := by
  cases hna : a.IsNull <;> cases hnb : b.IsNull
  · -- neither is `NULL`: keys of one length
    exact append_lt_append_of_lt h (by rw [keyOf_length ha hna, keyOf_length hb hnb])
  · -- only `b` is `NULL`, whose key sorts first
    obtain ⟨-, -, t, ht⟩ := ha.notNull hna
    rw [ht, keyOf_of_isNull hnb] at h
    simp [List.cons_lt_cons_iff, KeyValPrefixNotNull, KeyValPrefixNull] at h
  · obtain ⟨-, -, t, ht⟩ := hb.notNull hnb
    rw [keyOf_of_isNull hna, ht]
    exact List.cons_lt_cons_iff.mpr (.inl (by decide))
  · rw [keyOf_of_isNull hna, keyOf_of_isNull hnb] at h
    exact absurd h (List.lt_irrefl _)

end Keys

/-! ## 2. The low key and the high key against the key of a row -/

/-- Where the low key stands against `B`, the key of a row up to the column the loop is at:
equal and still growing, ready at a prefix of it, or below it whatever follows either. -/
def LoBelow (lo : List UInt8 × Bool) (B : List UInt8) : Prop :=
  (lo.2 = false ∧ lo.1 = B) ∨ (lo.2 = true ∧ lo.1 <+: B) ∨ ∀ X Y, lo.1 ++ X < B ++ Y

/-- Where the high key stands against `B`: equal and still growing, ready above every extension
of `B` once `KeyValPrefixUpperBound` follows it, or above `B` whatever follows either. -/
def HiAbove (hi : List UInt8 × Bool) (B : List UInt8) : Prop :=
  (hi.2 = false ∧ hi.1 = B) ∨ (hi.2 = true ∧ ∀ Y, B ++ Y < hi.1 ++ [KeyValPrefixUpperBound]) ∨
    ∀ X Y, B ++ Y < hi.1 ++ X

theorem LoBelow.le {lo : List UInt8 × Bool} {B : List UInt8} (h : LoBelow lo B)
    (rest : List UInt8) : lo.1 ≤ B ++ rest := by
  rcases h with ⟨-, h⟩ | ⟨-, h⟩ | h
  · rw [h]; exact List.le_append_left
  · exact (h.trans (List.prefix_append B rest)).le
  · simpa using List.le_of_lt (h [] rest)

theorem HiAbove.le {hi : List UInt8 × Bool} {B rest : List UInt8} (h : HiAbove hi B)
    (hr : rest < [KeyValPrefixUpperBound]) : B ++ rest ≤ hi.1 ++ [KeyValPrefixUpperBound] := by
  rcases h with ⟨-, h⟩ | ⟨-, h⟩ | h
  · rw [h]; exact List.le_of_lt (List.append_left_lt hr)
  · exact List.le_of_lt (h rest)
  · exact List.le_of_lt (h _ rest)

section Loop

variable {parseFloat : List UInt8 → Option ℚ}

/-- What a step of one side of the loop does: nothing once the key is ready, make it ready
where the column has no bound, or append the key of the bound. -/
theorem growKey_spec {col : Column} {bound : Option SemiRange} {key : List UInt8}
    {ready : Bool} {r : List UInt8 × Bool}
    (h : growKey parseFloat col bound (key, ready) = .ok r) :
    (ready = true ∧ r = (key, true)) ∨ (ready = false ∧ bound = none ∧ r = (key, true)) ∨
      ∃ b encVal n, ready = false ∧ bound = some b ∧
        EncodeValueAsKey parseFloat b.val col.colType col.MaxLen = .ok (encVal, n) ∧
        r = (key ++ encVal, false) := by
  cases ready with
  | true => cases h; exact .inl ⟨rfl, rfl⟩
  | false =>
    cases bound with
    | none => cases h; exact .inr (.inl ⟨rfl, rfl, rfl⟩)
    | some b =>
      obtain ⟨⟨encVal, n⟩, he, h⟩ := bind_eq_ok.mp h
      cases h
      exact .inr (.inr ⟨b, encVal, n, rfl, rfl, he, rfl⟩)

/-- A bound that fits an indexable column is appended as its key. -/
theorem EncodeValueAsKey_keyOf {col : Column} {v : TypedValue} {encVal : List UInt8} {n : Nat}
    (hc : col.Indexable) (hv : Fits col v)
    (h : EncodeValueAsKey parseFloat v col.colType col.MaxLen = .ok (encVal, n)) :
    encVal = keyOf col v := by
  obtain ⟨n', hn'⟩ := EncodeValueAsKey_fits parseFloat hc hv
  rw [hn'] at h
  cases h
  rfl

/-- The low key stays below the key of a row whose value `w` is above the column's lower
bound. -/
theorem growKey_lo {col : Column} {bound : Option SemiRange} {lo lo' : List UInt8 × Bool}
    {B : List UInt8} {w : TypedValue} (hc : col.Indexable) (hw : Fits col w)
    (hb : ∀ l ∈ bound, Fits col l.val ∧ keyOf col l.val ≤ keyOf col w)
    (hlo : LoBelow lo B) (h : growKey parseFloat col bound lo = .ok lo') :
    LoBelow lo' (B ++ keyOf col w) := by
  obtain ⟨key, ready⟩ := lo
  rcases growKey_spec h with ⟨rfl, rfl⟩ | ⟨rfl, -, rfl⟩ | ⟨l, encVal, n, rfl, rfl, he, rfl⟩
  · -- ready: the key stays where it was
    rcases hlo with ⟨⟨⟩, -⟩ | ⟨-, hp⟩ | hlt
    · exact .inr (.inl ⟨rfl, hp.trans (List.prefix_append _ _)⟩)
    · exact .inr (.inr fun X Y => by rw [List.append_assoc]; exact hlt X _)
  · -- no lower bound: the key is ready where it stands
    rcases hlo with ⟨-, rfl⟩ | ⟨⟨⟩, -⟩ | hlt
    · exact .inr (.inl ⟨rfl, List.prefix_append _ _⟩)
    · exact .inr (.inr fun X Y => by rw [List.append_assoc]; exact hlt X _)
  · obtain ⟨hl, hle⟩ := hb l rfl
    rw [EncodeValueAsKey_keyOf hc hl he]
    rcases hlo with ⟨-, rfl⟩ | ⟨⟨⟩, -⟩ | hlt
    · -- equal so far: the bound decides
      rcases List.le_iff_lt_or_eq.mp hle with hlt | heq
      · refine .inr (.inr fun X Y => ?_)
        simpa only [List.append_assoc] using List.append_left_lt (keyOf_lt_append hl hw hlt X Y)
      · exact .inl ⟨rfl, by rw [heq]⟩
    · refine .inr (.inr fun X Y => ?_)
      simpa only [List.append_assoc] using hlt (keyOf col l.val ++ X) (keyOf col w ++ Y)

/-- The high key stays above the key of a row whose value `w` is below the column's upper
bound. -/
theorem growKey_hi {col : Column} {bound : Option SemiRange} {hi hi' : List UInt8 × Bool}
    {B : List UInt8} {w : TypedValue} (hc : col.Indexable) (hw : Fits col w)
    (hb : ∀ u ∈ bound, Fits col u.val ∧ keyOf col w ≤ keyOf col u.val)
    (hhi : HiAbove hi B) (h : growKey parseFloat col bound hi = .ok hi') :
    HiAbove hi' (B ++ keyOf col w) := by
  obtain ⟨key, ready⟩ := hi
  rcases growKey_spec h with ⟨rfl, rfl⟩ | ⟨rfl, -, rfl⟩ | ⟨u, encVal, n, rfl, rfl, he, rfl⟩
  · rcases hhi with ⟨⟨⟩, -⟩ | ⟨-, hgt⟩ | hgt
    · exact .inr (.inl ⟨rfl, fun Y => by rw [List.append_assoc]; exact hgt _⟩)
    · exact .inr (.inr fun X Y => by rw [List.append_assoc]; exact hgt X _)
  · -- no upper bound: every key of the column sorts below `KeyValPrefixUpperBound`
    rcases hhi with ⟨-, rfl⟩ | ⟨⟨⟩, -⟩ | hgt
    · refine .inr (.inl ⟨rfl, fun Y => ?_⟩)
      rw [List.append_assoc]
      exact List.append_left_lt (keyOf_append_lt_top hw Y)
    · exact .inr (.inr fun X Y => by rw [List.append_assoc]; exact hgt X _)
  · obtain ⟨hu, hle⟩ := hb u rfl
    rw [EncodeValueAsKey_keyOf hc hu he]
    rcases hhi with ⟨-, rfl⟩ | ⟨⟨⟩, -⟩ | hgt
    · rcases List.le_iff_lt_or_eq.mp hle with hlt | heq
      · refine .inr (.inr fun X Y => ?_)
        simpa only [List.append_assoc] using List.append_left_lt (keyOf_lt_append hw hu hlt Y X)
      · exact .inl ⟨rfl, by rw [heq]⟩
    · refine .inr (.inr fun X Y => ?_)
      simpa only [List.append_assoc] using hgt (keyOf col u.val ++ X) (keyOf col w ++ Y)

end Loop

/-! ## 3. The row, its key, and the scan -/

/-- The column of a list with one value of a key that has the key of `a` is `a`. -/
theorem find?_eq_of_nodup {α β : Type} [DecidableEq β] {f : α → β} {l : List α}
    (hl : (l.map f).Nodup) {a : α} (ha : a ∈ l) : l.find? (fun x => f x = f a) = some a := by
  cases h : l.find? (fun x => f x = f a) with
  | none => exact absurd ha (by simpa using List.find?_eq_none.mp h a)
  | some b =>
    have hb : f b = f a := by simpa using List.find?_some h
    rw [List.inj_on_of_nodup_map hl (List.mem_of_find?_eq_some h) ha hb]

/-- The filter and the index read one value of each column of a stored row: `NULL` of the
column's type where the row has none. -/
theorem Table.value_of_mem {table : Table} {vals : Nat → Option TypedValue}
    (hvals : ∀ col ∈ table.cols, ∀ v, vals col.id = some v → Fits col v) {col : Column}
    (hcol : col ∈ table.cols) :
    ∃ w, table.valuesByColID vals col.id = some w ∧ table.rowOf vals col.colName = some w ∧
      Fits col w := by
  have hrow : table.rowOf vals col.colName = table.valuesByColID vals col.id := by
    simp only [rowOf, find?_eq_of_nodup table.names_nodup hcol, Option.bind_some]
  rw [hrow]
  cases hv : vals col.id with
  | some v =>
    have hvb : table.valuesByColID vals col.id = some v := by simp [valuesByColID, hv]
    exact ⟨v, hvb, hvb, hvals col hcol v hv⟩
  | none =>
    have hvb : table.valuesByColID vals col.id = some (.NullValue col.colType.toSQL) := by
      simp [valuesByColID, hv, find?_eq_of_nodup table.ids_nodup hcol]
    exact ⟨_, hvb, hvb, .inl rfl⟩

section Scan

variable {parseFloat : List UInt8 → Option ℚ}

theorem encodeIndexValues_cons {valuesByColID : Nat → Option TypedValue} {col : Column}
    {cols : List Column} {E : List UInt8}
    (h : encodeIndexValues parseFloat valuesByColID (col :: cols) = .ok E) :
    ∃ v encKey n E', valuesByColID col.id = some v ∧
      EncodeValueAsKey parseFloat v col.colType col.MaxLen = .ok (encKey, n) ∧
      encodeIndexValues parseFloat valuesByColID cols = .ok E' ∧ E = encKey ++ E' := by
  rw [encodeIndexValues] at h
  split at h
  · rename_i v hv
    obtain ⟨⟨encKey, n⟩, he, h⟩ := bind_eq_ok.mp h
    obtain ⟨E', hE', h⟩ := bind_eq_ok.mp h
    cases h
    exact ⟨v, encKey, n, E', hv, he, hE', rfl⟩
  · cases h

/-- The loop keeps the low key below, and the high key above, the key of a row whose values are
within the ranges of the index's columns; `B` is the key so far, `E` the keys of the values of
the columns left, and `pk` what follows them. -/
theorem keyReaderLoop_bounds {table : Table} {m : RangeMap} {row : Row}
    {valuesByColID : Nat → Option TypedValue} (hm : m.Typed table) (hrow : m.Holds table row)
    (hvals : ∀ col ∈ table.cols,
      ∃ w, valuesByColID col.id = some w ∧ row col.colName = some w ∧ Fits col w)
    {pk : List UInt8} (hpk : pk < [KeyValPrefixUpperBound]) :
    ∀ {cols : List Column} {lo hi lo' hi' : List UInt8 × Bool} {B E : List UInt8},
      (∀ col ∈ cols, col ∈ table.cols ∧ col.Indexable) → LoBelow lo B → HiAbove hi B →
      encodeIndexValues parseFloat valuesByColID cols = .ok E →
      keyReaderLoop parseFloat m cols lo hi = .ok (lo', hi') →
      lo'.1 ≤ B ++ E ++ pk ∧ B ++ E ++ pk ≤ hi'.1 ++ [KeyValPrefixUpperBound]
  | [], lo, hi, lo', hi', B, E, _, hlo, hhi, hE, h => by
    cases hE
    cases h
    rw [List.append_nil]
    exact ⟨hlo.le pk, hhi.le hpk⟩
  | col :: cols, lo, hi, lo', hi', B, E, hcols, hlo, hhi, hE, h => by
    obtain ⟨hmem, hc⟩ := hcols col List.mem_cons_self
    obtain ⟨w, hw, hrw, hfit⟩ := hvals col hmem
    obtain ⟨v, encKey, n, E', hv, he, hE', rfl⟩ := encodeIndexValues_cons hE
    rw [hw] at hv
    cases hv
    rw [EncodeValueAsKey_keyOf hc hfit he]
    have hrest : keyOf col w ++ E' ++ pk < [KeyValPrefixUpperBound] := by
      rw [List.append_assoc]; exact keyOf_append_lt_top hfit _
    rw [keyReaderLoop] at h
    split at h
    · -- no range on the column: the loop breaks
      cases h
      rw [List.append_assoc B]
      exact ⟨hlo.le _, hhi.le hrest⟩
    · rename_i r hr
      have hfr : r.Fits col := hm.lookup hmem hr
      have hhr : r.Holds col w := hrow _ (RangeMap.mem_of_lookup hr) col hmem rfl w hrw hfit
      obtain ⟨hi₁, hhi₁, h⟩ := bind_eq_ok.mp h
      obtain ⟨lo₁, hlo₁, h⟩ := bind_eq_ok.mp h
      have ih := keyReaderLoop_bounds hm hrow hvals hpk (fun c hc' => hcols c (.tail _ hc'))
        (growKey_lo hc hfit (fun l hl => ⟨hfr.1 l hl, hhr.1 l hl⟩) hlo hlo₁)
        (growKey_hi hc hfit (fun u hu => ⟨hfr.2 u hu, hhr.2 u hu⟩) hhi hhi₁) hE' h
      simpa only [List.append_assoc] using ih

/-- The keys of a primary key: nothing for no column, and otherwise a first byte below
`KeyValPrefixUpperBound`. -/
theorem encodedKeyLoop_head {valuesByColID : Nat → Option TypedValue} :
    ∀ {cols : List Column} {len len' : Nat} {k : List UInt8},
      encodedKeyLoop parseFloat valuesByColID cols len = .ok (k, len') →
      (cols = [] ∧ k = []) ∨ ∃ p t, k = p :: t ∧ p < KeyValPrefixUpperBound
  | [], _, _, _, h => by cases h; exact .inl ⟨rfl, rfl⟩
  | col :: cols, len, len', k, h => by
    rw [encodedKeyLoop] at h
    split at h
    · split_ifs at h with hnull
      · cases h
      obtain ⟨⟨encVal, n⟩, he, h⟩ := bind_eq_ok.mp h
      dsimp only at h
      split_ifs at h
      · cases h
      obtain ⟨⟨rest, len₁⟩, -, h⟩ := bind_eq_ok.mp h
      cases h
      obtain ⟨p, t, rfl, hp⟩ := EncodeRawValueAsKey_cons he
      exact .inr ⟨p, t ++ rest, rfl, hp⟩
    · cases h

theorem encodedKey_head {index : Index} {valuesByColID : Nat → Option TypedValue}
    {k : List UInt8} (h : encodedKey parseFloat index valuesByColID = .ok k) :
    (index.cols = [] ∧ k = []) ∨ ∃ p t, k = p :: t ∧ p < KeyValPrefixUpperBound := by
  obtain ⟨⟨valbuf, len⟩, hloop, h⟩ := bind_eq_ok.mp h
  dsimp only at h
  split_ifs at h
  · cases h
  · cases h
    exact encodedKeyLoop_head hloop

/-- The keys of a primary key sort below `KeyValPrefixUpperBound`. -/
theorem encodedKey_lt_top {index : Index} {valuesByColID : Nat → Option TypedValue}
    {k : List UInt8} (h : encodedKey parseFloat index valuesByColID = .ok k) :
    k < [KeyValPrefixUpperBound] := by
  rcases encodedKey_head h with ⟨-, rfl⟩ | ⟨p, t, rfl, hp⟩
  · exact List.nil_lt_cons _ _
  · exact cons_append_lt_top hp t

/-- The key of a row in an index: the index's prefix, the keys of its values in the index's
columns, then those of its primary key. -/
theorem indexEntryMapperFor_ok {sqlPrefix : List UInt8} {table : Table} {index : Index}
    {vals : Nat → Option TypedValue} {K : List UInt8}
    (h : indexEntryMapperFor parseFloat sqlPrefix table index vals = .ok K) :
    ∃ E pk, encodeIndexValues parseFloat (table.valuesByColID vals) index.cols = .ok E ∧
      pk < [KeyValPrefixUpperBound] ∧
      K = MapKey sqlPrefix MappedPrefix [EncodeID table.id, EncodeID index.id] ++ E ++ pk := by
  obtain ⟨E, hE, h⟩ := bind_eq_ok.mp h
  obtain ⟨pk, hpk, h⟩ := bind_eq_ok.mp h
  cases h
  exact ⟨E, pk, hE, encodedKey_lt_top hpk, by simp [MapKey]⟩

end Scan

/-! ## 4. A table of one integer column -/

/-- A column `a INTEGER`. -/
def intCol (colID : Nat) : Column := ⟨colID, "a", .IntegerType, 0⟩

/-- A table `t` of the one column `a INTEGER PRIMARY KEY`. -/
def intTable (tableID colID : Nat) : Table :=
  ⟨tableID, "t", [intCol colID], ⟨0, [intCol colID]⟩, by simp, by simp⟩

/-- The stored row `a = v`. -/
def intRow (colID : Nat) (v : Int64) (id : Nat) : Option TypedValue :=
  if id = colID then some (.Integer v) else none

/-- `WHERE a = c` for a float constant `c`. -/
def eqFloat (c : ℚ) : ValueExp := .CmpBoolExp .EQ (.ColSelector "a") (.Value (.Float64 c))

section Rounding

variable {parseFloat : List UInt8 → Option ℚ}

/-- The key of a float constant in an integer column is the key of its truncation. -/
theorem EncodeValueAsKey_float_integer (c : ℚ) (maxLen : Nat) :
    EncodeValueAsKey parseFloat (.Float64 c) .IntegerType maxLen =
      EncodeValueAsKey parseFloat (.Integer (int64OfFloat c)) .IntegerType maxLen := rfl

/-- The filter compares an integer with a float constant as `float64` of the integer. -/
theorem Compare_integer_float (v : Int64) (c : ℚ) :
    (TypedValue.Integer v).Compare parseFloat (.Float64 c) = .ok (-cmpOf c (float64OfInt v)) :=
  rfl

/-- An index scan loses a row the filter keeps. Take an integer `v` that `float64` rounds down:
the integer `int64` makes of `float64 v` is below `v`. The clause `a = float64 v` type checks
and holds of the row `a = v`, since the filter compares `float64 v` with itself; but the scan
for it ends at the key of the truncation, below the key of the row. -/
theorem keyReaderSpecFrom_misses_rounded (sqlPrefix : List UInt8) (params : Params)
    (tableID colID : Nat) (v : Int64) (hv : int64OfFloat (float64OfInt v) < v) :
    (∀ pt, inferType (intTable tableID colID).colTypes (eqFloat (float64OfInt v)) pt =
      .ok (.BooleanType, pt)) ∧
    satisfies parseFloat params (eqFloat (float64OfInt v))
      ((intTable tableID colID).rowOf (intRow colID v)) = .ok true ∧
    ∃ m spec K,
      selectorRanges parseFloat (intTable tableID colID) params (eqFloat (float64OfInt v)) [] =
        .ok m ∧
      keyReaderSpecFrom parseFloat sqlPrefix (intTable tableID colID)
        ⟨(intTable tableID colID).primaryIndex, m, false⟩ = .ok spec ∧
      indexEntryMapperFor parseFloat sqlPrefix (intTable tableID colID)
        (intTable tableID colID).primaryIndex (intRow colID v) = .ok K ∧
      ¬ spec.Covers K := by
  have hk : ∀ w : Int64, EncodeValueAsKey parseFloat (.Integer w) .IntegerType 8 =
      .ok (keyOf (intCol colID) (.Integer w), 8) := fun w => by
    rw [keyOf, ← flipSign_beInt (Int64.le_toInt w) (Int64.toInt_lt w)]
    rfl
  -- the key the scan ends at is below the key of the row
  have hlt : keyOf (intCol colID) (.Integer (int64OfFloat (float64OfInt v))) <
      keyOf (intCol colID) (.Integer v) := by
    have hiv := Int64.lt_iff_toInt_lt.mp hv
    have hi := Int64.le_toInt (int64OfFloat (float64OfInt v))
    have hv' := Int64.toInt_lt v
    refine List.cons_lt_cons_iff.mpr (.inr ⟨rfl, be_lt_be (by omega) ?_⟩)
    simp only [Nat.reduceMul, Nat.reducePow]
    omega
  refine ⟨fun pt => ?_, ?_, [(colID, ⟨some ⟨.Float64 (float64OfInt v), true⟩,
      some ⟨.Float64 (float64OfInt v), true⟩⟩)],
    ⟨MapKey sqlPrefix MappedPrefix [EncodeID tableID, EncodeID 0] ++
        keyOf (intCol colID) (.Integer (int64OfFloat (float64OfInt v))), true,
      MapKey sqlPrefix MappedPrefix [EncodeID tableID, EncodeID 0] ++
        keyOf (intCol colID) (.Integer (int64OfFloat (float64OfInt v))) ++
          [KeyValPrefixUpperBound], true,
      MapKey sqlPrefix MappedPrefix [EncodeID tableID, EncodeID 0], false⟩,
    MapKey sqlPrefix MappedPrefix [EncodeID tableID, EncodeID 0] ++
      keyOf (intCol colID) (.Integer v) ++ keyOf (intCol colID) (.Integer v),
    rfl, ?_, ?_, ?_⟩
  · simp [inferType, eqFloat, Table.colTypes, intTable, intCol, coerceTypes, TypedValue.type,
      ColType.toSQL]
    rfl
  · have hrow : (intTable tableID colID).rowOf (intRow colID v) "a" = some (.Integer v) := by
      simp [Table.rowOf, intTable, intCol, Table.valuesByColID, intRow]
    simp [satisfies, eqFloat, ValueExp.substitute, ValueExp.reduce, hrow, Compare_integer_float,
      cmpOf, cmpSatisfiesOp]
    rfl
  · simp [keyReaderSpecFrom, keyReaderLoop, intTable, intCol, RangeMap.lookup, growKey,
      EncodeValueAsKey_float_integer, Column.MaxLen, hk, bind, Except.bind, pure_eq_ok]
  · simp [indexEntryMapperFor, encodeIndexValues, encodedKey, encodedKeyLoop, intTable, intCol,
      intRow, Table.valuesByColID, Column.MaxLen, TypedValue.IsNull, MaxKeyLen, MapKey, hk, bind, Except.bind,
      pure_eq_ok]
  · rintro ⟨-, -, hK⟩
    refine List.not_le.mpr ?_ hK
    simp only [List.append_assoc]
    exact List.append_left_lt (append_lt_append_of_lt hlt (by simp [keyOf, length_be]))

end Rounding

/-- `a = 9007199254740993` and `WHERE a = 9007199254740992.0`: `float64` of `2 ^ 53 + 1` is
`2 ^ 53`. -/
theorem keyReaderSpecFrom_misses_two_pow_53_succ :
    int64OfFloat (float64OfInt 9007199254740993) < 9007199254740993 ∧
    (∀ pt, inferType (intTable 1 1).colTypes (eqFloat (float64OfInt 9007199254740993)) pt =
      .ok (.BooleanType, pt)) ∧
    satisfies (fun _ => none) (fun _ => none) (eqFloat (float64OfInt 9007199254740993))
      ((intTable 1 1).rowOf (intRow 1 9007199254740993)) = .ok true ∧
    ∃ m spec K,
      selectorRanges (fun _ => none) (intTable 1 1) (fun _ => none)
        (eqFloat (float64OfInt 9007199254740993)) [] = .ok m ∧
      keyReaderSpecFrom (fun _ => none) [] (intTable 1 1)
        ⟨(intTable 1 1).primaryIndex, m, false⟩ = .ok spec ∧
      indexEntryMapperFor (fun _ => none) [] (intTable 1 1) (intTable 1 1).primaryIndex
        (intRow 1 9007199254740993) = .ok K ∧
      ¬ spec.Covers K :=
  ⟨by decide, @keyReaderSpecFrom_misses_rounded (fun _ => none) [] (fun _ => none) 1 1
    9007199254740993 (by decide)⟩

end Immudb.Sql
