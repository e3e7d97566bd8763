import Immudb.Sql.IndexScan

/-!
# `Immudb/Sql/Upsert.lean` — the index entries an update marks as deleted

`SQLTx.doUpsert` (`stmt.go`) writes a row over the one stored under the same primary key. Before
that, `deprecateIndexEntries` goes through the secondary indexes. Where an index's values change
it marks the current row's entry as deleted, and otherwise it reports the entry as reusable. It
builds the key as `indexEntryMapperFor` (`engine.go`) builds the key of a row in an index: a
slice of `2 + len(index.cols) + 1` parts joined by `MapKey`. The table's id and the index's id
come first and the primary key `pkEncVals` last. But it writes the key of the `i`-th column at
slot `i + 3`, where the mapper writes it at `i + 2`. Slot `2` stays empty, and the last column's
key overwrites the primary key. The key it marks is therefore the mapper's key with the primary
key cut off (`deprecateIndexEntry_drops_pk`).

The store's `tx.set` is not modelled. The loop returns the entries it would set, each a key with
`Deleted` metadata and the current row's encoding `encodedRowValue` as value. That encoding is
computed once by `encodeRowValue` before the loop and is passed in here.
-/

set_option autoImplicit false

namespace Immudb.Sql

open Bytes

/-- `PKIndexID`. -/
def PKIndexID : Nat := 0

/-- `IsPrimary()`. -/
def Index.IsPrimary (index : Index) : Bool := index.id = PKIndexID

section Deprecate

variable (parseFloat : List UInt8 → Option ℚ)

/-- The value of a column in a row given by column id, `NULL` of the column's type where the
row has none: `val, specified := valuesByColID[col.id]; if !specified {...}`. -/
def valueOrNull (valuesByColID : Nat → Option TypedValue) (col : Column) : TypedValue :=
  (valuesByColID col.id).getD (.NullValue col.colType.toSQL)

/-- `encVal, _, _ := EncodeValueAsKey(currVal, col.colType, col.MaxLen())`: the key of the
current value, the error dropped and the key then empty. -/
def currKey (currValuesByColID : Nat → Option TypedValue) (col : Column) : List UInt8 :=
  match EncodeValueAsKey parseFloat (valueOrNull currValuesByColID col) col.colType col.MaxLen with
  | .ok (encVal, _) => encVal
  | .error _ => []

/-- The loop of `deprecateIndexEntries` over the columns of an index, the `i`-th column on: the
parts of the key, with the key of each current value written at slot `i + 3`, and whether the
current and new values have compared equal so far. -/
def deprecateLoop (currValuesByColID newValuesByColID : Nat → Option TypedValue) :
    List Column → Nat → List (List UInt8) → Bool → Except SqlError (List (List UInt8) × Bool)
  | [], _, encodedValues, sameIndexKey => pure (encodedValues, sameIndexKey)
  | col :: cols, i, encodedValues, sameIndexKey => do
    let r ← (valueOrNull currValuesByColID col).Compare parseFloat (valueOrNull newValuesByColID col)
    deprecateLoop currValuesByColID newValuesByColID cols (i + 1)
      (encodedValues.set (i + 3) (currKey parseFloat currValuesByColID col)) (sameIndexKey && r == 0)

/-- The body of the loop of `deprecateIndexEntries` on a secondary index: the key it marks as
deleted, or `none` where the index's values do not change and its entry can be reused. -/
def deprecateIndexEntry (sqlPrefix pkEncVals : List UInt8)
    (currValuesByColID newValuesByColID : Nat → Option TypedValue) (table : Table) (index : Index) :
    Except SqlError (Option (List UInt8)) := do
  let encodedValues := List.replicate (2 + index.cols.length + 1) ([] : List UInt8)
  let encodedValues := encodedValues.set 0 (EncodeID table.id)
  let encodedValues := encodedValues.set 1 (EncodeID index.id)
  let encodedValues := encodedValues.set (encodedValues.length - 1) pkEncVals
  let (encodedValues, sameIndexKey) ←
    deprecateLoop parseFloat currValuesByColID newValuesByColID index.cols 0 encodedValues true
  if sameIndexKey then pure none
  else pure (some (MapKey sqlPrefix MappedPrefix encodedValues))

/-- `deprecateIndexEntries(pkEncVals, currValuesByColID, newValuesByColID, table)` over the
table's indexes, the current row encoded as `encodedRowValue`: the entries it sets, each a key
marked as deleted with `encodedRowValue` as value, and the ids of the reusable indexes. -/
def deprecateIndexEntries (sqlPrefix pkEncVals encodedRowValue : List UInt8)
    (currValuesByColID newValuesByColID : Nat → Option TypedValue) (table : Table) :
    List Index → Except SqlError (List (List UInt8 × List UInt8) × List Nat)
  | [] => pure ([], [])
  | index :: indexes => do
    if index.IsPrimary then
      deprecateIndexEntries sqlPrefix pkEncVals encodedRowValue currValuesByColID newValuesByColID
        table indexes
    else
      let key? ← deprecateIndexEntry parseFloat sqlPrefix pkEncVals currValuesByColID
        newValuesByColID table index
      let (entries, reusable) ← deprecateIndexEntries sqlPrefix pkEncVals encodedRowValue
        currValuesByColID newValuesByColID table indexes
      match key? with
      | none => pure (entries, index.id :: reusable)
      | some key => pure ((key, encodedRowValue) :: entries, reusable)

end Deprecate

/-! ## The parts of the key -/

/-- The slice `deprecateIndexEntry` starts from: the two ids, an empty part for each column, and
`pkEncVals` last. -/
theorem initial_parts (n : Nat) (a b c : List UInt8) :
    (((List.replicate (2 + n + 1) ([] : List UInt8)).set 0 a).set 1 b).set
      ((((List.replicate (2 + n + 1) ([] : List UInt8)).set 0 a).set 1 b).length - 1) c =
      a :: b :: (List.replicate n [] ++ [c]) := by
  have hn : 2 + n + 1 = n + 1 + 1 + 1 := by omega
  simp only [List.length_set, List.length_replicate]
  rw [hn, List.replicate_succ, List.replicate_succ, List.replicate_succ']
  simp [List.set_append_right]

/-- Writing slot `j` of a slice leaves the slots before it and those after it. -/
theorem set_take_drop {parts : List (List UInt8)} {j m : Nat} (hj : j < parts.length)
    (x : List UInt8) :
    (parts.set j x).take (j + 1) = parts.take j ++ [x] ∧
      (parts.set j x).drop (j + 1 + m) = parts.drop (j + 1 + m) := by
  constructor
  · rw [List.take_set, List.set_eq_take_append_cons_drop, if_pos (by simp; omega)]
    simp [List.take_take]
  · rw [List.drop_set, if_pos (by omega)]

section Loop

variable {parseFloat : List UInt8 → Option ℚ} {curr new : Nat → Option TypedValue}
  {cmp : Column → Int}

/-- The loop writes the key of each column's current value over the slots from `i + 3` on, and
finds the index's key unchanged when every column compares equal. -/
theorem deprecateLoop_ok :
    ∀ {cols : List Column} {i : Nat} {parts : List (List UInt8)} {same : Bool},
      (∀ col ∈ cols,
        (valueOrNull curr col).Compare parseFloat (valueOrNull new col) = .ok (cmp col)) →
      i + 3 + cols.length ≤ parts.length →
      deprecateLoop parseFloat curr new cols i parts same =
        .ok (parts.take (i + 3) ++ cols.map (currKey parseFloat curr) ++
            parts.drop (i + 3 + cols.length), same && cols.all fun col => cmp col == 0)
  | [], i, parts, same, _, _ => by simp [deprecateLoop, pure_eq_ok]
  | col :: cols, i, parts, same, hcmp, hlen => by
    have hi : i + 3 < parts.length := by simp at hlen; omega
    have ih : deprecateLoop parseFloat curr new cols (i + 1)
        (parts.set (i + 3) (currKey parseFloat curr col)) (same && cmp col == 0) = _ :=
      deprecateLoop_ok (fun c hc => hcmp c (List.mem_cons_of_mem _ hc)) (by simp at hlen ⊢; omega)
    obtain ⟨htake, hdrop⟩ := set_take_drop (m := cols.length) hi (currKey parseFloat curr col)
    rw [deprecateLoop, hcmp col List.mem_cons_self]
    simp only [bind, Except.bind]
    rw [ih, show i + 1 + 3 = i + 3 + 1 by omega, htake, hdrop, List.length_cons,
      show i + 3 + (cols.length + 1) = i + 3 + 1 + cols.length by omega]
    simp [Bool.and_assoc]

end Loop

/-! ## Against the mapper's key -/

section Mapper

variable {parseFloat : List UInt8 → Option ℚ}

/-- The mapper writes, for each column of the index, the key `deprecateIndexEntries` writes. -/
theorem encodeIndexValues_eq_flatten {valuesByColID : Nat → Option TypedValue} :
    ∀ {cols : List Column} {E : List UInt8},
      encodeIndexValues parseFloat valuesByColID cols = .ok E →
      E = (cols.map (currKey parseFloat valuesByColID)).flatten
  | [], E, h => by cases h; rfl
  | col :: cols, E, h => by
    obtain ⟨v, encKey, n, E', hv, he, hE', rfl⟩ := encodeIndexValues_cons h
    have hk : currKey parseFloat valuesByColID col = encKey := by
      simp [currKey, valueOrNull, hv, he]
    rw [encodeIndexValues_eq_flatten hE', List.map_cons, List.flatten_cons, hk]

/-- The keys of a primary key with a column are not empty. -/
theorem encodedKey_ne_nil {index : Index} {valuesByColID : Nat → Option TypedValue}
    {k : List UInt8} (hcols : index.cols ≠ []) (h : encodedKey parseFloat index valuesByColID = .ok k) :
    k ≠ [] := by
  rcases encodedKey_head h with ⟨hnil, -⟩ | ⟨p, t, rfl, -⟩
  · exact absurd hnil hcols
  · exact List.cons_ne_nil p t

/-- Every entry `deprecateIndexEntries` sets is the current row's encoding under the key its body
marks for one of the secondary indexes. -/
theorem mem_deprecateIndexEntries {sqlPrefix pkEncVals encodedRowValue : List UInt8}
    {curr new : Nat → Option TypedValue} {table : Table} {key value : List UInt8} :
    ∀ {indexes : List Index} {entries : List (List UInt8 × List UInt8)} {reusable : List Nat},
      deprecateIndexEntries parseFloat sqlPrefix pkEncVals encodedRowValue curr new table indexes =
        .ok (entries, reusable) → (key, value) ∈ entries →
      value = encodedRowValue ∧ ∃ index ∈ indexes, index.IsPrimary = false ∧
        deprecateIndexEntry parseFloat sqlPrefix pkEncVals curr new table index = .ok (some key)
  | [], entries, reusable, h, hmem => by
    cases h
    cases hmem
  | index :: indexes, entries, reusable, h, hmem => by
    rw [deprecateIndexEntries] at h
    split at h
    · -- the primary index is skipped
      obtain ⟨hv, index', hi, hp, hk⟩ := mem_deprecateIndexEntries h hmem
      exact ⟨hv, index', List.mem_cons_of_mem _ hi, hp, hk⟩
    · rename_i hprim
      obtain ⟨key?, hkey, h⟩ := bind_eq_ok.mp h
      obtain ⟨⟨entries', reusable'⟩, hrest, h⟩ := bind_eq_ok.mp h
      cases key? with
      | none =>
        cases h
        obtain ⟨hv, index', hi, hp, hk⟩ := mem_deprecateIndexEntries hrest hmem
        exact ⟨hv, index', List.mem_cons_of_mem _ hi, hp, hk⟩
      | some k =>
        cases h
        rcases List.mem_cons.mp hmem with he | hmem
        · cases he
          exact ⟨rfl, index, List.mem_cons_self, by simpa using hprim, hkey⟩
        · obtain ⟨hv, index', hi, hp, hk⟩ := mem_deprecateIndexEntries hrest hmem
          exact ⟨hv, index', List.mem_cons_of_mem _ hi, hp, hk⟩

/-- **The key `deprecateIndexEntries` marks is not the entry's key.** Take a secondary index
with columns, a current row that the mapper keys as `K` in the index, and a new row whose values
in the index compare unequal to the current ones. The key marked as deleted is then `K` with the
current row's primary key cut off, whatever `pkEncVals` is passed. -/
theorem deprecateIndexEntry_drops_pk (sqlPrefix pkEncVals : List UInt8) (table : Table)
    (index : Index) (vals newValuesByColID : Nat → Option TypedValue) {K : List UInt8}
    (hcols : index.cols ≠ []) (hpk : table.primaryIndex.cols ≠ [])
    (hmap : indexEntryMapperFor parseFloat sqlPrefix table index vals = .ok K)
    (hcmp : ∀ col ∈ index.cols, ∃ r, (valueOrNull (table.valuesByColID vals) col).Compare
      parseFloat (valueOrNull newValuesByColID col) = .ok r)
    (hdiff : ∃ col ∈ index.cols, (valueOrNull (table.valuesByColID vals) col).Compare
      parseFloat (valueOrNull newValuesByColID col) ≠ .ok 0) :
    ∃ dk pk, deprecateIndexEntry parseFloat sqlPrefix pkEncVals (table.valuesByColID vals)
        newValuesByColID table index = .ok (some dk) ∧ K = dk ++ pk ∧ pk ≠ [] := by
  -- the mapper's key: the ids, the keys of the index's values, the primary key
  obtain ⟨E, hE, h⟩ := bind_eq_ok.mp hmap
  obtain ⟨pk, hpkk, h⟩ := bind_eq_ok.mp h
  cases h
  -- the comparisons the loop makes, and one of them unequal
  let cmp : Column → Int := fun col =>
    match (valueOrNull (table.valuesByColID vals) col).Compare parseFloat
      (valueOrNull newValuesByColID col) with
    | .ok r => r
    | .error _ => 0
  have hcmp' : ∀ col ∈ index.cols, (valueOrNull (table.valuesByColID vals) col).Compare parseFloat
      (valueOrNull newValuesByColID col) = .ok (cmp col) := by
    intro col hc
    obtain ⟨r, hr⟩ := hcmp col hc
    simp only [cmp, hr]
  have hsame : (index.cols.all fun col => cmp col == 0) = false := by
    obtain ⟨col, hc, hne⟩ := hdiff
    rw [List.all_eq_false]
    refine ⟨col, hc, fun h0 => hne ?_⟩
    rw [hcmp' col hc, show cmp col = 0 by simpa using h0]
  -- slot `2` is left empty and the primary key's slot is overwritten
  obtain ⟨m, hm⟩ : ∃ m, index.cols.length = m + 1 :=
    ⟨index.cols.length - 1, by have := List.length_pos_of_ne_nil hcols; omega⟩
  have hloop : deprecateLoop parseFloat (table.valuesByColID vals) newValuesByColID index.cols 0
      (EncodeID table.id :: EncodeID index.id ::
        (List.replicate index.cols.length [] ++ [pkEncVals])) true = _ :=
    deprecateLoop_ok hcmp' (by simp; omega)
  refine ⟨MapKey sqlPrefix MappedPrefix
    (EncodeID table.id :: EncodeID index.id :: [] :: index.cols.map (currKey parseFloat
      (table.valuesByColID vals))), pk, ?_, ?_, encodedKey_ne_nil hpk hpkk⟩
  · unfold deprecateIndexEntry
    dsimp only
    rw [initial_parts]
    simp only [bind, Except.bind, hloop, hsame, Bool.and_false, Bool.false_eq_true, if_false,
      pure, Except.pure]
    rw [hm]
    simp only [List.replicate_succ, List.cons_append, List.take_succ_cons, List.take_zero]
    rw [List.drop_eq_nil_of_le (by simp; omega), List.append_nil, List.nil_append]
  · rw [encodeIndexValues_eq_flatten hE]
    simp [MapKey]

/-- A table `t(a INTEGER PRIMARY KEY, b INTEGER)` with an index on `b`, and the row `(1, 2)`
updated to `(1, 3)`: the key marked as deleted lacks the primary key the index's entry ends
with. -/
theorem deprecateIndexEntry_drops_pk_int_row :
    let a : Column := ⟨1, "a", .IntegerType, 0⟩
    let b : Column := ⟨2, "b", .IntegerType, 0⟩
    let table : Table := ⟨1, "t", [a, b], ⟨PKIndexID, [a]⟩, by decide, by decide⟩
    let index : Index := ⟨1, [b]⟩
    let vals : Nat → Option TypedValue := fun id => if id = 1 then some (.Integer 1)
      else if id = 2 then some (.Integer 2) else none
    let newVals : Nat → Option TypedValue := fun id => if id = 1 then some (.Integer 1)
      else if id = 2 then some (.Integer 3) else none
    ∃ K, indexEntryMapperFor (fun _ => none) [] table index vals = .ok K ∧
      ∃ dk pk, deprecateIndexEntry (fun _ => none) [] [] (table.valuesByColID vals) newVals table
        index = .ok (some dk) ∧ K = dk ++ pk ∧ pk ≠ [] := by
  intro a b table index vals newVals
  refine ⟨_, rfl, deprecateIndexEntry_drops_pk [] [] table index vals newVals (by decide)
    (by decide) rfl ?_ ⟨b, List.mem_singleton_self b, by decide⟩⟩
  intro col hc
  rw [List.mem_singleton.mp hc]
  exact ⟨_, rfl⟩

end Mapper

end Immudb.Sql
