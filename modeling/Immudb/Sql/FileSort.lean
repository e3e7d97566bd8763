import Immudb.Sql.RowCodec

/-!
# `Immudb/Sql/FileSort.lean` — the external sort of `ORDER BY`

`fileSorter` (`file_sort.go`) sorts the rows of a query. It keeps up to `sortBufSize` rows in
memory. When the buffer is full it sorts it and writes it to a temporary file as one sorted
chunk. `finalize` returns the buffer itself when nothing was written. Otherwise it writes the
last buffer as a chunk too and merges the chunks pairwise, round after round, between two files
(`mergeAllChunks`). A row on file is a two-byte size followed by each value as
`EncodeNullableValue` writes it (`encodeRow`); it is read back by `DecodeNullableValue`, one
value per column type (`fileRowReader`).

The sort keeps the rows (`sortRows_perm`). Every round writes each chunk once, and an odd last
chunk is copied to where its old offset says. Once the rows have gone through the file, though,
each comes back as `readBackNullable` of it. An empty string or an empty blob is written
with length `0`, which is how `NULL` is written, and it is read back as `NULL`.

`sort.Slice` is a parameter, `sortSlice`, which returns the rows in some order. The comparison
`cmp` of the `sortRowReader` is a parameter too, and its errors are left out. So are the errors of
the temporary files: writes, `Flush`, `Seek` and `createTempFile` always succeed here. A file is
the bytes written to it, from offset `0` on.
-/

set_option autoImplicit false

namespace Immudb.Sql

open Bytes

/-- `Row.ValuesByPosition`: the values of a row, in the order of its columns. -/
abbrev ValuesByPosition (J : Type) := List (StoredValue J)

/-- `sortedChunk`: a run of sorted rows in the temporary file. -/
structure SortedChunk where
  offset : Nat
  size : Nat
  deriving DecidableEq, Repr

/-- The errors of reading a temporary file: `io.EOF` and `io.ErrUnexpectedEOF` of the reader,
and those of decoding a value. -/
inductive FileError where
  | eof
  | unexpectedEOF
  | sql (e : SqlError)
  deriving DecidableEq, Repr

/-- `fileRowReader`: what is left of its section of the file, and the bytes of the last row it
read (`rowBuf`). -/
structure FileRowReader where
  reader : List UInt8
  rowBuf : List UInt8

/-- `fileSorter`: the rows of the buffer (`sortBuf[:nextIdx]`), what has been written to the
temporary file, its size, and the chunks written. -/
structure FileSorter (J : Type) where
  sortBuf : List (ValuesByPosition J)
  tempFile : List UInt8
  tempFileSize : Nat
  chunksToMerge : List SortedChunk

/-- The `resultReader` `finalize` returns. -/
inductive ResultReader (J : Type) where
  | bufferResultReader (sortBuf : List (ValuesByPosition J))
  | fileRowReader (r : FileRowReader)

/-- `io.NewSectionReader(file, off, n)`: the bytes from `off` on, at most `n` of them. -/
def NewSectionReader (file : List UInt8) (off n : Nat) : List UInt8 := (file.drop off).take n

section Sorter

variable {J : Type} (marshal : J → Except SqlError (List UInt8))
  (unmarshal : List UInt8 → Except SqlError J) (colTypes : List StoredType)
  (cmp : ValuesByPosition J → ValuesByPosition J → Int)
  (sortSlice : List (ValuesByPosition J) → List (ValuesByPosition J))

/-! ## Rows on file -/

/-- The loop of `encodeRow`: each value as `EncodeNullableValue(v, v.Type(), -1)`. -/
def encodeValues : List (StoredValue J) → Except SqlError (List UInt8)
  | [] => pure []
  | v :: vs => do
    let rawValue ← EncodeNullableValue marshal v v.type (-1)
    let rest ← encodeValues vs
    pure (rawValue ++ rest)

/-- `encodeRow(r)`: the size of the values as a `uint16`, then the values. -/
def encodeRow (r : ValuesByPosition J) : Except SqlError (List UInt8) := do
  let data ← encodeValues marshal r
  pure (be 2 data.length ++ data)

/-- `decodeValues(data, colTypes, out)`: a value of each column type, each from where the one
before ended. -/
def decodeValues (data : List UInt8) : List StoredType → Except SqlError (ValuesByPosition J)
  | [] => pure []
  | col :: cols => do
    let (v, n) ← DecodeNullableValue unmarshal data col
    let vs ← decodeValues (data.drop n) cols
    pure (v :: vs)

/-- `fileRowReader.Read`, with `readValues`: a `uint16` size, then as many bytes, kept in
`rowBuf` with the size, and decoded. `none` is `ErrNoMoreRows`, which `Read` makes of `io.EOF`. -/
def FileRowReader.Read (r : FileRowReader) :
    Except FileError (Option (ValuesByPosition J) × FileRowReader) :=
  match r.reader with
  | [] => pure (none, r)
  | [_] => throw .unexpectedEOF
  | b₀ :: b₁ :: rest =>
    let size := ofBE [b₀, b₁]
    let r' : FileRowReader := ⟨rest.drop size, [b₀, b₁] ++ rest.take size⟩
    -- `io.CopyN` returns `io.EOF` when fewer bytes are left
    if rest.length < size then pure (none, r')
    else match decodeValues unmarshal (rest.take size) colTypes with
      | .ok vals => pure (some vals, r')
      | .error e => throw (.sql e)

/-- A row read takes at least its two bytes of size. -/
theorem FileRowReader.Read_some_length {r r' : FileRowReader} {row : ValuesByPosition J}
    (h : r.Read unmarshal colTypes = .ok (some row, r')) : r'.reader.length + 2 ≤ r.reader.length := by
  unfold FileRowReader.Read at h
  split at h
  · cases h
  · cases h
  · rename_i b₀ b₁ rest hr
    dsimp only at h
    split at h
    · cases h
    · split at h
      · cases h
        simp [hr]
      · cases h

/-! ## Merging two chunks -/

-- the hypotheses the matches name are used by `decreasing_by` only
set_option linter.unusedVariables false in
/-- The loop of `mergeChunks`, with `r1` and `r2` the rows read and not yet written: what it
wrote, whether `lr` ran out (`lrAtEOF`), and the two readers. A step reads a row into an empty
slot, left first, or writes the bytes of the smaller row. -/
def mergeLoop (lr rr : FileRowReader) (r1 r2 : Option (ValuesByPosition J)) (out : List UInt8) :
    Except FileError (List UInt8 × Bool × FileRowReader × FileRowReader) :=
  match r1, r2 with
  | none, r2 =>
    match hread : lr.Read unmarshal colTypes with
    | .error e => throw e
    | .ok (none, lr') => pure (out, true, lr', rr)
    | .ok (some row1, lr') => mergeLoop lr' rr (some row1) r2 out
  | some row1, none =>
    match hread : rr.Read unmarshal colTypes with
    | .error e => throw e
    | .ok (none, rr') => pure (out, false, lr, rr')
    | .ok (some row2, rr') => mergeLoop lr rr' (some row1) (some row2) out
  | some row1, some row2 =>
    if cmp row1 row2 < 0 then mergeLoop lr rr none (some row2) (out ++ lr.rowBuf)
    else mergeLoop lr rr (some row1) none (out ++ rr.rowBuf)
termination_by 3 * (lr.reader.length + rr.reader.length) + (if r1.isSome then 1 else 0) +
  (if r2.isSome then 1 else 0)
decreasing_by
  · -- a row read takes two bytes at least
    have hlen := FileRowReader.Read_some_length unmarshal colTypes hread
    simp
    omega
  · have hlen := FileRowReader.Read_some_length unmarshal colTypes hread
    simp
    omega
  · simp
  · simp

/-- `mergeChunks(lr, rr, writer)`: the merged rows, then the row left in the reader that did not
run out and the rest of its section (`readerToCopy`). -/
def mergeChunks (lr rr : FileRowReader) :
    Except FileError (List UInt8 × FileRowReader × FileRowReader) := do
  let (out, lrAtEOF, lr, rr) ← mergeLoop unmarshal colTypes cmp lr rr none none []
  if lrAtEOF then pure (out ++ rr.rowBuf ++ rr.reader, lr, { rr with reader := [] })
  else pure (out ++ lr.rowBuf ++ lr.reader, { lr with reader := [] }, rr)

/-! ## Rounds of merges -/

/-- One round of `mergeAllChunks` over `currFile`: each pair of chunks merged in turn, and an odd
last chunk copied after them (the `io.Copy` after `writer.Flush()`). -/
def mergePairs (currFile : List UInt8) (lr rr : FileRowReader) :
    List SortedChunk → Except FileError (List UInt8 × FileRowReader × FileRowReader)
  | c1 :: c2 :: chunks => do
    let (out, lr, rr) ← mergeChunks unmarshal colTypes cmp
      { lr with reader := NewSectionReader currFile c1.offset c1.size }
      { rr with reader := NewSectionReader currFile c2.offset c2.size }
    let (rest, lr, rr) ← mergePairs currFile lr rr chunks
    pure (out ++ rest, lr, rr)
  | [lastChunk] => pure (NewSectionReader currFile lastChunk.offset lastChunk.size, lr, rr)
  | [] => pure ([], lr, rr)

end Sorter

/-- The chunks one round leaves (`newChunks`): each pair as one chunk at the offset it is written
to, and an odd last chunk as it was. -/
def pairChunks (offset : Nat) : List SortedChunk → List SortedChunk
  | c1 :: c2 :: chunks => ⟨offset, c1.size + c2.size⟩ :: pairChunks (offset + c1.size + c2.size) chunks
  | [lastChunk] => [lastChunk]
  | [] => []

theorem length_pairChunks_lt {chunks : List SortedChunk} (offset : Nat) (h : 1 < chunks.length) :
    (pairChunks offset chunks).length < chunks.length := by
  induction offset, chunks using pairChunks.induct with
  | case1 offset c1 c2 chunks ih =>
    cases chunks with
    | nil => simp [pairChunks]
    | cons c chunks =>
      cases chunks with
      | nil => simp [pairChunks]
      | cons c' chunks =>
        have := ih (by simp)
        simp only [pairChunks, List.length_cons] at this ⊢
        omega
  | case2 => simp at h
  | case3 => simp at h

section Rounds

variable {J : Type} (marshal : J → Except SqlError (List UInt8))
  (unmarshal : List UInt8 → Except SqlError J) (colTypes : List StoredType)
  (cmp : ValuesByPosition J → ValuesByPosition J → Int)
  (sortSlice : List (ValuesByPosition J) → List (ValuesByPosition J))

-- the hypotheses the matches name are used by `decreasing_by` only
set_option linter.unusedVariables false in
/-- The rounds of `mergeAllChunks` while more than one chunk is left: each round writes from
offset `0` of `outFile`, over what an earlier round left there, and the two files swap. -/
def mergeRounds (currFile outFile : List UInt8) (lr rr : FileRowReader) (chunks : List SortedChunk) :
    Except FileError (List UInt8) :=
  if hmore : 1 < chunks.length then do
    let (written, lr, rr) ← mergePairs unmarshal colTypes cmp currFile lr rr chunks
    mergeRounds (written ++ outFile.drop written.length) currFile lr rr (pairChunks 0 chunks)
  else pure currFile
termination_by chunks.length
decreasing_by exact length_pairChunks_lt 0 hmore

/-- `mergeAllChunks()`: the rounds, from the temporary file and a new one, then a reader of the
file the last round wrote. -/
def mergeAllChunks (s : FileSorter J) : Except FileError FileRowReader := do
  let currFile ← mergeRounds unmarshal colTypes cmp s.tempFile [] ⟨[], []⟩ ⟨[], []⟩ s.chunksToMerge
  pure ⟨NewSectionReader currFile 0 s.tempFileSize, []⟩

/-! ## The sorter -/

/-- `sortBuffer()`. -/
def sortBuffer (s : FileSorter J) : FileSorter J := { s with sortBuf := sortSlice s.sortBuf }

/-- The loop of `flushBuffer`: each row of the buffer as `encodeRow` writes it. -/
def flushLoop : List (ValuesByPosition J) → Except SqlError (List UInt8)
  | [] => pure []
  | row :: rows => do
    let data ← encodeRow marshal row
    let rest ← flushLoop rows
    pure (data ++ rest)

/-- `flushBuffer()`: the buffer written at the end of the temporary file, as a new chunk. -/
def flushBuffer (s : FileSorter J) : Except SqlError (FileSorter J) := do
  let data ← flushLoop marshal s.sortBuf
  pure { s with
    tempFile := s.tempFile ++ data
    chunksToMerge := s.chunksToMerge ++ [⟨s.tempFileSize, data.length⟩]
    tempFileSize := s.tempFileSize + data.length }

/-- `update(r)`: a full buffer is sorted and flushed first. -/
def update (sortBufSize : Nat) (s : FileSorter J) (r : ValuesByPosition J) :
    Except SqlError (FileSorter J) := do
  let s ← if s.sortBuf.length = sortBufSize then do
      let s ← flushBuffer marshal (sortBuffer sortSlice s)
      pure { s with sortBuf := [] }
    else pure s
  -- `s.sortBuf[s.nextIdx] = r` past the end of the buffer is a runtime panic
  if sortBufSize ≤ s.sortBuf.length then throw .indexOutOfRange
  pure { s with sortBuf := s.sortBuf ++ [r] }

/-- `finalize()`: the buffer itself when nothing was written, else the merged file. -/
def finalize (s : FileSorter J) : Except FileError (ResultReader J) := do
  let s := if s.sortBuf ≠ [] then sortBuffer sortSlice s else s
  if s.chunksToMerge = [] then return .bufferResultReader s.sortBuf
  match flushBuffer marshal s with
  | .error e => throw (.sql e)
  | .ok s => do
    let r ← mergeAllChunks unmarshal colTypes cmp s
    pure (.fileRowReader r)

/-- The sorter of `newSortRowReader`, fed every row by `update`. -/
def updateAll (sortBufSize : Nat) (s : FileSorter J) :
    List (ValuesByPosition J) → Except SqlError (FileSorter J)
  | [] => pure s
  | row :: rows => do
    let s ← update marshal sortSlice sortBufSize s row
    updateAll sortBufSize s rows

-- the hypotheses the matches name are used by `decreasing_by` only
set_option linter.unusedVariables false in
/-- The rows a reader of the result gives, `Read` after `Read` until `ErrNoMoreRows`. -/
def readAll (r : FileRowReader) : Except FileError (List (ValuesByPosition J)) :=
  match hread : r.Read unmarshal colTypes with
  | .error e => throw e
  | .ok (none, _) => pure []
  | .ok (some row, r') => do
    let rows ← readAll r'
    pure (row :: rows)
termination_by r.reader.length
decreasing_by have := FileRowReader.Read_some_length unmarshal colTypes hread; omega

/-- The rows a `resultReader` gives. -/
def ResultReader.rows : ResultReader J → Except FileError (List (ValuesByPosition J))
  | .bufferResultReader sortBuf => pure sortBuf
  | .fileRowReader r => readAll unmarshal colTypes r

/-- The rows of `ORDER BY` as the sorter returns them: every row through `update`, then
`finalize` and the rows of its reader. -/
def sortRows (sortBufSize : Nat) (rows : List (ValuesByPosition J)) :
    Except FileError (List (ValuesByPosition J)) := do
  let s ← match updateAll marshal sortSlice sortBufSize ⟨[], [], 0, []⟩ rows with
    | .ok s => pure s
    | .error e => throw (.sql e)
  let r ← finalize marshal unmarshal colTypes cmp sortSlice s
  r.rows unmarshal colTypes

end Rounds

/-! ## Rows read back -/

section RowsOnFile

variable {J : Type} {marshal : J → Except SqlError (List UInt8)}
  {unmarshal : List UInt8 → Except SqlError J} {colTypes : List StoredType}

variable (marshal unmarshal colTypes) in
/-- A row the sorter writes and reads back as `readBackNullable` of each value: of the column
types, its values spillable, and fewer than `2 ^ 16` bytes of them. -/
def RowSpillable (r : ValuesByPosition J) : Prop :=
  r.map StoredValue.type = colTypes ∧ (∀ v ∈ r, v.Spillable marshal unmarshal) ∧
    ∀ data, encodeValues marshal r = .ok data → data.length < 2 ^ 16

/-- The values of a row are read back, one after the other, whatever follows them. -/
theorem encodeValues_spillable :
    ∀ {r : ValuesByPosition J}, (∀ v ∈ r, v.Spillable marshal unmarshal) →
      ∃ data, encodeValues marshal r = .ok data ∧ ∀ rest,
        decodeValues unmarshal (data ++ rest) (r.map StoredValue.type) =
          .ok (r.map StoredValue.readBackNullable)
  | [], _ => ⟨[], rfl, fun _ => rfl⟩
  | v :: vs, hr => by
    obtain ⟨enc, henc, hdec⟩ := EncodeNullableValue_spillable (hr v List.mem_cons_self)
    obtain ⟨data, hdata, hrest⟩ := encodeValues_spillable (fun w hw => hr w (List.mem_cons_of_mem v hw))
    refine ⟨enc ++ data, by simp [encodeValues, henc, hdata, bind, Except.bind, pure, Except.pure],
      fun rest => ?_⟩
    simp [decodeValues, hdec (data ++ rest), bind, Except.bind, hrest, pure, Except.pure]

/-- **A row written by `encodeRow` is read back by `Read`**, as `readBackNullable` of each of
its values, with its bytes in `rowBuf`. -/
theorem Read_encodeRow {r : ValuesByPosition J} (hr : RowSpillable marshal unmarshal colTypes r) :
    ∃ raw, encodeRow marshal r = .ok raw ∧ ∀ rest buf,
      FileRowReader.Read unmarshal colTypes ⟨raw ++ rest, buf⟩ =
        .ok (some (r.map StoredValue.readBackNullable), ⟨rest, raw⟩) := by
  obtain ⟨htypes, hvals, hsize⟩ := hr
  obtain ⟨data, hdata, hdec⟩ := encodeValues_spillable hvals
  have hlt := hsize data hdata
  -- the two bytes of the size, read back as the size
  obtain ⟨b₀, b₁, hbe⟩ := List.length_eq_two.mp (length_be 2 data.length)
  have hsz : ofBE [b₀, b₁] = data.length := by
    rw [← hbe, ofBE_be]
    exact Nat.mod_eq_of_lt hlt
  refine ⟨be 2 data.length ++ data, by simp [encodeRow, hdata, bind, Except.bind, pure, Except.pure],
    fun rest buf => ?_⟩
  have hd := hdec []
  rw [List.append_nil, htypes] at hd
  simp [FileRowReader.Read, hbe, hsz, hd, pure, Except.pure]

/-! ## Runs of rows -/

/-- A run of rows on file: each row with the bytes it was written as. -/
abbrev Run (J : Type) := List (ValuesByPosition J × List UInt8)

/-- The bytes of a run, one row after the other. -/
def runBytes (L : Run J) : List UInt8 := (L.map Prod.snd).flatten

@[simp] theorem runBytes_nil : runBytes ([] : Run J) = [] := rfl

@[simp] theorem runBytes_cons (p : ValuesByPosition J × List UInt8) (L : Run J) :
    runBytes (p :: L) = p.2 ++ runBytes L := rfl

@[simp] theorem runBytes_append (L L' : Run J) : runBytes (L ++ L') = runBytes L ++ runBytes L' := by
  simp [runBytes]

variable (unmarshal colTypes) in
/-- Each row of the run is read back from its bytes, whatever follows them. -/
def ReadsAs (L : Run J) : Prop :=
  ∀ p ∈ L, ∀ rest buf,
    FileRowReader.Read unmarshal colTypes ⟨p.2 ++ rest, buf⟩ = .ok (some p.1, ⟨rest, p.2⟩)

theorem ReadsAs.sublist {L L' : Run J} (h : ReadsAs unmarshal colTypes L') (hs : ∀ p ∈ L, p ∈ L') :
    ReadsAs unmarshal colTypes L :=
  fun p hp => h p (hs p hp)

theorem Read_run_nil {r : FileRowReader} (h : r.reader = []) :
    r.Read unmarshal colTypes = .ok (none, r) := by
  simp [FileRowReader.Read, h, pure, Except.pure]

theorem Read_run_cons {r : FileRowReader} {p : ValuesByPosition J × List UInt8} {L : Run J}
    (hL : ReadsAs unmarshal colTypes (p :: L)) (h : r.reader = runBytes (p :: L)) :
    r.Read unmarshal colTypes = .ok (some p.1, ⟨runBytes L, p.2⟩) := by
  obtain ⟨reader, rowBuf⟩ := r
  simp only at h
  rw [h, runBytes_cons]
  exact hL p List.mem_cons_self (runBytes L) rowBuf

/-- A reader of a run reads its first row, or `ErrNoMoreRows` at its end. -/
theorem Read_run {r : FileRowReader} {L : Run J} (hL : ReadsAs unmarshal colTypes L)
    (h : r.reader = runBytes L) :
    r.Read unmarshal colTypes = match L with
      | [] => .ok (none, r)
      | p :: L => .ok (some p.1, ⟨runBytes L, p.2⟩) := by
  cases L with
  | nil => exact Read_run_nil h
  | cons p L => exact Read_run_cons hL h

theorem readAll_of_none {r r' : FileRowReader}
    (h : r.Read unmarshal colTypes = .ok (none, r')) : readAll unmarshal colTypes r = .ok [] := by
  rw [readAll]
  split
  · rename_i he
    rw [h] at he
    cases he
  · rfl
  · rename_i he
    rw [h] at he
    cases he

theorem readAll_of_some {r r' : FileRowReader} {row : ValuesByPosition J}
    (h : r.Read unmarshal colTypes = .ok (some row, r')) :
    readAll unmarshal colTypes r = (readAll unmarshal colTypes r').map (row :: ·) := by
  rw [readAll]
  split
  · rename_i he
    rw [h] at he
    cases he
  · rename_i he
    rw [h] at he
    cases he
  · rename_i he
    rw [h] at he
    cases he
    cases readAll unmarshal colTypes r' <;> rfl

/-- **A run is read back row by row**, to its end. -/
theorem readAll_run {L : Run J} (hL : ReadsAs unmarshal colTypes L) (buf : List UInt8) :
    readAll unmarshal colTypes ⟨runBytes L, buf⟩ = .ok (L.map Prod.fst) := by
  induction L generalizing buf with
  | nil => exact readAll_of_none (Read_run_nil rfl)
  | cons p L ih =>
    have hp := hL p List.mem_cons_self (runBytes L) buf
    rw [runBytes_cons, readAll_of_some hp, ih (hL.sublist fun q hq => List.mem_cons_of_mem p hq)]
    rfl

/-! ## Merging two runs -/

variable (cmp : ValuesByPosition J → ValuesByPosition J → Int)

/-- The merge `mergeChunks` makes of two runs: the left row first when it compares below the
right one. -/
def mergeRuns (L1 L2 : Run J) : Run J := List.merge L1 L2 fun p q => cmp p.1 q.1 < 0

/-- The row a slot of `mergeChunks` holds, with the bytes its reader read it from. -/
def pendingOf : Option (ValuesByPosition J) → List UInt8 → Run J
  | none, _ => []
  | some row, buf => [(row, buf)]

/-- What `mergeChunks` has written once it copied the reader that did not run out. -/
def copied : List UInt8 × Bool × FileRowReader × FileRowReader → List UInt8
  | (out, lrAtEOF, lr, rr) =>
    if lrAtEOF then out ++ rr.rowBuf ++ rr.reader else out ++ lr.rowBuf ++ lr.reader

theorem mergeLoop_spec (lr rr : FileRowReader) (r1 r2 : Option (ValuesByPosition J))
    (out : List UInt8) {L1 L2 : Run J} (hl : lr.reader = runBytes L1) (hr : rr.reader = runBytes L2)
    (h1 : ReadsAs unmarshal colTypes L1) (h2 : ReadsAs unmarshal colTypes L2)
    (hne : r1 = none → L1 = [] → r2.isSome) :
    ∃ res, mergeLoop unmarshal colTypes cmp lr rr r1 r2 out = .ok res ∧
      copied res = out ++ runBytes (mergeRuns cmp (pendingOf r1 lr.rowBuf ++ L1)
        (pendingOf r2 rr.rowBuf ++ L2)) := by
  fun_induction mergeLoop unmarshal colTypes cmp lr rr r1 r2 out generalizing L1 L2 with
  | case1 lr rr out r2 e hread =>
    -- a reader of a run does not fail
    rw [Read_run h1 hl] at hread
    cases L1 <;> cases hread
  | case2 lr rr out r2 lr' hread =>
    -- `lr` ran out: the row in `rr` and the rest of `rr` follow
    rw [Read_run h1 hl] at hread
    cases L1 with
    | cons p L1 => cases hread
    | nil =>
      cases hread
      cases r2 with
      | none => exact absurd (hne rfl rfl) (by simp)
      | some row2 => exact ⟨_, rfl, by simp [copied, pendingOf, mergeRuns, hr]⟩
  | case3 lr rr out r2 row1 lr' hread ih =>
    rw [Read_run h1 hl] at hread
    cases L1 with
    | nil => cases hread
    | cons p L1 =>
      cases hread
      obtain ⟨res, hres, hcopied⟩ := ih rfl hr (h1.sublist fun q hq => List.mem_cons_of_mem p hq) h2 nofun
      exact ⟨res, hres, by simpa [pendingOf] using hcopied⟩
  | case4 lr rr out row1 e hread =>
    rw [Read_run h2 hr] at hread
    cases L2 <;> cases hread
  | case5 lr rr out row1 rr' hread =>
    -- `rr` ran out: the row in `lr` and the rest of `lr` follow
    rw [Read_run h2 hr] at hread
    cases L2 with
    | cons q L2 => cases hread
    | nil =>
      cases hread
      exact ⟨_, rfl, by simp [copied, pendingOf, mergeRuns, hl, List.merge_right]⟩
  | case6 lr rr out row1 row2 rr' hread ih =>
    rw [Read_run h2 hr] at hread
    cases L2 with
    | nil => cases hread
    | cons q L2 =>
      cases hread
      obtain ⟨res, hres, hcopied⟩ := ih hl rfl h1 (h2.sublist fun q' hq => List.mem_cons_of_mem q hq) nofun
      exact ⟨res, hres, by simpa [pendingOf] using hcopied⟩
  | case7 lr rr out row1 row2 hlt ih =>
    -- the row of `lr` is written
    obtain ⟨res, hres, hcopied⟩ := ih hl hr h1 h2 (fun _ _ => rfl)
    refine ⟨res, hres, ?_⟩
    simp [hcopied, pendingOf, mergeRuns, hlt]
  | case8 lr rr out row1 row2 hge ih =>
    -- the row of `rr` is written
    obtain ⟨res, hres, hcopied⟩ := ih hl hr h1 h2 nofun
    refine ⟨res, hres, ?_⟩
    simp [hcopied, pendingOf, mergeRuns, hge]

/-- **`mergeChunks` writes the merge of two runs**, the first of which has a row: whatever the
readers hold from an earlier merge, each row is written once. -/
theorem mergeChunks_spec {L1 L2 : Run J} (h1 : ReadsAs unmarshal colTypes L1)
    (h2 : ReadsAs unmarshal colTypes L2) (hne : L1 ≠ []) (buf1 buf2 : List UInt8) :
    ∃ lr rr, mergeChunks unmarshal colTypes cmp ⟨runBytes L1, buf1⟩ ⟨runBytes L2, buf2⟩ =
      .ok (runBytes (mergeRuns cmp L1 L2), lr, rr) := by
  obtain ⟨⟨out, lrAtEOF, lr, rr⟩, hres, hcopied⟩ :=
    mergeLoop_spec cmp ⟨runBytes L1, buf1⟩ ⟨runBytes L2, buf2⟩ none none [] rfl rfl h1 h2
      (fun _ h => absurd h hne)
  simp only [pendingOf, List.nil_append] at hcopied
  cases lrAtEOF with
  | true => exact ⟨lr, { rr with reader := [] }, by simp [mergeChunks, hres, bind, Except.bind, pure, Except.pure, ← hcopied, copied]⟩
  | false => exact ⟨{ lr with reader := [] }, rr, by simp [mergeChunks, hres, bind, Except.bind, pure, Except.pure, ← hcopied, copied]⟩

/-! ## Rounds of merges -/

/-- The bytes of runs written one after the other. -/
def runsBytes (Ls : List (Run J)) : List UInt8 := (Ls.map runBytes).flatten

/-- The chunks of runs written one after the other from `offset` on. -/
def chunksOf (offset : Nat) : List (Run J) → List SortedChunk
  | [] => []
  | L :: Ls => ⟨offset, (runBytes L).length⟩ :: chunksOf (offset + (runBytes L).length) Ls

/-- The runs one round leaves: each pair merged, an odd last run as it was. -/
def pairRuns : List (Run J) → List (Run J)
  | L1 :: L2 :: Ls => mergeRuns cmp L1 L2 :: pairRuns Ls
  | Ls => Ls

theorem mergeRuns_perm (L1 L2 : Run J) : (mergeRuns cmp L1 L2).Perm (L1 ++ L2) :=
  List.merge_perm_append _

theorem length_runBytes_mergeRuns (L1 L2 : Run J) :
    (runBytes (mergeRuns cmp L1 L2)).length = (runBytes L1).length + (runBytes L2).length := by
  have hp := ((mergeRuns_perm cmp L1 L2).map Prod.snd).flatten
  unfold runBytes
  rw [hp.length_eq, List.map_append, List.flatten_append, List.length_append]

@[simp] theorem runsBytes_nil : runsBytes ([] : List (Run J)) = [] := rfl

@[simp] theorem runsBytes_cons (L : Run J) (Ls : List (Run J)) :
    runsBytes (L :: Ls) = runBytes L ++ runsBytes Ls := rfl

theorem length_chunksOf (offset : Nat) (Ls : List (Run J)) : (chunksOf offset Ls).length = Ls.length := by
  induction Ls generalizing offset with
  | nil => rfl
  | cons L Ls ih => simp [chunksOf, ih]

/-- The chunks a round leaves are those of the runs it leaves. -/
theorem pairChunks_chunksOf : ∀ (offset : Nat) (Ls : List (Run J)),
    pairChunks offset (chunksOf offset Ls) = chunksOf offset (pairRuns cmp Ls)
  | _, [] => rfl
  | _, [_] => rfl
  | offset, L1 :: L2 :: Ls => by
    simp only [chunksOf, pairChunks, pairRuns, length_runBytes_mergeRuns, Nat.add_assoc]
    rw [pairChunks_chunksOf]

/-- A round keeps the rows. -/
theorem flatten_pairRuns_perm : ∀ Ls : List (Run J), (pairRuns cmp Ls).flatten.Perm Ls.flatten
  | [] => .refl _
  | [_] => .refl _
  | L1 :: L2 :: Ls => by
    simp only [pairRuns, List.flatten_cons, ← List.append_assoc]
    exact (mergeRuns_perm cmp L1 L2).append (flatten_pairRuns_perm Ls)

theorem length_runsBytes_pairRuns : ∀ Ls : List (Run J),
    (runsBytes (pairRuns cmp Ls)).length = (runsBytes Ls).length
  | [] => rfl
  | [_] => rfl
  | L1 :: L2 :: Ls => by
    simp [pairRuns, length_runBytes_mergeRuns, length_runsBytes_pairRuns Ls, Nat.add_assoc]

/-- The runs a round leaves have rows, each read back from its bytes. -/
theorem pairRuns_runs : ∀ {Ls : List (Run J)}, (∀ L ∈ Ls, L ≠ [] ∧ ReadsAs unmarshal colTypes L) →
    ∀ L ∈ pairRuns cmp Ls, L ≠ [] ∧ ReadsAs unmarshal colTypes L
  | [], h => h
  | [_], h => h
  | L1 :: L2 :: Ls, h => by
    intro L hL
    rcases List.mem_cons.mp hL with rfl | hL
    · have hp := mergeRuns_perm cmp L1 L2
      obtain ⟨hne1, hr1⟩ := h L1 List.mem_cons_self
      obtain ⟨-, hr2⟩ := h L2 (List.mem_cons_of_mem _ List.mem_cons_self)
      refine ⟨fun hnil => hne1 ?_, fun p hp' => ?_⟩
      · exact (by simpa [hnil] using hp.symm.length_eq : L1 = [] ∧ L2 = []).1
      · rcases List.mem_append.mp (hp.subset hp') with hp' | hp'
        · exact hr1 p hp'
        · exact hr2 p hp'
    · exact pairRuns_runs (fun L' hL' => h L' (List.mem_cons_of_mem _ (List.mem_cons_of_mem _ hL'))) L hL

theorem pairRuns_ne_nil : ∀ {Ls : List (Run J)}, Ls ≠ [] → pairRuns cmp Ls ≠ []
  | [], h => h
  | [_], _ => List.cons_ne_nil _ _
  | _ :: _ :: _, _ => List.cons_ne_nil _ _

theorem NewSectionReader_of_drop {file x y : List UInt8} {off : Nat} (h : file.drop off = x ++ y) :
    NewSectionReader file off x.length = x := by
  simp [NewSectionReader, h]

/-- **A round writes the runs it leaves**, one after the other, when the chunks lay out runs
with rows from `offset` on. -/
theorem mergePairs_spec (file : List UInt8) :
    ∀ {Ls : List (Run J)} {offset : Nat} {post : List UInt8} (lr rr : FileRowReader),
      (∀ L ∈ Ls, L ≠ [] ∧ ReadsAs unmarshal colTypes L) →
      file.drop offset = runsBytes Ls ++ post →
      ∃ lr' rr', mergePairs unmarshal colTypes cmp file lr rr (chunksOf offset Ls) =
        .ok (runsBytes (pairRuns cmp Ls), lr', rr')
  | [], _, _, lr, rr, _, _ => ⟨lr, rr, rfl⟩
  | [L], offset, post, lr, rr, _, h => by
    refine ⟨lr, rr, ?_⟩
    simp only [runsBytes_cons, runsBytes_nil, List.append_nil] at h
    simp [chunksOf, mergePairs, pairRuns, NewSectionReader_of_drop h, pure, Except.pure]
  | L1 :: L2 :: Ls, offset, post, lr, rr, hruns, h => by
    obtain ⟨hne1, hr1⟩ := hruns L1 List.mem_cons_self
    obtain ⟨-, hr2⟩ := hruns L2 (List.mem_cons_of_mem _ List.mem_cons_self)
    -- the two sections, and what follows them
    have h1 : file.drop offset = runBytes L1 ++ (runBytes L2 ++ runsBytes Ls ++ post) := by
      simp [h]
    have h2 : file.drop (offset + (runBytes L1).length) = runBytes L2 ++ (runsBytes Ls ++ post) := by
      rw [drop_add_of_drop h1, List.append_assoc]
    have h3 : file.drop (offset + (runBytes L1).length + (runBytes L2).length) = runsBytes Ls ++ post :=
      drop_add_of_drop h2
    obtain ⟨lr₁, rr₁, hm⟩ := mergeChunks_spec cmp hr1 hr2 hne1 lr.rowBuf rr.rowBuf
    obtain ⟨lr', rr', hrest⟩ := mergePairs_spec file lr₁ rr₁
      (fun L hL => hruns L (List.mem_cons_of_mem _ (List.mem_cons_of_mem _ hL))) h3
    refine ⟨lr', rr', ?_⟩
    simp only [chunksOf, mergePairs, NewSectionReader_of_drop h1, NewSectionReader_of_drop h2]
    simp [hm, hrest, bind, Except.bind, pairRuns, pure, Except.pure]

theorem mergeRounds_spec (currFile outFile : List UInt8) (lr rr : FileRowReader)
    (chunks : List SortedChunk) {Ls : List (Run J)} (hchunks : chunks = chunksOf 0 Ls)
    (hfile : currFile = runsBytes Ls) (hout : outFile.length ≤ currFile.length)
    (hruns : ∀ L ∈ Ls, L ≠ [] ∧ ReadsAs unmarshal colTypes L) (hne : Ls ≠ []) :
    ∃ L, mergeRounds unmarshal colTypes cmp currFile outFile lr rr chunks = .ok (runBytes L) ∧
      ReadsAs unmarshal colTypes L ∧ L.Perm Ls.flatten := by
  fun_induction mergeRounds unmarshal colTypes cmp currFile outFile lr rr chunks generalizing Ls with
  | case1 currFile outFile lr rr chunks hmore ih =>
    subst hchunks hfile
    have hdrop : (runsBytes Ls).drop 0 = runsBytes Ls ++ [] := by simp
    obtain ⟨lr', rr', hpairs⟩ := mergePairs_spec cmp (runsBytes Ls) lr rr hruns hdrop
    -- the round overwrites the whole of `outFile`
    have hlen := length_runsBytes_pairRuns cmp Ls
    have hwritten : runsBytes (pairRuns cmp Ls) ++ outFile.drop (runsBytes (pairRuns cmp Ls)).length =
        runsBytes (pairRuns cmp Ls) := by
      rw [List.drop_eq_nil_of_le (by omega), List.append_nil]
    obtain ⟨L, hL, hread, hperm⟩ := ih _ lr' rr' (pairChunks_chunksOf cmp 0 Ls) hwritten
      (by rw [hwritten, hlen]) (pairRuns_runs cmp hruns) (pairRuns_ne_nil cmp hne)
    exact ⟨L, by simp [hpairs, bind, Except.bind, hL], hread, hperm.trans (flatten_pairRuns_perm cmp Ls)⟩
  | case2 currFile outFile lr rr chunks hone =>
    -- one run left: the file is its bytes
    subst hchunks hfile
    rw [length_chunksOf] at hone
    obtain ⟨L, rfl⟩ : ∃ L, Ls = [L] := by
      match Ls, hne with
      | [L], _ => exact ⟨L, rfl⟩
      | _ :: _ :: _, _ => simp at hone
    exact ⟨L, by simp [pure, Except.pure], (hruns L List.mem_cons_self).2, by simp⟩

/-! ## The sorter keeps the rows -/

theorem runsBytes_append (Ls Ls' : List (Run J)) :
    runsBytes (Ls ++ Ls') = runsBytes Ls ++ runsBytes Ls' := by
  simp [runsBytes]

theorem chunksOf_append (offset : Nat) (L : Run J) :
    ∀ Ls : List (Run J), chunksOf offset (Ls ++ [L]) =
      chunksOf offset Ls ++ [⟨offset + (runsBytes Ls).length, (runBytes L).length⟩]
  | [] => by simp [chunksOf]
  | L' :: Ls => by
    simp only [List.cons_append, chunksOf, chunksOf_append (offset + (runBytes L').length) L Ls,
      runsBytes_cons, List.length_append, Nat.add_assoc]

theorem length_runBytes_perm {L L' : Run J} (h : L.Perm L') :
    (runBytes L).length = (runBytes L').length :=
  ((h.map Prod.snd).flatten).length_eq

theorem runsBytes_eq : ∀ Ls : List (Run J), runsBytes Ls = runBytes Ls.flatten
  | [] => rfl
  | L :: Ls => by rw [runsBytes_cons, List.flatten_cons, runBytes_append, runsBytes_eq Ls]

/-- A flush writes the rows of the buffer as one run. -/
theorem flushLoop_spec : ∀ {rows : List (ValuesByPosition J)},
    (∀ r ∈ rows, RowSpillable marshal unmarshal colTypes r) →
    ∃ L : Run J, flushLoop marshal rows = .ok (runBytes L) ∧ ReadsAs unmarshal colTypes L ∧
      L.map Prod.fst = rows.map (·.map StoredValue.readBackNullable)
  | [], _ => ⟨[], rfl, fun _ h => absurd h List.not_mem_nil, rfl⟩
  | row :: rows, h => by
    obtain ⟨raw, hraw, hread⟩ := Read_encodeRow (h row List.mem_cons_self)
    obtain ⟨L, hL, hreads, hrows⟩ := flushLoop_spec fun r hr => h r (List.mem_cons_of_mem _ hr)
    refine ⟨(row.map StoredValue.readBackNullable, raw) :: L, ?_, ?_, by simp [hrows]⟩
    · simp [flushLoop, hraw, hL, bind, Except.bind, pure, Except.pure]
    · intro p hp
      rcases List.mem_cons.mp hp with rfl | hp
      · exact hread
      · exact hreads p hp

section Sorter

variable (sortSlice : List (ValuesByPosition J) → List (ValuesByPosition J))

variable (marshal unmarshal colTypes) in
/-- What the sorter holds after the rows `seen`: the runs `Ls` on file, one after the other and
each a chunk, and a buffer. Each row of `seen` is in a run, as it reads back, or in the buffer;
the buffer is all of `seen` while nothing was flushed, which is while `seen` fits in it. -/
structure SorterInv (sortBufSize : Nat) (s : FileSorter J) (seen : List (ValuesByPosition J))
    (Ls : List (Run J)) : Prop where
  file : s.tempFile = runsBytes Ls
  chunks : s.chunksToMerge = chunksOf 0 Ls
  size : s.tempFileSize = s.tempFile.length
  runs : ∀ L ∈ Ls, L ≠ [] ∧ ReadsAs unmarshal colTypes L
  rows : (Ls.flatten.map Prod.fst ++ s.sortBuf.map (·.map StoredValue.readBackNullable)).Perm
    (seen.map (·.map StoredValue.readBackNullable))
  buf_len : s.sortBuf.length ≤ sortBufSize
  buf_ne : seen ≠ [] → s.sortBuf ≠ []
  buf_rows : ∀ r ∈ s.sortBuf, RowSpillable marshal unmarshal colTypes r
  unflushed : Ls = [] → s.sortBuf = seen
  flushed : Ls = [] ↔ seen.length ≤ sortBufSize

theorem sorterInv_init (sortBufSize : Nat) :
    SorterInv marshal unmarshal colTypes sortBufSize ⟨[], [], 0, []⟩ [] [] where
  file := rfl
  chunks := rfl
  size := rfl
  runs := fun _ h => absurd h List.not_mem_nil
  rows := .refl _
  buf_len := Nat.zero_le _
  buf_ne := fun h => absurd rfl h
  buf_rows := fun _ h => absurd h List.not_mem_nil
  unflushed := fun _ => rfl
  flushed := by simp


/-- A flush writes the buffer as a new run after the others, and as its chunk. -/
theorem flushBuffer_spec {s : FileSorter J} {Ls : List (Run J)} (hfile : s.tempFile = runsBytes Ls)
    (hchunks : s.chunksToMerge = chunksOf 0 Ls) (hsize : s.tempFileSize = s.tempFile.length)
    (hrows : ∀ r ∈ s.sortBuf, RowSpillable marshal unmarshal colTypes r) :
    ∃ L : Run J, flushBuffer marshal s = .ok { s with
        tempFile := runsBytes (Ls ++ [L])
        chunksToMerge := chunksOf 0 (Ls ++ [L])
        tempFileSize := (runsBytes (Ls ++ [L])).length } ∧
      ReadsAs unmarshal colTypes L ∧ L.map Prod.fst = s.sortBuf.map (·.map StoredValue.readBackNullable) := by
  obtain ⟨L, hL, hreads, hrows'⟩ := flushLoop_spec hrows
  refine ⟨L, ?_, hreads, hrows'⟩
  simp [flushBuffer, hL, bind, Except.bind, pure, Except.pure, hfile, hchunks, hsize,
    runsBytes_append, chunksOf_append]

/-- A row into a full buffer: the buffer, sorted, becomes a new run, and the row starts a new
buffer. -/
theorem update_full_inv {sortBufSize : Nat} (hsize : 0 < sortBufSize)
    (hsort : ∀ l, (sortSlice l).Perm l) {s : FileSorter J} {seen : List (ValuesByPosition J)}
    {Ls : List (Run J)} {r : ValuesByPosition J}
    (hinv : SorterInv marshal unmarshal colTypes sortBufSize s seen Ls)
    (hr : RowSpillable marshal unmarshal colTypes r) (hfull : s.sortBuf.length = sortBufSize) :
    ∃ s' Ls', update marshal sortSlice sortBufSize s r = .ok s' ∧
      SorterInv marshal unmarshal colTypes sortBufSize s' (seen ++ [r]) Ls' := by
  have hperm := hsort s.sortBuf
  obtain ⟨L, hflush, hreads, hL⟩ := flushBuffer_spec (s := sortBuffer sortSlice s) hinv.file hinv.chunks
    hinv.size fun r' hr' => hinv.buf_rows r' (hperm.subset hr')
  have hbuf : s.sortBuf ≠ [] := List.ne_nil_of_length_pos (by omega)
  -- `seen` has filled the buffer once at least
  have hseen : sortBufSize ≤ seen.length := by
    by_cases hLs : Ls = []
    · rw [← hinv.unflushed hLs, hfull]
    · exact Nat.le_of_lt (Nat.lt_of_not_le (mt hinv.flushed.mpr hLs))
  refine ⟨⟨[r], runsBytes (Ls ++ [L]), (runsBytes (Ls ++ [L])).length, chunksOf 0 (Ls ++ [L])⟩,
    Ls ++ [L], ?_, ?_⟩
  · rw [update, if_pos hfull]
    simp only [bind, Except.bind, hflush, pure, Except.pure, List.length_nil]
    rw [if_neg (by omega), List.nil_append]
  · constructor
    · rfl
    · rfl
    · rfl
    · intro L' hL'
      rcases List.mem_append.mp hL' with hL' | hL'
      · exact hinv.runs L' hL'
      · obtain rfl := List.mem_singleton.mp hL'
        refine ⟨fun hnil => hbuf ?_, hreads⟩
        have hlen := congrArg List.length hL
        simp only [hnil, List.map_nil, List.length_nil, List.length_map, sortBuffer] at hlen
        exact List.eq_nil_of_length_eq_zero (hperm.length_eq ▸ hlen.symm)
    · -- the new run holds the buffer, sorted
      simp only [sortBuffer] at hL
      have hsorted := (hperm.map (·.map StoredValue.readBackNullable)).append_left
        (Ls.flatten.map Prod.fst)
      have hrows := (hsorted.trans hinv.rows).append_right [r.map StoredValue.readBackNullable]
      simpa [hL] using hrows
    · exact hsize
    · simp
    · intro r' hr'
      obtain rfl := List.mem_singleton.mp hr'
      exact hr
    · simp
    · simp
      omega

/-- A row into a buffer with room: it joins the buffer. -/
theorem update_room_inv {sortBufSize : Nat} {s : FileSorter J} {seen : List (ValuesByPosition J)}
    {Ls : List (Run J)} {r : ValuesByPosition J}
    (hinv : SorterInv marshal unmarshal colTypes sortBufSize s seen Ls)
    (hr : RowSpillable marshal unmarshal colTypes r) (hroom : s.sortBuf.length ≠ sortBufSize) :
    update marshal sortSlice sortBufSize s r = .ok { s with sortBuf := s.sortBuf ++ [r] } ∧
      SorterInv marshal unmarshal colTypes sortBufSize { s with sortBuf := s.sortBuf ++ [r] }
        (seen ++ [r]) Ls := by
  have hlt : s.sortBuf.length < sortBufSize := Nat.lt_of_le_of_ne hinv.buf_len hroom
  refine ⟨?_, ?_⟩
  · rw [update, if_neg hroom]
    simp only [bind, Except.bind, pure, Except.pure]
    rw [if_neg (by omega)]
  · constructor
    · exact hinv.file
    · exact hinv.chunks
    · exact hinv.size
    · exact hinv.runs
    · simpa using hinv.rows.append_right [r.map StoredValue.readBackNullable]
    · simpa using Nat.succ_le_of_lt hlt
    · simp
    · intro r' hr'
      rcases List.mem_append.mp hr' with hr' | hr'
      · exact hinv.buf_rows r' hr'
      · obtain rfl := List.mem_singleton.mp hr'
        exact hr
    · intro hLs
      simp [hinv.unflushed hLs]
    · -- the buffer is still all of `seen` when nothing was flushed
      by_cases hLs : Ls = []
      · have hbuf := hinv.unflushed hLs
        simp only [hLs, true_iff, List.length_append, List.length_singleton]
        rw [← hbuf]
        exact hlt
      · simp only [hLs, false_iff, List.length_append, List.length_singleton]
        have := mt hinv.flushed.mpr hLs
        omega

/-- **`update` keeps the invariant**: every row is in a run or in the buffer. -/
theorem update_inv {sortBufSize : Nat} (hsize : 0 < sortBufSize)
    (hsort : ∀ l, (sortSlice l).Perm l) {s : FileSorter J} {seen : List (ValuesByPosition J)}
    {Ls : List (Run J)} {r : ValuesByPosition J}
    (hinv : SorterInv marshal unmarshal colTypes sortBufSize s seen Ls)
    (hr : RowSpillable marshal unmarshal colTypes r) :
    ∃ s' Ls', update marshal sortSlice sortBufSize s r = .ok s' ∧
      SorterInv marshal unmarshal colTypes sortBufSize s' (seen ++ [r]) Ls' := by
  by_cases hfull : s.sortBuf.length = sortBufSize
  · exact update_full_inv sortSlice hsize hsort hinv hr hfull
  · obtain ⟨hupd, hinv'⟩ := update_room_inv sortSlice hinv hr hfull
    exact ⟨_, Ls, hupd, hinv'⟩

/-- The run of `update` over the rows keeps the invariant, from where it holds. -/
theorem updateAll_inv {sortBufSize : Nat} (hsize : 0 < sortBufSize)
    (hsort : ∀ l, (sortSlice l).Perm l) :
    ∀ {rows : List (ValuesByPosition J)} {s : FileSorter J} {seen : List (ValuesByPosition J)}
      {Ls : List (Run J)}, SorterInv marshal unmarshal colTypes sortBufSize s seen Ls →
      (∀ r ∈ rows, RowSpillable marshal unmarshal colTypes r) →
      ∃ s' Ls', updateAll marshal sortSlice sortBufSize s rows = .ok s' ∧
        SorterInv marshal unmarshal colTypes sortBufSize s' (seen ++ rows) Ls'
  | [], s, seen, Ls, hinv, _ => ⟨s, Ls, rfl, by simpa using hinv⟩
  | r :: rows, s, seen, Ls, hinv, hrows => by
    obtain ⟨s₁, Ls₁, hupd, hinv₁⟩ := update_inv sortSlice hsize hsort hinv (hrows r List.mem_cons_self)
    obtain ⟨s', Ls', hall, hinv'⟩ :=
      updateAll_inv hsize hsort hinv₁ fun r' hr' => hrows r' (List.mem_cons_of_mem _ hr')
    refine ⟨s', Ls', by simp [updateAll, hupd, hall, bind, Except.bind], ?_⟩
    simpa using hinv'

/-- Nothing flushed: `finalize` returns the buffer, sorted, which holds every row as it came. -/
theorem finalize_unflushed {sortBufSize : Nat} (hsort : ∀ l, (sortSlice l).Perm l)
    {s : FileSorter J} {rows : List (ValuesByPosition J)}
    (hinv : SorterInv marshal unmarshal colTypes sortBufSize s rows []) :
    ∃ out, (finalize marshal unmarshal colTypes cmp sortSlice s >>= fun r => r.rows unmarshal colTypes) =
      .ok out ∧ out.Perm rows := by
  have hbuf := hinv.unflushed rfl
  have hchunks : s.chunksToMerge = [] := hinv.chunks
  by_cases hb : s.sortBuf = []
  · refine ⟨s.sortBuf, ?_, by rw [hbuf]⟩
    simp [finalize, hb, hchunks, pure, Except.pure, bind, Except.bind, ResultReader.rows]
  · refine ⟨sortSlice s.sortBuf, ?_, hbuf ▸ hsort s.sortBuf⟩
    simp [finalize, hb, hchunks, sortBuffer, pure, Except.pure, bind, Except.bind, ResultReader.rows]

/-- Something flushed: the last buffer becomes a run too, the rounds merge the runs into one, and
the reader gives back its rows, each as `readBackNullable` of it. -/
theorem finalize_flushed {sortBufSize : Nat} (hsort : ∀ l, (sortSlice l).Perm l)
    {s : FileSorter J} {rows : List (ValuesByPosition J)} {Ls : List (Run J)}
    (hinv : SorterInv marshal unmarshal colTypes sortBufSize s rows Ls) (hLs : Ls ≠ [])
    (hrows : rows ≠ []) :
    ∃ out, (finalize marshal unmarshal colTypes cmp sortSlice s >>= fun r => r.rows unmarshal colTypes) =
      .ok out ∧ out.Perm (rows.map (·.map StoredValue.readBackNullable)) := by
  have hbuf := hinv.buf_ne hrows
  have hperm := hsort s.sortBuf
  have hchunks : (sortBuffer sortSlice s).chunksToMerge ≠ [] := by
    simp only [sortBuffer, hinv.chunks]
    intro h
    exact hLs (List.eq_nil_of_length_eq_zero (by rw [← length_chunksOf 0 Ls, h]; rfl))
  -- the last buffer, as a run
  obtain ⟨L, hflush, hreads, hL⟩ := flushBuffer_spec (s := sortBuffer sortSlice s) hinv.file
    hinv.chunks hinv.size fun r' hr' => hinv.buf_rows r' (hperm.subset hr')
  have hLne : L ≠ [] := by
    intro hnil
    have hlen := congrArg List.length hL
    simp only [hnil, List.map_nil, List.length_nil, List.length_map, sortBuffer] at hlen
    exact hbuf (List.eq_nil_of_length_eq_zero (hperm.length_eq ▸ hlen.symm))
  have hruns : ∀ L' ∈ Ls ++ [L], L' ≠ [] ∧ ReadsAs unmarshal colTypes L' := by
    intro L' hL'
    rcases List.mem_append.mp hL' with hL' | hL'
    · exact hinv.runs L' hL'
    · obtain rfl := List.mem_singleton.mp hL'
      exact ⟨hLne, hreads⟩
  -- the rounds merge the runs into one
  obtain ⟨M, hM, hMreads, hMperm⟩ := mergeRounds_spec cmp (runsBytes (Ls ++ [L])) [] ⟨[], []⟩ ⟨[], []⟩
    (chunksOf 0 (Ls ++ [L])) rfl rfl (Nat.zero_le _) hruns (by simp)
  have hsize : (runsBytes (Ls ++ [L])).length = (runBytes M).length := by
    rw [runsBytes_eq, length_runBytes_perm hMperm.symm]
  refine ⟨M.map Prod.fst, ?_, ?_⟩
  · simp only [finalize, if_pos hbuf, if_neg hchunks, hflush, mergeAllChunks, hM, hsize,
      bind, Except.bind, pure, Except.pure, ResultReader.rows]
    rw [NewSectionReader, List.drop_zero, List.take_length, readAll_run hMreads]
  · -- the rows of the runs, then of the sorted buffer
    simp only [sortBuffer] at hL
    have hsorted := (hperm.map (·.map StoredValue.readBackNullable)).append_left (Ls.flatten.map Prod.fst)
    refine ((hMperm.map Prod.fst).trans ?_).trans (hsorted.trans hinv.rows)
    simp [hL]

/-- The sorter over the rows, from a new one. -/
theorem updateAll_init {sortBufSize : Nat} (hsize : 0 < sortBufSize) (hsort : ∀ l, (sortSlice l).Perm l)
    {rows : List (ValuesByPosition J)} (hrows : ∀ r ∈ rows, RowSpillable marshal unmarshal colTypes r) :
    ∃ s Ls, updateAll marshal sortSlice sortBufSize ⟨[], [], 0, []⟩ rows = .ok s ∧
      SorterInv marshal unmarshal colTypes sortBufSize s rows Ls := by
  obtain ⟨s, Ls, hall, hinv⟩ := updateAll_inv sortSlice hsize hsort (sorterInv_init sortBufSize) hrows
  exact ⟨s, Ls, hall, by simpa using hinv⟩

/-- **The external sort keeps the rows, but not always their values.** Take rows of the column
types, with spillable values and fewer than `2 ^ 16` bytes of them, any buffer size
`sortBufSize ≥ 1`, and `sort.Slice` returning each buffer in some order. The rows the sorter
returns are then the input rows in some order while they fit in the buffer. Otherwise they are
the input rows with each value as `readBackNullable` of it, so an empty string or an empty blob
comes back as `NULL`. -/
theorem sortRows_perm (sortBufSize : Nat) (hsize : 0 < sortBufSize)
    (hsort : ∀ l, (sortSlice l).Perm l) (rows : List (ValuesByPosition J))
    (hrows : ∀ r ∈ rows, RowSpillable marshal unmarshal colTypes r) :
    ∃ out, sortRows marshal unmarshal colTypes cmp sortSlice sortBufSize rows = .ok out ∧
      out.Perm (if rows.length ≤ sortBufSize then rows
        else rows.map (·.map StoredValue.readBackNullable)) := by
  obtain ⟨s, Ls, hall, hinv⟩ := updateAll_init sortSlice hsize hsort hrows
  have hsort' : sortRows marshal unmarshal colTypes cmp sortSlice sortBufSize rows =
      (finalize marshal unmarshal colTypes cmp sortSlice s >>= fun r => r.rows unmarshal colTypes) := by
    simp [sortRows, hall, bind, Except.bind, pure, Except.pure]
  rw [hsort']
  by_cases hLs : Ls = []
  · -- the rows fit in the buffer
    subst hLs
    rw [if_pos (hinv.flushed.mp rfl)]
    exact finalize_unflushed cmp sortSlice hsort hinv
  · -- the rows went through the file
    have hlong : ¬ rows.length ≤ sortBufSize := mt hinv.flushed.mpr hLs
    rw [if_neg hlong]
    exact finalize_flushed cmp sortSlice hsort hinv hLs (List.ne_nil_of_length_pos (by omega))

end Sorter

end RowsOnFile

/-- `SELECT s FROM t ORDER BY s` over the rows `''` and `'a'` of a `VARCHAR` column, with a
buffer of one row: the rows go through the file, and the empty string comes back as `NULL`. -/
theorem sortRows_empty_string_null :
    let rows : List (ValuesByPosition Unit) := [[.Varchar []], [.Varchar [97]]]
    ∃ out, sortRows (fun _ => .ok [1]) (fun _ => .ok ()) [.VarcharType] (fun _ _ => 0) id 1 rows =
      .ok out ∧ ¬ out.Perm rows := by
  intro rows
  have hrows : ∀ r ∈ rows, RowSpillable (fun _ => .ok [1]) (fun _ => .ok ()) [.VarcharType] r := by
    intro r hr
    refine ⟨?_, ?_, fun data hdata => ?_⟩
    · rcases List.mem_pair.mp hr with rfl | rfl <;> rfl
    · intro v hv
      rcases List.mem_pair.mp hr with rfl | rfl <;> obtain rfl := List.mem_singleton.mp hv <;>
        simp [StoredValue.Spillable, StoredValue.Writable]
    · rcases List.mem_pair.mp hr with rfl | rfl <;> obtain rfl := (Except.ok.inj hdata).symm <;> decide
  obtain ⟨out, hout, hperm⟩ :=
    sortRows_perm (fun _ _ => 0) id 1 Nat.one_pos (fun l => .refl l) rows hrows
  refine ⟨out, hout, fun hp => ?_⟩
  have hnull := hperm.symm.trans hp
  exact absurd hnull (by decide)

end Immudb.Sql
