import Mathlib.Data.List.Basic

/-!
# `Immudb/Appendable/Log.lean` — an appendable, its write offset and its file

`embedded/appendable`. Every log of the store (the AHtree's data, tree and commit logs; the
store's transaction and commit logs) is an `appendable.Appendable`, and the code that uses one
relies on `Append` at the write offset, `SetOffset` back to an earlier offset, `ReadAt` below the
offset and `Size`. A log is modelled by its records up to the write offset; a record stands for
the fixed-width bytes the caller writes (a digest, a commit-log entry), or for one byte where the
caller writes bytes.

`SetOffset` moves the write offset back and leaves the file as it is: `singleapp` only moves
`fileOffset`, and nothing truncates the file. Later appends write over what the file holds past
the offset, as much as they write; `Size()` of an open appendable is its write offset, but
`Open` seeks to the end of the file, so a reopened log holds the stale tail too. `setOffsetIn`
keeps that tail (`stale`), for the logs whose reopen is modelled (the AHtree's);
`setOffset` gives the records below the offset only, for the logs whose file past the offset no
modelled call reads.
-/

set_option autoImplicit false

namespace Immudb.Appendable

/-- Errors of an appendable. -/
inductive LogError where
  /-- `SetOffset` past the current offset (`ErrIllegalArguments`). -/
  | illegalOffset
  /-- `ReadAt` past the end (`io.EOF`). -/
  | eof
  deriving DecidableEq, Repr

variable {α : Type}

/-- `SetOffset(off)`: the records below the new write offset. An offset past the current one is
refused. -/
def setOffset (log : List α) (off : Nat) : Except LogError (List α) :=
  if off ≤ log.length then .ok (log.take off) else .error .illegalOffset

/-- `SetOffset(off)` on a file that holds `log` up to the write offset and `stale` past it: the
records below the new offset, and everything the file holds from it on. -/
def setOffsetIn (log stale : List α) (off : Nat) : Except LogError (List α × List α) :=
  (setOffset log off).map fun head => (head, log.drop off ++ stale)

/-- `Append(xs)` at the write offset: `xs` is written over the stale tail, as far as it goes. -/
def appendAt (log stale xs : List α) : List α × List α := (log ++ xs, stale.drop xs.length)

/-- `ReadAt`: the record at position `i`, or `io.EOF` past the end. -/
def readAt (log : List α) (i : Nat) : Except LogError α :=
  match log[i]? with
  | some x => .ok x
  | none => .error .eof

theorem setOffset_of_le {log : List α} {off : Nat} (h : off ≤ log.length) :
    setOffset log off = .ok (log.take off) := by
  simp [setOffset, h]

theorem setOffsetIn_of_le {log stale : List α} {off : Nat} (h : off ≤ log.length) :
    setOffsetIn log stale off = .ok (log.take off, log.drop off ++ stale) := by
  simp [setOffsetIn, setOffset_of_le h, Except.map]

/-- Moving the offset back to `off` and writing `xs` there never makes the file shorter. -/
theorem length_file_le_write {log stale : List α} {off : Nat} (h : off ≤ log.length)
    (xs : List α) :
    (log ++ stale).length ≤ (log.take off ++ xs ++ (log.drop off ++ stale).drop xs.length).length := by
  simp only [List.length_append, List.length_take, List.length_drop]
  omega

/-- After a write at an earlier offset, the file holds what it held and what was written. -/
theorem mem_write {log stale xs : List α} {off n : Nat} {e : α}
    (he : e ∈ log.take off ++ xs ++ (log.drop off ++ stale).drop n) :
    e ∈ log ∨ e ∈ xs ∨ e ∈ stale := by
  rcases List.mem_append.mp he with he | he
  · rcases List.mem_append.mp he with he | he
    · exact .inl (List.mem_of_mem_take he)
    · exact .inr (.inl he)
  · rcases List.mem_append.mp (List.mem_of_mem_drop he) with he | he
    · exact .inl (List.mem_of_mem_drop he)
    · exact .inr (.inr he)

theorem readAt_of_getElem? {log : List α} {i : Nat} {x : α} (h : log[i]? = some x) :
    readAt log i = .ok x := by
  simp [readAt, h]

end Immudb.Appendable
