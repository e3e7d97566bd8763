import Immudb.Appendable.Log
import Immudb.Lib.Bytes

/-!
# `Immudb/Appendable/Reader.lean` — `appendable.Reader`

`NewReaderFrom(rAt, off, size)` reads an appendable's bytes from `off` on, through a buffer of
`size` bytes that it refills with `ReadAt` as it goes. `Read(bs)` fills all of `bs` or returns
`io.EOF`; `ReadByte` and `ReadUint16/32/64` read one byte or a big-endian integer through it.
The buffer decides when the appendable is read, not what is read, so a reader is modelled by the
offset it has reached in the bytes.

A reader started where the bytes hold a field reads that field back and moves past it
(`read_of_holdsAt`, `readUint_of_holdsAt`), whatever the bytes hold after it.
-/

set_option autoImplicit false

namespace Immudb.Appendable

open Bytes

/-- `appendable.Reader`: the offset reached in the appendable's bytes. -/
abbrev Reader := StateT Nat (Except LogError)

variable (b : List UInt8)

/-- `Read(bs)` of `n` bytes: all of them, or `io.EOF`. -/
def Reader.read (n : Nat) : Reader (List UInt8) := fun i =>
  if i + n ≤ b.length then .ok ((b.drop i).take n, i + n) else .error .eof

/-- `ReadUint16`, `ReadUint32`, `ReadUint64`: `w` bytes, big-endian. -/
def Reader.readUint (w : Nat) : Reader Nat := ofBE <$> Reader.read b w

/-- `ReadByte`. -/
def Reader.readByte : Reader UInt8 := (fun bs => bs.headD 0) <$> Reader.read b 1

variable {b} {i : Nat}

theorem Reader.read_of_holdsAt {x : List UInt8} (h : HoldsAt b i x) :
    Reader.read b x.length i = .ok (x, i + x.length) := by
  simp [Reader.read, h.le_length, h.take_drop]

theorem Reader.readUint_of_holdsAt {w n : Nat} (h : HoldsAt b i (be w n)) :
    Reader.readUint b w i = .ok (n % 2 ^ (8 * w), i + w) := by
  have hr := Reader.read_of_holdsAt h
  rw [length_be] at hr
  simp [Reader.readUint, Functor.map, StateT.map, hr, Except.map, ofBE_be]

theorem Reader.readByte_of_holdsAt {x : UInt8} (h : HoldsAt b i [x]) :
    Reader.readByte b i = .ok (x, i + 1) := by
  have hr := Reader.read_of_holdsAt h
  simp only [List.length_singleton] at hr
  simp [Reader.readByte, Functor.map, StateT.map, hr, Except.map]

/-- A read of `w` bytes where `w` remain succeeds, whatever they hold. -/
theorem Reader.readUint_ok_of_le {w : Nat} (h : i + w ≤ b.length) :
    ∃ n, Reader.readUint b w i = .ok (n, i + w) := by
  refine ⟨ofBE ((b.drop i).take w), ?_⟩
  simp [Reader.readUint, Reader.read, h, Functor.map, StateT.map, Except.map]

/-- A read that succeeds passes its value and its offset on to the rest of the reads, for a
reader over offsets with any errors. -/
theorem Reader.bind_of_ok {ε α β : Type} {x : StateT Nat (Except ε) α}
    {f : α → StateT Nat (Except ε) β} {j : Nat} {a : α} (h : x i = .ok (a, j)) :
    (x >>= f) i = f a j := by
  simp [bind, StateT.bind, h, Except.bind]

end Immudb.Appendable
