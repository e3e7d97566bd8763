import Mathlib.Logic.Function.Basic
import Mathlib.Data.List.Basic

/-!
# `Immudb/Lib/Hashing.lean` — a hash over byte strings, and what "no collision" means

A program that hashes calls one function, bytes in and digest out, and lays digests back into
byte buffers to hash them again. `Hasher D` is that pair: `sum` hashes a byte string to a digest
of type `D`, `bytes` is the digest's own byte string. It also names the digest whose bytes are
all zero, which is what a digest variable holds before anything is assigned to it.

**Why the digest type is a parameter.** With `D` the 32-byte arrays of SHA-256, "`sum` has no
collision" is false by counting, and a theorem assuming it would be vacuous. The development is
therefore stated for every digest type, and the ideal hash is a *hypothesis* that some hashers
satisfy (`Hasher.Ideal`): `sum` injective, and `bytes` self-delimiting, so that a digest followed
by more bytes can be read back. Fixed-width digests have the second property; `escape` below is
a hasher with both, which is what witnesses instantiate. A theorem that assumes `Ideal` says:
*whatever breaks this law exhibits a collision of `sum`*. Facts about byte layouts alone ask less:
`FixedWidth` says only that digests are laid out in `w` bytes each, no two alike, which SHA-256
satisfies outright.
-/

set_option autoImplicit false

namespace Hashing

/-- A hash function over byte strings together with the byte layout of its digests. -/
structure Hasher (D : Type) where
  sum : List UInt8 → D
  bytes : D → List UInt8
  zero : D

variable {D : Type}

/-- The ideal hash: no two byte strings collide, and a digest's bytes can be split off the
front of any buffer that starts with them. -/
structure Hasher.Ideal (h : Hasher D) : Prop where
  sum_injective : Function.Injective h.sum
  bytes_prefix : ∀ a b (x y : List UInt8), h.bytes a ++ x = h.bytes b ++ y → a = b ∧ x = y

namespace Hasher.Ideal

variable {h : Hasher D} (hi : h.Ideal)
include hi

theorem bytes_injective : Function.Injective h.bytes := fun a b hab =>
  (hi.bytes_prefix a b [] [] (by simpa using hab)).1

/-- Two buffers that start with the same fixed-width field and then a digest agree on the
digest and on the rest. -/
theorem of_append_bytes {p q x y : List UInt8} {a b : D} (hpq : p.length = q.length)
    (he : p ++ h.bytes a ++ x = q ++ h.bytes b ++ y) : p = q ∧ a = b ∧ x = y := by
  rw [List.append_assoc, List.append_assoc] at he
  obtain ⟨hp, hr⟩ := List.append_inj he hpq
  obtain ⟨hab, hxy⟩ := hi.bytes_prefix a b x y hr
  exact ⟨hp, hab, hxy⟩

end Hasher.Ideal

/-- Digests laid out in `w` bytes each, no two alike, as SHA-256's 32-byte arrays are. This asks
nothing of `sum`: no hash of bounded width is `Ideal`, but every one is `FixedWidth`, and a byte
string that ends in a digest can be cut before it. -/
structure Hasher.FixedWidth (h : Hasher D) (w : Nat) : Prop where
  length_bytes : ∀ d, (h.bytes d).length = w
  bytes_injective : Function.Injective h.bytes

/-- Two buffers that end with a digest of fixed width agree on the digest and on what is before. -/
theorem Hasher.FixedWidth.of_append_bytes {h : Hasher D} {w : Nat} (hw : h.FixedWidth w)
    {x y : List UInt8} {a b : D} (he : x ++ h.bytes a = y ++ h.bytes b) : x = y ∧ a = b := by
  obtain ⟨hxy, hab⟩ := List.append_inj' he (by rw [hw.length_bytes, hw.length_bytes])
  exact ⟨hxy, hw.bytes_injective hab⟩

/-! ## An ideal hasher

Byte strings are their own digests, laid out with every byte escaped by a `1` and the end
marked by a `0`. This is the hasher witnesses run: it is not a hash of bounded width, and it is
exactly as collision-free as the theorems need. -/

/-- The escaped layout of a byte string. -/
def escapeBytes : List UInt8 → List UInt8
  | [] => [0]
  | b :: bs => 1 :: b :: escapeBytes bs

theorem escapeBytes_prefix :
    ∀ (a b x y : List UInt8), escapeBytes a ++ x = escapeBytes b ++ y → a = b ∧ x = y
  | [], [], x, y, he => by simpa [escapeBytes] using he
  | [], _ :: _, _, _, he => by simp [escapeBytes] at he
  | _ :: _, [], _, _, he => by simp [escapeBytes] at he
  | c :: cs, d :: ds, x, y, he => by
    simp only [escapeBytes, List.cons_append, List.cons.injEq, true_and] at he
    obtain ⟨rfl, hrest⟩ := he
    obtain ⟨rfl, hxy⟩ := escapeBytes_prefix cs ds x y hrest
    exact ⟨rfl, hxy⟩

/-- The identity hasher with escaped digests. -/
def escape : Hasher (List UInt8) where
  sum := id
  bytes := escapeBytes
  zero := List.replicate 32 0

theorem escape_ideal : escape.Ideal where
  sum_injective := Function.injective_id
  bytes_prefix := escapeBytes_prefix

/-- A one-byte checksum, the sum of the bytes modulo 256, laid out as itself. It collides, but its
digests have a fixed width, as SHA-256's do; witnesses of facts about layouts run it. -/
def checksum : Hasher UInt8 where
  sum bs := bs.foldl (· + ·) 0
  bytes d := [d]
  zero := 0

theorem checksum_fixedWidth : checksum.FixedWidth 1 where
  length_bytes _ := rfl
  bytes_injective a b h := by simpa [checksum] using h

/-- The digests of `h` laid out behind `n` zero bytes, as a narrow checksum sits in a wider array. -/
def Hasher.padded (h : Hasher D) (n : Nat) : Hasher D where
  sum := h.sum
  bytes d := List.replicate n 0 ++ h.bytes d
  zero := h.zero

theorem Hasher.FixedWidth.padded {h : Hasher D} {w : Nat} (hw : h.FixedWidth w) (n : Nat) :
    (h.padded n).FixedWidth (n + w) where
  length_bytes d := by simp [Hasher.padded, hw.length_bytes]
  bytes_injective _ _ hab := hw.bytes_injective (List.append_cancel_left hab)

end Hashing
