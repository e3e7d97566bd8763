import Mathlib.Data.List.Basic
import Immudb.Lib.Bytes

/-!
# `Immudb/Sql/Catalog.lean` — CHECK constraints in the catalog

`persistCheck` (`embedded/sql/stmt.go`) stores each CHECK constraint of a new table as one value:
a byte holding the length of the name minus one, the name, and the text `check.exp.String()`
prints, in a buffer one byte longer than these. `parseCheckConstraint` (`catalog.go`) reads it
back when the catalog is loaded: the name is as long as that byte plus one, and the rest is
handed to `ParseExpFromString`.

Both length computations are byte arithmetic, and a name may have up to `256` bytes. A name of
`256` bytes is stored under the byte `255` and read back as a name of no bytes. For one of `255`
bytes the slice end `1 + nameLen` is the byte `0`, below the start: Go panics. Shorter names are
read back as they were, and the parser is given the printed expression followed by the extra
zero byte of the buffer.

The expressions, their printer and their parser are parameters: the layout does not depend on
them. The key the value is stored under, and the id `unmapCheckID` reads from it, are left out.
-/

set_option autoImplicit false

namespace Immudb.Sql

open Bytes

/-- The errors of `embedded/sql` the model raises, and two runtime panics: a slice or an index
out of range, and a type assertion on a value of another dynamic type. -/
inductive SqlError where
  | maxLengthExceeded
  | indexOutOfRange
  /-- an error of `ParseExpFromString` -/
  | syntaxError
  | invalidValue
  | maxKeyLengthExceeded
  | corruptedData
  | notComparableValues
  | unsupportedCast
  | invalidTypes
  | columnDoesNotExist
  | inferredMultipleTypes
  | missingParameter
  | invalidCondition
  | pkCanNotBeNull
  | limitedKeyType
  | unexpected
  | illegalArguments
  /-- the runtime panic of a type assertion that fails -/
  | interfaceConversion
  deriving DecidableEq, Repr

/-- `CheckConstraint`. -/
structure CheckConstraint (E : Type) where
  id : Nat
  name : List UInt8
  exp : E

variable {E : Type}

/-- `persistCheck`: the value written for `check`, whose expression prints as `str check.exp`. -/
def persistCheck (str : E → List UInt8) (check : CheckConstraint E) : Except SqlError (List UInt8) :=
  let name := check.name
  let expText := str check.exp
  let val := List.replicate (2 + name.length + expText.length) (0 : UInt8)
  if name.length > 256 then .error .maxLengthExceeded
  else
    let val := val.set 0 (UInt8.ofNat name.length - 1)
    let val := copyAt val 1 name
    .ok (copyAt val (1 + name.length) expText)

/-- `parseCheckConstraint` of a value stored under a key that `unmapCheckID` reads as `id`.
Go's slice bounds are checked against the length of the value. -/
def parseCheckConstraint (parseExp : List UInt8 → Except SqlError E) (id : Nat)
    (value : List UInt8) : Except SqlError (CheckConstraint E) := do
  let some b := value.head? | throw .indexOutOfRange
  let nameLen : UInt8 := b + 1
  -- `value[1 : 1+nameLen]`: the end is a byte too
  let hi := (1 + nameLen).toNat
  if hi < 1 ∨ value.length < hi then throw .indexOutOfRange
  let name := (value.take hi).drop 1
  let exp ← parseExp (value.drop hi)
  pure ⟨id, name, exp⟩

/-! ## The stored layout -/

/-- The two copies of `persistCheck` fill the buffer but for its last byte. -/
theorem copyAt_name_exp (b : UInt8) (name text : List UInt8) :
    copyAt (copyAt (b :: List.replicate (1 + name.length + text.length) 0) 1 name)
      (1 + name.length) text = b :: (name ++ text ++ [0]) := by
  have hbuf : b :: List.replicate (1 + name.length + text.length) (0 : UInt8) =
      [b] ++ List.replicate name.length 0 ++ (List.replicate text.length 0 ++ [0]) := by
    simp [List.replicate_add, Nat.add_comm, Nat.add_left_comm]
  have hoff : 1 + name.length = ([b] ++ name).length := by simp [Nat.add_comm]
  rw [hbuf, hoff, show 1 = [b].length from rfl, copyAt_segment (by simp), ← List.append_assoc,
    copyAt_segment (by simp)]
  simp

/-- The value is the length byte, the name, the printed expression and one zero byte. -/
theorem persistCheck_eq (str : E → List UInt8) {check : CheckConstraint E}
    (h : check.name.length ≤ 256) :
    persistCheck str check =
      .ok ((UInt8.ofNat check.name.length - 1) :: (check.name ++ str check.exp ++ [0])) := by
  have hrep : List.replicate (2 + check.name.length + (str check.exp).length) (0 : UInt8) =
      0 :: List.replicate (1 + check.name.length + (str check.exp).length) 0 := by
    rw [← List.replicate_succ]
    congr 1
    omega
  unfold persistCheck
  simp only
  rw [if_neg (by omega), hrep, List.set_cons_zero, copyAt_name_exp]

/-! ## Reading it back -/

/-- Below `255` bytes the length byte and the slice end come out as the name's length. -/
theorem nameEnd_of_le {n : Nat} (h : n ≤ 254) : (1 + (UInt8.ofNat n - 1 + 1)).toNat = 1 + n := by
  rw [UInt8.sub_add_cancel, UInt8.toNat_add, UInt8.toNat_ofNat', UInt8.toNat_one]
  omega

/-- **Round trip below `255` bytes.** The constraint is read back with its id and name, and with
the expression the parser makes of the printed text and the buffer's last zero byte. -/
theorem parseCheckConstraint_persistCheck (str : E → List UInt8)
    (parseExp : List UInt8 → Except SqlError E) {check : CheckConstraint E}
    (h : check.name.length ≤ 254) :
    (persistCheck str check >>= parseCheckConstraint parseExp check.id) =
      (parseExp (str check.exp ++ [0])).map fun exp => { check with exp } := by
  rw [persistCheck_eq str (by omega)]
  simp only [bind, Except.bind, parseCheckConstraint, List.head?_cons, nameEnd_of_le h]
  rw [if_neg (by simp; omega)]
  have htake : List.drop 1 (List.take (1 + check.name.length)
      ((UInt8.ofNat check.name.length - 1) :: (check.name ++ str check.exp ++ [0]))) =
      check.name := by
    rw [Nat.add_comm, List.take_succ_cons, List.drop_one, List.tail_cons, List.append_assoc,
      List.take_left]
  have hdrop : List.drop (1 + check.name.length)
      ((UInt8.ofNat check.name.length - 1) :: (check.name ++ str check.exp ++ [0])) =
      str check.exp ++ [0] := by
    rw [Nat.add_comm, List.drop_succ_cons, List.append_assoc, List.drop_left]
  rw [htake, hdrop]
  cases parseExp (str check.exp ++ [0]) <;> rfl

/-- A check named `ab` over an expression printed as `x`, read back by a parser that keeps the
bytes it is given. -/
theorem parseCheckConstraint_persistCheck_ab :
    (persistCheck (fun e => e) (⟨0, [97, 98], [120]⟩ : CheckConstraint (List UInt8)) >>=
        parseCheckConstraint (fun b => .ok b) 0) = .ok ⟨0, [97, 98], [120, 0]⟩ :=
  parseCheckConstraint_persistCheck (fun e => e) (fun b => .ok b) (by decide)

/-- **Names of `255` and `256` bytes do not survive.** Whatever the expression, its printer and
the parser, the value `persistCheck` writes is never read back as a constraint of the same
name: at `256` bytes the name comes back empty, at `255` the slice panics. -/
theorem parseCheckConstraint_loses_long_name (str : E → List UInt8)
    (parseExp : List UInt8 → Except SqlError E) {check : CheckConstraint E}
    (h : 255 ≤ check.name.length ∧ check.name.length ≤ 256) :
    ∃ val, persistCheck str check = .ok val ∧
      ∀ id c, parseCheckConstraint parseExp id val = .ok c → c.name ≠ check.name := by
  refine ⟨_, persistCheck_eq str h.2, fun id c hc => ?_⟩
  simp only [parseCheckConstraint, List.head?_cons] at hc
  obtain h255 | h256 : check.name.length = 255 ∨ check.name.length = 256 := by omega
  · -- the slice end `1 + 255` is the byte `0`
    rw [h255, show (1 + (UInt8.ofNat 255 - 1 + 1)).toNat = 0 by decide, if_pos (by omega)] at hc
    cases hc
  · -- the length byte `255` reads back as a name of no bytes
    rw [h256, show (1 + (UInt8.ofNat 256 - 1 + 1)).toNat = 1 by decide, if_neg (by simp)] at hc
    simp only [bind, Except.bind] at hc
    split at hc
    · cases hc
    · cases hc
      intro hname
      have := congrArg List.length hname
      simp at this
      omega

/-- A check of `256` bytes named `a`, over any expression. -/
theorem parseCheckConstraint_loses_long_name_a :
    255 ≤ (List.replicate 256 (97 : UInt8)).length ∧ (List.replicate 256 (97 : UInt8)).length ≤ 256 ∧
    ∃ val, persistCheck (fun _ => []) (⟨0, List.replicate 256 97, ()⟩ : CheckConstraint Unit) = .ok val ∧
      ∀ id c, parseCheckConstraint (fun _ => .ok ()) id val = .ok c →
        c.name ≠ List.replicate 256 97 :=
  ⟨by rw [List.length_replicate]; decide, Nat.le_of_eq List.length_replicate,
    @parseCheckConstraint_loses_long_name Unit (fun _ => []) (fun _ => .ok ())
      ⟨0, List.replicate 256 97, ()⟩
      ⟨by rw [List.length_replicate]; decide, Nat.le_of_eq List.length_replicate⟩⟩

end Immudb.Sql
