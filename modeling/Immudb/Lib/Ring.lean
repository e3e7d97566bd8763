import Mathlib.Data.List.Basic
import Mathlib.Tactic.Ring

/-!
# `Immudb/Lib/Ring.lean` — what a cyclic buffer holds

A cyclic buffer of `len` slots keeps its live elements in the slots that follow a read position,
wrapping from the last slot to the first. `window buf p n` is what the `n` slots after position
`p` hold, in order. The lemmas are the ones a buffer's operations need: writing the slot just
past the window appends to it, moving the read position forward drops from its front, and
reading a shorter window takes a prefix. `BoundedQueue` is what such a buffer is for: a queue of
at most as many items as the buffer has slots.
-/

set_option autoImplicit false

namespace Ring

variable {α : Type}

/-- Going `c` slots forward from `r` and measuring back to `r` gives `c`, modulo `len`. -/
theorem dist_mod {r len : Nat} (hr : r < len) (c : Nat) :
    ((r + c) % len + len - r) % len = c % len := by
  rw [Nat.add_sub_assoc hr.le, Nat.mod_add_mod, show r + c + (len - r) = c + len by omega,
    Nat.add_mod_right]

/-- Going `n` slots back from `r + c`, for `n ≤ c`, lands `c - n` slots after `r`. -/
theorem back_mod {r c n len : Nat} (hn : n ≤ len) (hc : n ≤ c) :
    ((r + c) % len + len - n) % len = (r + (c - n)) % len := by
  rw [Nat.add_sub_assoc hn, Nat.mod_add_mod, show r + c + (len - n) = r + (c - n) + len by omega,
    Nat.add_mod_right]

/-- The contents of the `n` slots after position `p`. -/
def window (buf : List α) (p : Nat) : Nat → List α
  | 0 => []
  | n + 1 => window buf p n ++ (buf[(p + n + 1) % buf.length]?).toList

section

variable {buf : List α} (hlen : 0 < buf.length)
include hlen

theorem getElem?_slot (p : Nat) : ∃ x, buf[p % buf.length]? = some x :=
  ⟨_, List.getElem?_eq_getElem (Nat.mod_lt _ hlen)⟩

@[simp] theorem length_window (p n : Nat) : (window buf p n).length = n := by
  induction n with
  | zero => rfl
  | succ n ih =>
    obtain ⟨x, hx⟩ := getElem?_slot hlen (p + n + 1)
    rw [window, List.length_append, ih, hx, Option.toList_some, List.length_singleton]

theorem getElem?_window {p n i : Nat} (hi : i < n) :
    (window buf p n)[i]? = buf[(p + i + 1) % buf.length]? := by
  induction n with
  | zero => omega
  | succ n ih =>
    obtain ⟨x, hx⟩ := getElem?_slot hlen (p + n + 1)
    rw [window, hx, Option.toList_some]
    rcases Nat.lt_succ_iff_lt_or_eq.mp hi with hlt | heq
    · rw [List.getElem?_append_left (by rw [length_window hlen]; exact hlt), ih hlt]
    · subst heq
      rw [List.getElem?_append_right (by rw [length_window hlen]), length_window hlen,
        Nat.sub_self, List.getElem?_singleton, hx]
      rfl

/-- Two windows agree when their slots do. -/
theorem window_ext {buf' : List α} (hlen' : 0 < buf'.length) {p p' n : Nat}
    (h : ∀ i, i < n → buf'[(p' + i + 1) % buf'.length]? = buf[(p + i + 1) % buf.length]?) :
    window buf' p' n = window buf p n := by
  apply List.ext_getElem?
  intro i
  by_cases hi : i < n
  · rw [getElem?_window hlen' hi, getElem?_window hlen hi, h i hi]
  · rw [List.getElem?_eq_none (by rw [length_window hlen']; omega),
      List.getElem?_eq_none (by rw [length_window hlen]; omega)]

/-- Writing the slot just past the window appends to it. -/
theorem window_set_next {p n : Nat} (hn : n < buf.length) (x : α) :
    window (buf.set ((p + n + 1) % buf.length) x) p (n + 1) = window buf p n ++ [x] := by
  have hlen' : 0 < (buf.set ((p + n + 1) % buf.length) x).length := by rwa [List.length_set]
  rw [window, List.length_set]
  -- the slots of the old window are not the written one
  have hold : window (buf.set ((p + n + 1) % buf.length) x) p n = window buf p n := by
    apply window_ext hlen hlen'
    intro i hi
    rw [List.length_set, List.getElem?_set_ne]
    intro heq
    -- two slots less than `len` apart are different
    have h0 := Nat.sub_mod_eq_zero_of_mod_eq heq
    rw [show p + n + 1 - (p + i + 1) = n - i by omega, Nat.mod_eq_of_lt (by omega)] at h0
    omega
  rw [hold, List.getElem?_set_self (Nat.mod_lt _ hlen), Option.toList_some]

/-- Moving the read position `k` slots forward drops the first `k` elements. -/
theorem window_advance {p n k : Nat} (hk : k ≤ n) :
    window buf ((p + k) % buf.length) (n - k) = (window buf p n).drop k := by
  apply List.ext_getElem?
  intro i
  rw [List.getElem?_drop]
  by_cases hi : i < n - k
  · rw [getElem?_window hlen hi, getElem?_window hlen (by omega)]
    congr 1
    rw [Nat.add_assoc, Nat.add_mod, Nat.mod_mod, ← Nat.add_mod]
    ring_nf
  · rw [List.getElem?_eq_none (by rw [length_window hlen]; omega),
      List.getElem?_eq_none (by rw [length_window hlen]; omega)]

/-- A shorter window is a prefix. -/
theorem window_take {p n k : Nat} (hk : k ≤ n) : window buf p k = (window buf p n).take k := by
  apply List.ext_getElem?
  intro i
  rw [List.getElem?_take]
  by_cases hi : i < k
  · rw [if_pos hi, getElem?_window hlen hi, getElem?_window hlen (by omega)]
  · rw [if_neg hi, List.getElem?_eq_none (by rw [length_window hlen]; omega)]

end

/-! ## The queue a ring buffer implements -/

/-- A queue of at most `cap` items, oldest first. -/
structure BoundedQueue (α : Type) where
  cap : Nat
  items : List α
  length_le : items.length ≤ cap

namespace BoundedQueue

/-- The empty queue of capacity `cap`. -/
def empty (cap : Nat) : BoundedQueue α := ⟨cap, [], Nat.zero_le _⟩

/-- Appending an item to a queue with room for it. -/
def push (q : BoundedQueue α) (a : α) (h : q.items.length < q.cap) : BoundedQueue α :=
  ⟨q.cap, q.items ++ [a], by rw [List.length_append, List.length_singleton]; omega⟩

/-- Dropping the `n` oldest items. -/
def dropOldest (q : BoundedQueue α) (n : Nat) : BoundedQueue α :=
  ⟨q.cap, q.items.drop n, by rw [List.length_drop]; have := q.length_le; omega⟩

/-- Dropping the `n` newest items. -/
def dropNewest (q : BoundedQueue α) (n : Nat) : BoundedQueue α :=
  ⟨q.cap, q.items.take (q.items.length - n), by rw [List.length_take]; have := q.length_le; omega⟩

end BoundedQueue

end Ring
