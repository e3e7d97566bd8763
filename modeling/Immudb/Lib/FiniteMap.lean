import Mathlib.Data.List.AList
import Mathlib.Algebra.Order.BigOperators.Group.List

/-!
# `Immudb/Lib/FiniteMap.lean` — running totals over a finite map

A finite map with one entry per key (Mathlib's `AList`) and a quantity read off each entry: what
the map weighs is the sum of that quantity over its entries, `total f s`. A structure that keeps
such a total in a counter of its own (a cache keeping the weight of its entries, say) updates the
counter at each insertion and removal, and the lemmas below are the ones those updates need:
inserting at a key adds the new entry and drops the old one, removing a key subtracts its entry,
and a total only depends on what the lookups give, so that two maps that agree on the quantity
at every key weigh the same (`total_congr`), whatever else their entries hold.
-/

set_option autoImplicit false

namespace FiniteMap

variable {α β M : Type}

section Total

variable [AddCommMonoid M]

/-- The sum of `f` over the entries of `s`. -/
def total (f : α → β → M) (s : AList fun _ : α => β) : M :=
  (s.entries.map fun p => f p.1 p.2).sum

variable {f : α → β → M}

@[simp] theorem total_empty : total f (∅ : AList fun _ : α => β) = 0 := rfl

variable [DecidableEq α]

/-- Inserting at `a` adds the new entry to what the other keys weigh. -/
theorem total_insert (s : AList fun _ : α => β) (a : α) (b : β) :
    total f (s.insert a b) = f a b + total f (s.erase a) := by
  simp only [total, AList.entries_insert, List.map_cons, List.sum_cons]
  rfl

/-- Inserting at a new key adds its entry. -/
theorem total_insert_of_notMem {s : AList fun _ : α => β} {a : α} (h : a ∉ s) (b : β) :
    total f (s.insert a b) = f a b + total f s := by
  simp only [total, AList.entries_insert_of_notMem h, List.map_cons, List.sum_cons]

/-- A total is the sum over the keys of what the lookups give. -/
theorem total_eq_sum_keys (s : AList fun _ : α => β) :
    total f s = (s.keys.map fun a => ((s.lookup a).map (f a)).getD 0).sum := by
  obtain ⟨l, hl⟩ := s
  simp only [total, AList.keys, AList.lookup]
  -- induction on the entries; a later key differs from the head's, so its lookup skips the head
  induction l with
  | nil => rfl
  | cons p t ih =>
    obtain ⟨hp, ht⟩ := List.nodupKeys_cons.mp hl
    have htail : (t.keys.map fun a => (((p :: t).dlookup a).map (f a)).getD 0) =
        t.keys.map fun a => ((t.dlookup a).map (f a)).getD 0 := by
      refine List.map_congr_left fun a ha => ?_
      rw [List.dlookup_cons_ne _ p (fun h => hp (h ▸ ha))]
    simp only [List.keys_cons, List.map_cons, List.sum_cons]
    rw [htail, ← ih ht, List.dlookup_cons_eq]
    rfl

/-- Two maps whose lookups agree on the quantity at every key have the same total. -/
theorem total_congr {s s' : AList fun _ : α => β}
    (h : ∀ a, (s'.lookup a).map (f a) = (s.lookup a).map (f a)) : total f s' = total f s := by
  have hmem : ∀ a, a ∈ s'.keys ↔ a ∈ s.keys := by
    intro a
    rw [← AList.mem_keys, ← AList.mem_keys, ← AList.lookup_isSome, ← AList.lookup_isSome,
      ← Option.isSome_map (f := f a), h a, Option.isSome_map]
  have hperm : s'.keys.Perm s.keys :=
    (List.perm_ext_iff_of_nodup s'.keys_nodup s.keys_nodup).mpr hmem
  rw [total_eq_sum_keys, total_eq_sum_keys, ← (hperm.map _).sum_eq]
  exact congrArg List.sum (List.map_congr_left fun a _ => by rw [h a])

/-- Removing a key subtracts its entry. -/
theorem total_erase_add {s : AList fun _ : α => β} {a : α} {b : β} (h : s.lookup a = some b) :
    total f (s.erase a) + f a b = total f s := by
  -- inserting `b` back at `a` changes no lookup
  have hsame : total f (s.insert a b) = total f s := by
    refine total_congr fun a' => ?_
    by_cases ha : a' = a
    · subst ha
      rw [AList.lookup_insert, h]
    · rw [AList.lookup_insert_ne ha]
  rw [← hsame, total_insert, add_comm]

/-- Totals of pointwise equal quantities are equal. -/
theorem total_eq_of_lookup {g : α → β → M} {s : AList fun _ : α => β}
    (h : ∀ a b, s.lookup a = some b → f a b = g a b) : total f s = total g s := by
  refine congrArg List.sum (List.map_congr_left fun p hp => ?_)
  exact h p.1 p.2 (AList.mem_lookup_iff.mpr hp)

end Total

section Order

variable [DecidableEq α] [AddCommMonoid M] [PartialOrder M] [IsOrderedAddMonoid M]
  {f g : α → β → M} {s : AList fun _ : α => β}

/-- Totals are monotone in the quantity. -/
theorem total_le_total (h : ∀ a b, s.lookup a = some b → f a b ≤ g a b) :
    total f s ≤ total g s :=
  List.sum_le_sum fun p hp => h p.1 p.2 (AList.mem_lookup_iff.mpr hp)

end Order

section Keys

variable [DecidableEq α] {s : AList fun _ : α => β} {a : α}

/-- Removing a key that is there leaves one key fewer. -/
theorem length_keys_erase (h : a ∈ s) : (s.erase a).keys.length + 1 = s.keys.length := by
  rw [AList.keys_erase, List.length_erase_of_mem (AList.mem_keys.mp h)]
  have : 0 < s.keys.length := List.length_pos_of_mem (AList.mem_keys.mp h)
  omega

/-- Inserting at a key that is there keeps the number of keys. -/
theorem length_keys_insert (h : a ∈ s) (b : β) : (s.insert a b).keys.length = s.keys.length := by
  rw [AList.keys_insert, List.length_cons, List.length_erase_of_mem (AList.mem_keys.mp h)]
  have : 0 < s.keys.length := List.length_pos_of_mem (AList.mem_keys.mp h)
  omega

end Keys

end FiniteMap
