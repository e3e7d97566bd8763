import Immudb.Lib.Ring
import Immudb.Lib.Machine

/-!
# `Immudb/Store/PrecommitBuffer.lean` — the read-ahead buffer of precommitted transactions

`embedded/store/precommit_buffer.go`. The store keeps the commit-log entries of the
transactions it has precommitted but not yet committed in a cyclic buffer of
`MaxActiveTransactions` slots: `put` writes the slot after `wpos`, `readAhead(n)` reads the slot
`n + 1` after `rpos`, `advanceReader` moves `rpos` forward once entries are committed, and
`recedeWriter` moves `wpos` back when precommitted transactions are discarded. `full`
tells a full buffer from an empty one when the two positions meet.

Section 2 proves that the buffer is a bounded queue: `entries` reads its live slots in order,
and each operation acts on `entries` as the queue operation of the same name would. The
store's proofs use only those lemmas. Section 3 takes the calls with Go's `int` arguments and
shows that every run of them answers as a `BoundedQueue` does (`runCalls_refines`).
-/

set_option autoImplicit false

namespace Immudb.Store

open Ring

/-- `precommittedEntry`: a transaction's commit-log entry and its `Alh`. -/
structure PrecommittedEntry (D : Type) where
  txID : Nat
  alh : D
  txOff : Nat
  txSize : Nat
  deriving DecidableEq, Repr

/-- `precommitBuffer`. -/
structure PrecommitBuffer (D : Type) where
  buf : List (PrecommittedEntry D)
  rpos : Nat
  wpos : Nat
  full : Bool
  deriving DecidableEq, Repr

/-- The errors of the buffer. -/
inductive BufferError where
  /-- `ErrBufferIsFull` -/
  | bufferIsFull
  /-- `ErrIllegalArguments` -/
  | illegalArguments
  /-- `ErrNotEnoughData` -/
  | notEnoughData
  deriving DecidableEq, Repr

namespace PrecommitBuffer

variable {D : Type}

/-! ## 1. The operations -/

/-- `newPrecommitBuffer(size)`: `size` zeroed entries. -/
def newPrecommitBuffer (size : Nat) (zero : D) : PrecommitBuffer D :=
  ⟨List.replicate size ⟨0, zero, 0, 0⟩, 0, 0, false⟩

/-- `freeSlots`. -/
def freeSlots (b : PrecommitBuffer D) : Nat :=
  if b.full then 0
  else if b.rpos ≤ b.wpos then b.buf.length - (b.wpos - b.rpos)
  else b.rpos - b.wpos

/-- `put`. -/
def put (b : PrecommitBuffer D) (e : PrecommittedEntry D) :
    Except BufferError (PrecommitBuffer D) :=
  if b.full then .error .bufferIsFull
  else
    let wpos := (b.wpos + 1) % b.buf.length
    .ok ⟨b.buf.set wpos e, b.rpos, wpos, b.rpos == wpos⟩

/-- `recedeWriter`. -/
def recedeWriter (b : PrecommitBuffer D) (n : Nat) : Except BufferError (PrecommitBuffer D) :=
  if n = 0 then .error .illegalArguments
  else if b.buf.length - b.freeSlots < n then .error .notEnoughData
  else .ok { b with wpos := (b.wpos + b.buf.length - n) % b.buf.length, full := false }

/-- `readAhead`: the entry `n` slots after the next one to be read. -/
def readAhead (b : PrecommitBuffer D) (n : Nat) : Except BufferError (PrecommittedEntry D) :=
  if b.buf.length - b.freeSlots ≤ n then .error .notEnoughData
  else
    match b.buf[(b.rpos + n + 1) % b.buf.length]? with
    | some e => .ok e
    -- not reached: the buffer is not empty
    | none => .error .notEnoughData

/-- `advanceReader`. -/
def advanceReader (b : PrecommitBuffer D) (n : Nat) : Except BufferError (PrecommitBuffer D) :=
  if n = 0 then .error .illegalArguments
  else if b.buf.length - b.freeSlots < n then .error .notEnoughData
  else .ok { b with rpos := (b.rpos + n) % b.buf.length, full := false }

/-! ## 2. A bounded queue -/

/-- The positions stay inside a buffer of at least one slot, and a full buffer has them equal. -/
structure Wf (b : PrecommitBuffer D) : Prop where
  pos : 0 < b.buf.length
  rpos_lt : b.rpos < b.buf.length
  wpos_lt : b.wpos < b.buf.length
  full_eq : b.full = true → b.rpos = b.wpos

/-- How many entries the buffer holds. -/
def count (b : PrecommitBuffer D) : Nat := b.buf.length - b.freeSlots

/-- The entries the buffer holds, oldest first. -/
def entries (b : PrecommitBuffer D) : List (PrecommittedEntry D) := window b.buf b.rpos b.count

theorem count_le (b : PrecommitBuffer D) : b.count ≤ b.buf.length := Nat.sub_le _ _

theorem count_of_full {b : PrecommitBuffer D} (hf : b.full = true) : b.count = b.buf.length := by
  unfold count freeSlots
  rw [hf, if_pos rfl, Nat.sub_zero]

section Queue

variable {b : PrecommitBuffer D} (hb : b.Wf)
include hb

/-- A buffer that is not full holds the entries from `rpos` up to `wpos`. -/
theorem count_of_not_full (hf : b.full = false) :
    b.count = (b.wpos + b.buf.length - b.rpos) % b.buf.length := by
  have := hb.rpos_lt
  have := hb.wpos_lt
  unfold count freeSlots
  rw [hf, if_neg Bool.false_ne_true]
  split_ifs with hle
  · rw [Nat.mod_eq_sub_mod (by omega), Nat.mod_eq_of_lt (by omega)]
    omega
  · rw [Nat.mod_eq_of_lt (by omega)]
    omega

/-- A buffer that is not full and has `wpos` `c` slots after `rpos` holds `c` entries. -/
theorem count_eq_of {c : Nat} (hf : b.full = false) (hc : c < b.buf.length)
    (hw : b.wpos = (b.rpos + c) % b.buf.length) : b.count = c := by
  rw [count_of_not_full hb hf, hw, dist_mod hb.rpos_lt, Nat.mod_eq_of_lt hc]

/-- The write position is `count` slots after the read position. -/
theorem wpos_eq : b.wpos = (b.rpos + b.count) % b.buf.length := by
  cases hf : b.full with
  | true =>
    rw [count_of_full hf, Nat.add_mod_right, Nat.mod_eq_of_lt hb.rpos_lt]
    exact (hb.full_eq hf).symm
  | false =>
    rw [count_of_not_full hb hf, Nat.add_mod_mod,
      show b.rpos + (b.wpos + b.buf.length - b.rpos) = b.wpos + b.buf.length by
        have := hb.rpos_lt; omega,
      Nat.add_mod_right, Nat.mod_eq_of_lt hb.wpos_lt]

@[simp] theorem length_entries : b.entries.length = b.count := length_window hb.pos _ _

/-- **`put`** into a buffer with a free slot appends the entry. -/
theorem put_ok (hc : b.count < b.buf.length) (e : PrecommittedEntry D) :
    ∃ b', b.put e = .ok b' ∧ b'.Wf ∧ b'.buf.length = b.buf.length ∧
      b'.entries = b.entries ++ [e] := by
  have hf : b.full = false := by
    cases hf : b.full with
    | true => rw [count_of_full hf] at hc; omega
    | false => rfl
  -- the slot written is the one just past the entries
  have hnext : (b.wpos + 1) % b.buf.length = (b.rpos + b.count + 1) % b.buf.length := by
    rw [wpos_eq hb, Nat.mod_add_mod]
  let b' : PrecommitBuffer D := ⟨b.buf.set ((b.wpos + 1) % b.buf.length) e, b.rpos,
    (b.wpos + 1) % b.buf.length, b.rpos == (b.wpos + 1) % b.buf.length⟩
  have hlen' : b'.buf.length = b.buf.length := List.length_set ..
  have hb' : b'.Wf :=
    ⟨hlen' ▸ hb.pos, hlen' ▸ hb.rpos_lt, hlen' ▸ Nat.mod_lt _ hb.pos, fun h => beq_iff_eq.mp h⟩
  -- one more entry: all of them when the positions meet
  have hcount : b'.count = b.count + 1 := by
    by_cases hmeet : b.rpos = (b.wpos + 1) % b.buf.length
    · have h0 := Nat.sub_mod_eq_zero_of_mod_eq (hnext.symm.trans (hmeet.symm.trans
        (Nat.mod_eq_of_lt hb.rpos_lt).symm))
      rw [show b.rpos + b.count + 1 - b.rpos = b.count + 1 by omega] at h0
      have hlen : b.count + 1 = b.buf.length := by
        rcases Nat.lt_or_ge (b.count + 1) b.buf.length with hlt | hge
        · rw [Nat.mod_eq_of_lt hlt] at h0; omega
        · omega
      rw [count_of_full (b := b') (beq_iff_eq.mpr hmeet), hlen', hlen]
    · have hlt : b.count + 1 < b.buf.length := by
        rcases Nat.lt_or_ge (b.count + 1) b.buf.length with hlt | hge
        · exact hlt
        · exfalso
          apply hmeet
          rw [hnext, show b.rpos + b.count + 1 = b.rpos + b.buf.length by omega,
            Nat.add_mod_right, Nat.mod_eq_of_lt hb.rpos_lt]
      apply count_eq_of hb' (beq_false_of_ne hmeet) (hlen' ▸ hlt)
      show (b.wpos + 1) % b.buf.length = (b.rpos + (b.count + 1)) % b'.buf.length
      rw [hlen', hnext, Nat.add_assoc]
  refine ⟨b', by rw [put, if_neg (by rw [hf]; exact Bool.false_ne_true)], hb', hlen', ?_⟩
  show window b'.buf b.rpos b'.count = _
  rw [hcount]
  show window (b.buf.set ((b.wpos + 1) % b.buf.length) e) b.rpos (b.count + 1) = _
  rw [hnext, window_set_next hb.pos hc]
  rfl

/-- **`recedeWriter`** drops the newest `n` entries, `0 < n ≤ count`. -/
theorem recedeWriter_ok {n : Nat} (hn : 0 < n) (hnc : n ≤ b.count) :
    ∃ b', b.recedeWriter n = .ok b' ∧ b'.Wf ∧ b'.buf.length = b.buf.length ∧
      b'.entries = b.entries.take (b.count - n) := by
  have hle := count_le b
  let b' : PrecommitBuffer D :=
    { b with wpos := (b.wpos + b.buf.length - n) % b.buf.length, full := false }
  have hb' : b'.Wf := ⟨hb.pos, hb.rpos_lt, Nat.mod_lt _ hb.pos, fun h => by cases h⟩
  -- `wpos` moves back `n` slots
  have hcount : b'.count = b.count - n := by
    apply count_eq_of hb' rfl (by show b.count - n < b.buf.length; omega)
    show (b.wpos + b.buf.length - n) % b.buf.length = (b.rpos + (b.count - n)) % b.buf.length
    rw [wpos_eq hb, back_mod (by omega) hnc]
  refine ⟨b', by rw [recedeWriter, if_neg (by omega), if_neg (by unfold count at hnc; omega)],
    hb', rfl, ?_⟩
  show window b.buf b.rpos b'.count = _
  rw [hcount]
  exact window_take hb.pos (Nat.sub_le _ _)

/-- **`readAhead(n)`** reads entry `n`, for `n < count`. -/
theorem readAhead_ok {n : Nat} {e : PrecommittedEntry D} (he : b.entries[n]? = some e) :
    b.readAhead n = .ok e := by
  have hn : n < b.count := by
    have := (List.getElem?_eq_some_iff.mp he).1
    rwa [length_entries hb] at this
  unfold entries at he
  rw [getElem?_window hb.pos hn] at he
  unfold readAhead
  rw [if_neg (by unfold count at hn; omega), he]

/-- **`advanceReader`** drops the oldest `n` entries, `0 < n ≤ count`. -/
theorem advanceReader_ok {n : Nat} (hn : 0 < n) (hnc : n ≤ b.count) :
    ∃ b', b.advanceReader n = .ok b' ∧ b'.Wf ∧ b'.buf.length = b.buf.length ∧
      b'.entries = b.entries.drop n := by
  have hle := count_le b
  let b' : PrecommitBuffer D := { b with rpos := (b.rpos + n) % b.buf.length, full := false }
  have hb' : b'.Wf := ⟨hb.pos, Nat.mod_lt _ hb.pos, hb.wpos_lt, fun h => by cases h⟩
  -- `rpos` moves forward `n` slots
  have hcount : b'.count = b.count - n := by
    apply count_eq_of hb' rfl (by show b.count - n < b.buf.length; omega)
    show b.wpos = ((b.rpos + n) % b.buf.length + (b.count - n)) % b.buf.length
    rw [wpos_eq hb, Nat.mod_add_mod, Nat.add_assoc, Nat.add_sub_cancel' hnc]
  refine ⟨b', by rw [advanceReader, if_neg (by omega), if_neg (by unfold count at hnc; omega)],
    hb', rfl, ?_⟩
  show window b.buf ((b.rpos + n) % b.buf.length) b'.count = _
  rw [hcount]
  exact window_advance hb.pos hnc

end Queue

theorem readAhead_error {b : PrecommitBuffer D} {n : Nat} (hn : b.count ≤ n) : b.readAhead n = .error .notEnoughData := by
  unfold readAhead
  rw [if_pos (show b.buf.length - b.freeSlots ≤ n from hn)]

theorem wf_newPrecommitBuffer {size : Nat} (hsize : 0 < size) (zero : D) :
    (newPrecommitBuffer size zero).Wf :=
  ⟨by simpa [newPrecommitBuffer] using hsize, by simpa [newPrecommitBuffer] using hsize,
    by simpa [newPrecommitBuffer] using hsize, fun h => by cases h⟩

@[simp] theorem entries_newPrecommitBuffer (size : Nat) (zero : D) :
    (newPrecommitBuffer size zero).entries = [] := by
  simp [entries, count, freeSlots, newPrecommitBuffer, window]

/-! ## 3. The calls, and the queue they implement -/

/-- A call on the buffer, with the `int` argument Go's methods take. -/
inductive Call (D : Type) where
  | put (e : PrecommittedEntry D)
  | readAhead (n : Int)
  | advanceReader (n : Int)
  | recedeWriter (n : Int)

/-- A call as the buffer answers it: the buffer after it, and the entry `readAhead` reads.
`readAhead` refuses a negative `n` first; `advanceReader` and `recedeWriter` refuse every
`n <= 0` with their own first check. -/
def call (b : PrecommitBuffer D) : Call D →
    Except BufferError (PrecommitBuffer D × Option (PrecommittedEntry D))
  | .put e => (fun b' => (b', none)) <$> b.put e
  | .readAhead n =>
    if n < 0 then .error .illegalArguments else (fun e => (b, some e)) <$> b.readAhead n.toNat
  | .advanceReader n => (fun b' => (b', none)) <$> b.advanceReader n.toNat
  | .recedeWriter n => (fun b' => (b', none)) <$> b.recedeWriter n.toNat

/-- What each call does to a bounded FIFO queue of entries. -/
def Call.spec (q : BoundedQueue (PrecommittedEntry D)) : Call D →
    Except BufferError (BoundedQueue (PrecommittedEntry D) × Option (PrecommittedEntry D))
  | .put e => if h : q.items.length < q.cap then .ok (q.push e h, none) else .error .bufferIsFull
  | .readAhead n =>
    if n < 0 then .error .illegalArguments
    else match q.items[n.toNat]? with
      | some e => .ok (q, some e)
      | none => .error .notEnoughData
  | .advanceReader n =>
    if n ≤ 0 then .error .illegalArguments
    else if q.items.length < n.toNat then .error .notEnoughData
    else .ok (q.dropOldest n.toNat, none)
  | .recedeWriter n =>
    if n ≤ 0 then .error .illegalArguments
    else if q.items.length < n.toNat then .error .notEnoughData
    else .ok (q.dropNewest n.toNat, none)

/-- The buffer `b` holds the queue `q`: as many slots as `q` has room, and its entries. -/
structure Refines (b : PrecommitBuffer D) (q : BoundedQueue (PrecommittedEntry D)) : Prop where
  wf : b.Wf
  cap : b.buf.length = q.cap
  entries : b.entries = q.items

/-- `len(buf) - freeSlots()` is the length of the queue. -/
theorem Refines.count {b : PrecommitBuffer D} {q : BoundedQueue (PrecommittedEntry D)}
    (h : Refines b q) : b.count = q.items.length := by
  rw [← h.entries, length_entries h.wf]

theorem put_full {b : PrecommitBuffer D} (hb : b.Wf) (hc : b.count = b.buf.length)
    (e : PrecommittedEntry D) : b.put e = .error .bufferIsFull := by
  cases hf : b.full with
  | true => rw [put, if_pos hf]
  | false =>
    have := Nat.mod_lt (b.wpos + b.buf.length - b.rpos) hb.pos
    rw [count_of_not_full hb hf] at hc
    omega

/-- **A step of the refinement**: from a buffer that holds a queue, each call is refused as the
queue refuses it, or answered as the queue answers it from a buffer that holds the new queue. -/
theorem call_agrees {b : PrecommitBuffer D} {q : BoundedQueue (PrecommittedEntry D)}
    (h : Refines b q) (c : Call D) : Machine.Agrees Refines (b.call c) (Call.spec q c) := by
  have hcount := h.count
  cases c with
  | put e =>
    by_cases hlt : q.items.length < q.cap
    · obtain ⟨b', hput, hb', hlen, hent⟩ := put_ok h.wf (by rw [hcount, ← h.cap] at *; omega) e
      rw [call, hput, Call.spec, dif_pos hlt]
      exact ⟨⟨hb', hlen.trans h.cap, by rw [hent, h.entries]; rfl⟩, rfl⟩
    · have hfull : b.count = b.buf.length := by
        have := count_le b; rw [hcount, h.cap] at *; omega
      rw [call, put_full h.wf hfull, Call.spec, dif_neg hlt]
      rfl
  | readAhead n =>
    by_cases hn : n < 0
    · simp only [call, Call.spec, if_pos hn]
      rfl
    simp only [call, Call.spec, if_neg hn]
    cases he : q.items[n.toNat]? with
    | some e =>
      rw [readAhead_ok h.wf (by rwa [h.entries])]
      exact ⟨h, rfl⟩
    | none =>
      -- past the last entry
      have hle : q.items.length ≤ n.toNat := List.getElem?_eq_none_iff.mp he
      rw [readAhead_error (by omega)]
      rfl
  | advanceReader n =>
    simp only [call, Call.spec]
    by_cases hn : n ≤ 0
    · rw [if_pos hn, advanceReader, if_pos (by omega)]
      rfl
    rw [if_neg hn]
    by_cases hlt : q.items.length < n.toNat
    · rw [if_pos hlt, advanceReader, if_neg (by omega), if_pos (by unfold count at hcount; omega)]
      rfl
    · obtain ⟨b', hadv, hb', hlen, hent⟩ := advanceReader_ok h.wf (n := n.toNat) (by omega)
        (by omega)
      rw [if_neg hlt, hadv]
      exact ⟨⟨hb', hlen.trans h.cap, by rw [hent, h.entries]; rfl⟩, rfl⟩
  | recedeWriter n =>
    simp only [call, Call.spec]
    by_cases hn : n ≤ 0
    · rw [if_pos hn, recedeWriter, if_pos (by omega)]
      rfl
    rw [if_neg hn]
    by_cases hlt : q.items.length < n.toNat
    · rw [if_pos hlt, recedeWriter, if_neg (by omega), if_pos (by unfold count at hcount; omega)]
      rfl
    · obtain ⟨b', hrec, hb', hlen, hent⟩ := recedeWriter_ok h.wf (n := n.toNat) (by omega)
        (by omega)
      rw [if_neg hlt, hrec]
      exact ⟨⟨hb', hlen.trans h.cap, by rw [hent, h.entries, hcount]; rfl⟩, rfl⟩

/-- A new buffer of `size ≥ 1` slots holds the empty queue of capacity `size`. -/
theorem refines_newPrecommitBuffer {size : Nat} (hsize : 0 < size) (zero : D) :
    Refines (newPrecommitBuffer size zero) (BoundedQueue.empty size) :=
  ⟨wf_newPrecommitBuffer hsize zero, List.length_replicate, entries_newPrecommitBuffer size zero⟩

/-- A run of calls on the buffer, each answer logged. -/
def runCalls (b : PrecommitBuffer D) (calls : List (Call D)) :
    PrecommitBuffer D × List (Except BufferError (Option (PrecommittedEntry D))) :=
  calls.foldl (Machine.answerStep call) (b, [])

/-- The same run on the queue. -/
def Call.runSpec (q : BoundedQueue (PrecommittedEntry D)) (calls : List (Call D)) :
    BoundedQueue (PrecommittedEntry D) × List (Except BufferError (Option (PrecommittedEntry D))) :=
  calls.foldl (Machine.answerStep Call.spec) (q, [])

/-- **The buffer is a bounded FIFO queue.** Over every run of calls from a new buffer of
`size ≥ 1` slots, each call answers as the queue of capacity `size` answers it, the buffer
holds the queue's entries, and `len(buf) - freeSlots()` is the queue's length. -/
theorem runCalls_refines {size : Nat} (hsize : 0 < size) (zero : D) (calls : List (Call D)) :
    Refines (runCalls (newPrecommitBuffer size zero) calls).1
        (Call.runSpec (BoundedQueue.empty size) calls).1 ∧
      (runCalls (newPrecommitBuffer size zero) calls).2 =
        (Call.runSpec (BoundedQueue.empty size) calls).2 ∧
      (runCalls (newPrecommitBuffer size zero) calls).1.count =
        (Call.runSpec (BoundedQueue.empty size) calls).1.items.length := by
  obtain ⟨href, hlog⟩ := Machine.answerStep_simulation Refines call Call.spec
    (fun _ _ c h => call_agrees h c) calls (refines_newPrecommitBuffer hsize zero) []
  exact ⟨href, hlog, href.count⟩

theorem runCalls_refines_one :
    0 < 1 ∧
    Refines (runCalls (newPrecommitBuffer 1 (0 : Nat)) [.put ⟨1, 0, 0, 1⟩, .readAhead 0]).1
        (Call.runSpec (BoundedQueue.empty 1) [.put ⟨1, 0, 0, 1⟩, .readAhead 0]).1 ∧
      (runCalls (newPrecommitBuffer 1 (0 : Nat)) [.put ⟨1, 0, 0, 1⟩, .readAhead 0]).2 =
        (Call.runSpec (BoundedQueue.empty 1) [.put ⟨1, 0, 0, 1⟩, .readAhead 0]).2 ∧
      (runCalls (newPrecommitBuffer 1 (0 : Nat)) [.put ⟨1, 0, 0, 1⟩, .readAhead 0]).1.count =
        (Call.runSpec (BoundedQueue.empty 1) [.put ⟨1, 0, 0, 1⟩, .readAhead 0]).1.items.length :=
  ⟨by decide, runCalls_refines (by decide) 0 _⟩

/-- `readAhead` of a negative `n` is refused as an illegal argument, not for want of data. -/
theorem call_readAhead_neg (b : PrecommitBuffer D) :
    b.call (.readAhead (-1)) = .error .illegalArguments := rfl

/-- On a new buffer of one slot, `readAhead(-1)` is refused as an illegal argument. -/
theorem call_readAhead_neg_new :
    (newPrecommitBuffer 1 (0 : Nat)).call (.readAhead (-1)) = .error .illegalArguments :=
  call_readAhead_neg _

end PrecommitBuffer

end Immudb.Store
