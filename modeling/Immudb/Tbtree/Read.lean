import Mathlib
import Immudb.Appendable.Reader
import Immudb.Tbtree.Node

/-!
# `Immudb/Tbtree/Read.lean` — reading nodes and histories back

`readNodeAt(off)` reads the node the node log holds at `off` (`tbtree.go`): its type byte, then
an inner node's children as `nodeRef`s (`readInnerNodeFrom`, `readNodeRefFrom`), or a leaf's
values with their newest version only (`readLeafNodeFrom`). `leafValue.history` reads a value's
versions: those it has in memory, then the history log's chunks from `hOff` on, each followed by
the offset of the chunk before it.

What a log holds is stated positionally: `HistoryAt hLog hOff tvs` says that the chain of
chunks from `hOff` holds the versions `tvs`, newest first.
-/

set_option autoImplicit false

namespace Immudb.Tbtree

open Bytes Appendable

/-- A reader over a log, with the tree's errors. -/
abbrev NodeReader := StateT Nat (Except TbtreeError)

/-- A read of the appendable, whose error is the tree's. -/
def liftRead {α : Type} (x : Reader α) : NodeReader α := fun i =>
  match x i with
  | .ok r => .ok r
  | .error e => .error (.appendable e)

variable (b : List UInt8)

/-! ## 1. Nodes -/

/-- `readNodeRefFrom`. -/
def readNodeRefFrom : NodeReader Node := do
  let minKeySize ← liftRead (Reader.readUint b 2)
  let minKey ← liftRead (Reader.read b minKeySize)
  let ts ← liftRead (Reader.readUint b 8)
  let off ← liftRead (Reader.readUint b 8)
  let minOff ← liftRead (Reader.readUint b 8)
  pure (.ref minKey ts off minOff)

/-- The loop of `readInnerNodeFrom`: `n` references. -/
def readNodeRefs : Nat → NodeReader (List Node)
  | 0 => pure []
  | n + 1 => do
    let r ← readNodeRefFrom b
    let rs ← readNodeRefs n
    pure (r :: rs)

/-- `readInnerNodeFrom` for the node at `off`: the children as references; the node's `ts` is the
largest of theirs, its smallest offset the smallest of theirs. -/
def readInnerNodeFrom (off : Nat) : NodeReader Node := do
  let childCount ← liftRead (Reader.readUint b 2)
  let refs ← readNodeRefs b childCount
  pure (.inner refs ((refs.map Node.ts).foldl max 0) off
    ((refs.map Node.minOffset).foldl min MaxInt64) false)

/-- A value of `readLeafNodeFrom`: with its newest version only. -/
def readLeafValue : NodeReader LeafValue := do
  let ksize ← liftRead (Reader.readUint b 2)
  let key ← liftRead (Reader.read b ksize)
  let vsize ← liftRead (Reader.readUint b 2)
  let value ← liftRead (Reader.read b vsize)
  let ts ← liftRead (Reader.readUint b 8)
  let hOff ← liftRead (Reader.readUint b 8)
  let hCount ← liftRead (Reader.readUint b 8)
  pure ⟨key, ⟨value, ts⟩, [], hOff, hCount⟩

/-- The loop of `readLeafNodeFrom`: `n` values. -/
def readLeafValues : Nat → NodeReader (List LeafValue)
  | 0 => pure []
  | n + 1 => do
    let v ← readLeafValue b
    let vs ← readLeafValues n
    pure (v :: vs)

/-- `readLeafNodeFrom` for the node at `off`: its `ts` is the largest of its values'. -/
def readLeafNodeFrom (off : Nat) : NodeReader Node := do
  let valueCount ← liftRead (Reader.readUint b 2)
  let values ← readLeafValues b valueCount
  pure (.leaf values ((values.map (·.newest.Ts)).foldl max 0) off false)

/-- `readNodeFrom`. -/
def readNodeFrom : NodeReader Node := do
  let off ← get
  let nodeType ← liftRead (Reader.readByte b)
  if nodeType = InnerNodeType then readInnerNodeFrom b off
  else if nodeType = LeafNodeType then readLeafNodeFrom b off
  else throw .readingFileContent

/-- `readNodeAt(off)`. -/
def readNodeAt (off : Nat) : Except TbtreeError Node := (readNodeFrom b).run' off

/-! ## 2. Histories -/

/-- The inner loop of `leafValue.history` over a chunk of `hc` versions, with `ti` versions
passed and `acc` read so far: the first versions up to `initAt` are skipped, and reading stops
at `len`. -/
def historyEntries (initAt len : Nat) : Nat → Nat × List TimedValue → NodeReader (Nat × List TimedValue)
  | 0, st => pure st
  | k + 1, (ti, acc) =>
    if len ≤ acc.length then pure (ti, acc)
    else do
      let valueLen ← liftRead (Reader.readUint b 2)
      let value ← liftRead (Reader.read b valueLen)
      let ts ← liftRead (Reader.readUint b 8)
      if ti < initAt then historyEntries initAt len k (ti + 1, acc)
      else historyEntries initAt len k (ti, acc ++ [⟨value, ts⟩])

/-- A chunk: its count, its versions as `historyEntries` reads them, and the offset of the chunk
before it. -/
def historyChunk? (initAt len : Nat) (st : Nat × List TimedValue) :
    NodeReader ((Nat × List TimedValue) × Nat) := do
  let hc ← liftRead (Reader.readUint b 4)
  let st' ← historyEntries b initAt len hc st
  let prevOff ← liftRead (Reader.readUint b 8)
  pure (st', prevOff)

/-- The outer loop of `leafValue.history`: a chunk at `hOff`, then the one before it, until `len`
versions are read, through at most `fuel` chunks. -/
def historyChunks (initAt len : Nat) : Nat → Nat → Nat × List TimedValue →
    Except TbtreeError (List TimedValue)
  | 0, _, (_, acc) => if len ≤ acc.length then .ok acc else .error .historyChain
  | fuel + 1, hOff, (ti, acc) =>
    if len ≤ acc.length then .ok acc
    else match (historyChunk? b initAt len (ti, acc)).run' hOff with
      | .error e => .error e
      | .ok (st, prevOff) => historyChunks initAt len fuel prevOff st

/-- `leafValue.history(key, offset, desc, limit, hLog)`, with `limit ≥ 1` as `History` checks:
`limit` versions from `offset` on, newest first or oldest first, and `historyCount()`. Each chunk
holds at least one version, so `hCount` chunks are enough for the versions on the log. -/
def LeafValue.history (v : LeafValue) (offset : Nat) (desc : Bool) (limit : Nat) :
    Except TbtreeError (List TimedValue × Nat) :=
  let hCount := v.historyCount
  if offset = hCount then .error .noMoreEntries
  else if offset > hCount then .error .offsetOutOfRange
  else
    let len := if limit > hCount - offset then hCount - offset else limit
    let initAt := if desc then offset else hCount - offset - len
    let inMem := (v.timedValues.drop initAt).take len
    match historyChunks b initAt len v.hCount v.hOff (v.timedValues.length, inMem) with
    | .ok tvs => .ok (if desc then tvs else tvs.reverse, hCount)
    | .error e => .error e

/-! ## 3. What the history log holds -/

/-- A version as a history chunk can hold it: its value's length fits the `uint16` it is written
in, and its `ts` the `uint64`. -/
def TimedValue.Fits (tv : TimedValue) : Prop := tv.Value.length < 2 ^ 16 ∧ tv.Ts < 2 ^ 64

instance (tv : TimedValue) : Decidable tv.Fits :=
  inferInstanceAs (Decidable (_ ∧ _))

/-- The history log holds the versions `tvs`, newest first, in the chain of chunks from `hOff`:
each chunk holds at least one of them, behind their count and before the offset of the next
chunk. -/
inductive HistoryAt (hLog : List UInt8) : Nat → List TimedValue → Prop
  | nil (hOff : Nat) : HistoryAt hLog hOff []
  | chunk {hOff prev : Nat} {tvs rest : List TimedValue} (hne : tvs ≠ [])
      (hlen : tvs.length < 2 ^ 32) (hfit : ∀ tv ∈ tvs, tv.Fits) (hprev : prev < 2 ^ 64)
      (hchunk : HoldsAt hLog hOff (be 4 tvs.length ++ (tvs.map timedValueBytes).flatten ++ be 8 prev))
      (hrest : HistoryAt hLog prev rest) : HistoryAt hLog hOff (tvs ++ rest)

/-- Appending to the history log keeps every chain it holds. -/
theorem HistoryAt.append_right {hLog : List UInt8} {hOff : Nat} {L : List TimedValue}
    (h : HistoryAt hLog hOff L) (c : List UInt8) : HistoryAt (hLog ++ c) hOff L := by
  induction h with
  | nil hOff => exact .nil hOff
  | chunk hne hlen hfit hprev hchunk _ ih => exact .chunk hne hlen hfit hprev (hchunk.append_right c) ih

variable {b}

theorem liftRead_of_ok {α : Type} {x : Reader α} {i : Nat} {r : α × Nat} (h : x i = .ok r) :
    liftRead x i = .ok r := by
  simp [liftRead, h]

section Entries

variable {initAt len ti i : Nat} {acc : List TimedValue}

/-- Once `len` versions are read, the inner loop reads nothing more. -/
theorem historyEntries_of_full (k : Nat) (h : len ≤ acc.length) :
    historyEntries b initAt len k (ti, acc) i = .ok ((ti, acc), i) := by
  cases k <;> simp [historyEntries, h, pure, StateT.pure, Except.pure]

/-- Past `initAt` and short of `len`, the inner loop reads the version the chunk holds next. -/
theorem historyEntries_read {k : Nat} {tv : TimedValue} (hfit : tv.Fits) (hlt : acc.length < len)
    (hti : initAt ≤ ti) (h : HoldsAt b i (timedValueBytes tv)) :
    historyEntries b initAt len (k + 1) (ti, acc) i =
      historyEntries b initAt len k (ti, acc ++ [tv]) (i + (timedValueBytes tv).length) := by
  unfold timedValueBytes at h ⊢
  obtain ⟨h12, h3⟩ := holdsAt_append_iff.mp h
  obtain ⟨h1, h2⟩ := holdsAt_append_iff.mp h12
  have r1 := Reader.readUint_of_holdsAt h1
  have r2 := Reader.read_of_holdsAt h2
  have r3 := Reader.readUint_of_holdsAt h3
  have e3 : i + (be 2 tv.Value.length ++ tv.Value).length = i + 2 + tv.Value.length := by
    simp only [List.length_append, length_be]
    omega
  rw [Nat.mod_eq_of_lt hfit.1] at r1
  rw [Nat.mod_eq_of_lt hfit.2, e3] at r3
  simp only [length_be] at r2
  simp only [historyEntries, if_neg (Nat.not_le.mpr hlt), if_neg (Nat.not_lt.mpr hti),
    Reader.bind_of_ok (liftRead_of_ok r1), Reader.bind_of_ok (liftRead_of_ok r2),
    Reader.bind_of_ok (liftRead_of_ok r3), List.length_append, length_be]
  congr 1
  omega

/-- Past `initAt`, and with room for all of them below `len`, the inner loop reads every version
of the chunk. -/
theorem historyEntries_all (hti : initAt ≤ ti) : ∀ (tvs acc : List TimedValue) (i : Nat),
    (∀ tv ∈ tvs, tv.Fits) → acc.length + tvs.length ≤ len →
    HoldsAt b i (tvs.map timedValueBytes).flatten →
    historyEntries b initAt len tvs.length (ti, acc) i =
      .ok ((ti, acc ++ tvs), i + (tvs.map timedValueBytes).flatten.length)
  | [], acc, i, _, _, _ => by simp [historyEntries, pure, StateT.pure, Except.pure]
  | tv :: tvs, acc, i, hfit, hlen, h => by
    rw [List.map_cons, List.flatten_cons] at h
    obtain ⟨h1, h2⟩ := holdsAt_append_iff.mp h
    have hlen' : acc.length < len := by
      simp only [List.length_cons] at hlen
      omega
    rw [List.length_cons, historyEntries_read (hfit tv List.mem_cons_self) hlen' hti h1,
      historyEntries_all hti tvs (acc ++ [tv]) _ (fun tv' h' => hfit tv' (List.mem_cons_of_mem _ h'))
        (by simp only [List.length_append, List.length_cons, List.length_nil] at hlen ⊢; omega) h2]
    simp [Nat.add_assoc]

/-- A whole chunk, when its versions all fit below `len`: they are read, and the chunk's last
field is the offset of the one before it. -/
theorem historyChunk?_all {hOff prev : Nat} {tvs : List TimedValue} (hti : initAt ≤ ti)
    (hlen : tvs.length < 2 ^ 32) (hfit : ∀ tv ∈ tvs, tv.Fits) (hprev : prev < 2 ^ 64)
    (hroom : acc.length + tvs.length ≤ len)
    (h : HoldsAt b hOff (be 4 tvs.length ++ (tvs.map timedValueBytes).flatten ++ be 8 prev)) :
    (historyChunk? b initAt len (ti, acc)).run' hOff = .ok ((ti, acc ++ tvs), prev) := by
  obtain ⟨h12, h3⟩ := holdsAt_append_iff.mp h
  obtain ⟨h1, h2⟩ := holdsAt_append_iff.mp h12
  have r1 := Reader.readUint_of_holdsAt h1
  have r3 := Reader.readUint_of_holdsAt h3
  rw [Nat.mod_eq_of_lt hlen] at r1
  rw [Nat.mod_eq_of_lt hprev] at r3
  simp only [length_be] at r1 h2
  simp only [List.length_append, length_be, ← Nat.add_assoc] at r3
  have r2 := @historyEntries_all b initAt len ti hti tvs acc _ hfit hroom h2
  simp only [historyChunk?, StateT.run', Functor.map, Except.map, Reader.bind_of_ok (liftRead_of_ok r1),
    Reader.bind_of_ok r2, Reader.bind_of_ok (liftRead_of_ok r3)]
  rfl

end Entries

/-- Once `len` versions are read, the outer loop reads no chunk. -/
theorem historyChunks_of_full {initAt len fuel hOff ti : Nat} {acc : List TimedValue}
    (h : len ≤ acc.length) : historyChunks b initAt len fuel hOff (ti, acc) = .ok acc := by
  cases fuel <;> simp [historyChunks, h]

/-- The outer loop reads a whole chain: past `initAt`, with the chain's versions exactly what is
left to `len`, and a chunk of fuel for each of them at least. -/
theorem historyChunks_of_historyAt {initAt len ti : Nat} (hti : initAt ≤ ti) :
    ∀ {hOff : Nat} {L : List TimedValue}, HistoryAt b hOff L →
      ∀ (fuel : Nat) (acc : List TimedValue), L.length ≤ fuel → acc.length + L.length = len →
        historyChunks b initAt len fuel hOff (ti, acc) = .ok (acc ++ L) := by
  intro hOff L hL
  induction hL with
  | nil hOff =>
    intro fuel acc _ hacc
    cases fuel <;> simp [historyChunks, show len ≤ acc.length by simp at hacc; omega]
  | @chunk hOff prev tvs rest hne hlen hfit hprev hchunk _ ih =>
    intro fuel acc hfuel hacc
    have htvs : 0 < tvs.length := List.length_pos_of_ne_nil hne
    simp only [List.length_append] at hfuel hacc
    obtain ⟨f, rfl⟩ : ∃ f, fuel = f + 1 := ⟨fuel - 1, by omega⟩
    -- the chunk at `hOff`, then the chain from the offset it ends with
    have hread := @historyChunk?_all b initAt len ti acc hOff prev tvs hti hlen hfit hprev (by omega) hchunk
    simp only [historyChunks, if_neg (show ¬ len ≤ acc.length by omega), hread]
    rw [ih f (acc ++ tvs) (by omega) (by simp; omega), List.append_assoc]

/-- **A value's history reads back from its chain.** Where the history log holds, from `hOff`,
the value's `hCount` versions on the log, `history` from the newest version on reads the
versions in memory and then those of the chain. -/
theorem LeafValue.history_all {v : LeafValue} {L : List TimedValue} (h : HistoryAt b v.hOff L)
    (hc : L.length = v.hCount) :
    v.history b 0 true v.historyCount = .ok (v.timedValues ++ L, v.historyCount) := by
  have htv : v.timedValues.length = v.older.length + 1 := by simp [LeafValue.timedValues]
  have hpos : 0 ≠ v.historyCount := by simp [LeafValue.historyCount, htv]
  have hread := @historyChunks_of_historyAt b 0 v.historyCount v.timedValues.length
    (Nat.zero_le _) v.hOff L h v.hCount v.timedValues (by omega)
    (by simp only [LeafValue.historyCount]; omega)
  have htake : v.timedValues.take v.historyCount = v.timedValues :=
    List.take_of_length_le (by simp [LeafValue.historyCount])
  simp [LeafValue.history, hpos, htake, hread]

/-- A value whose newest version `[2]` is in memory and whose one older version `[5]` is the
only one of a chunk at the start of the history log. -/
theorem LeafValue.history_all_one_chunk :
    LeafValue.history (be 4 1 ++ timedValueBytes ⟨[5], 1⟩ ++ be 8 0) ⟨[1], ⟨[2], 3⟩, [], 0, 1⟩ 0
      true 2 = .ok ([⟨[2], 3⟩, ⟨[5], 1⟩], 2) := by
  have h : HistoryAt (be 4 1 ++ timedValueBytes ⟨[5], 1⟩ ++ be 8 0) 0 ([⟨[5], 1⟩] ++ []) :=
    .chunk (by simp) (by decide) (by decide) (by decide)
      (by simpa using holdsAt_append [] (be 4 1 ++ timedValueBytes ⟨[5], 1⟩ ++ be 8 0) [])
      (.nil 0)
  exact LeafValue.history_all h rfl

/-- Versions that a value still holds in memory are read from there, whatever the history log
holds. -/
theorem LeafValue.history_of_inMem {v : LeafValue} {offset limit : Nat} (hl : 1 ≤ limit)
    (h : offset + limit ≤ v.timedValues.length) :
    v.history b offset true limit = .ok ((v.timedValues.drop offset).take limit, v.historyCount) := by
  have hc : offset + limit ≤ v.historyCount := by simp only [LeafValue.historyCount]; omega
  have hlen : ((v.timedValues.drop offset).take limit).length = limit := by simp; omega
  simp only [LeafValue.history, if_neg (show offset ≠ v.historyCount by omega),
    if_neg (show ¬ offset > v.historyCount by omega), if_neg (show ¬ limit > v.historyCount - offset by omega),
    if_true, historyChunks_of_full (show limit ≤ _ from hlen.ge)]

/-- A value whose only version in memory is its newest reads its second version from the chunk
at `hOff`: the first version there, whatever follows it. -/
theorem LeafValue.history_one_of_chunk {v : LeafValue} (hv : v.older = []) (hc : 1 ≤ v.hCount)
    {k : Nat} {tv : TimedValue} {rest : List UInt8} (hk : 0 < k) (hk' : k < 2 ^ 32)
    (hfit : tv.Fits) (hrest : 8 ≤ rest.length)
    (h : HoldsAt b v.hOff (be 4 k ++ timedValueBytes tv ++ rest)) :
    v.history b 1 true 1 = .ok ([tv], v.historyCount) := by
  have hcount : v.historyCount = v.hCount + 1 := by simp [LeafValue.historyCount, LeafValue.timedValues, hv]
  obtain ⟨h12, h3⟩ := holdsAt_append_iff.mp h
  obtain ⟨h1, h2⟩ := holdsAt_append_iff.mp h12
  simp only [List.length_append, length_be] at h2 h3
  -- the count, the first version, and the 8 bytes after it: the next version or the last field
  have r1 := Reader.readUint_of_holdsAt h1
  rw [Nat.mod_eq_of_lt hk'] at r1
  obtain ⟨k', rfl⟩ : ∃ k', k = k' + 1 := ⟨k - 1, by omega⟩
  have r2 : historyEntries b 1 1 (k' + 1) (1, []) (v.hOff + 4) =
      .ok ((1, [tv]), v.hOff + 4 + (timedValueBytes tv).length) := by
    rw [historyEntries_read hfit (by simp) le_rfl h2, historyEntries_of_full k' (by simp)]
    rfl
  obtain ⟨prev, r3⟩ := Reader.readUint_ok_of_le (b := b) (w := 8)
    (show v.hOff + 4 + (timedValueBytes tv).length + 8 ≤ b.length by
      have := h3.le_length
      omega)
  obtain ⟨f, hf⟩ : ∃ f, v.hCount = f + 1 := ⟨v.hCount - 1, by omega⟩
  have hchunk : (historyChunk? b 1 1 (1, [])).run' v.hOff = .ok ((1, [tv]), prev) := by
    simp only [historyChunk?, StateT.run', Functor.map, Except.map, Reader.bind_of_ok (liftRead_of_ok r1),
      Reader.bind_of_ok r2, Reader.bind_of_ok (liftRead_of_ok r3)]
    rfl
  have hmem : (v.timedValues.drop 1).take 1 = [] := by simp [LeafValue.timedValues, hv]
  have htv : v.timedValues.length = 1 := by simp [LeafValue.timedValues, hv]
  simp only [LeafValue.history, hcount, hf, hmem, htv, if_neg (show ¬ 1 = f + 1 + 1 by omega),
    if_neg (show ¬ 1 > f + 1 + 1 by omega), if_neg (show ¬ 1 > f + 1 + 1 - 1 by omega), if_true,
    historyChunks, List.length_nil, if_neg (show ¬ 1 ≤ 0 by omega), hchunk,
    historyChunks_of_full (show 1 ≤ [tv].length by simp)]

end Immudb.Tbtree
