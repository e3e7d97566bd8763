import Immudb.Lib.Binary64
import Immudb.Lib.Bytes

/-!
# `Immudb/Database/SortedSet.lean` — sorted sets: member keys and `ZScan`

`ZAdd` (`pkg/database/sorted_set.go`) stores a member of a sorted set as a key alone, written by
`WrapZAddReferenceAt` (`meta.go`): the set, the score as the big-endian bits `math.Float64bits`
gives, the referenced key and the transaction it is bound to. `ZScan` reads these keys back
through a key reader of the sorted-set index, seeking to the bits of `MinScore` (ascending) or of
`MaxScore` (descending), and keeps those whose score is within the bounds.

The keys sort by the score's bits read as an unsigned word, which is the order of the numbers
for non-negative scores only. The scan therefore returns exactly the members past the seek word
and within the bounds, in the order of their words (`ZScan_members_from_seek`): a negative
`MinScore` loses every member above it, and in an ascending scan the negative scores come after
the others, in reverse.

The tree behind the key reader is kept abstract: a snapshot is its live keys in order
(`Snapshot`), and a reader returns those with its prefix from its seek key on, in the order of
the scan (`Snapshot.readKeys`), as `tbtree.Reader.Read` does. The referenced entries are read
through a parameter (`getAtTx`).
-/

set_option autoImplicit false

namespace Immudb.Database

open Bytes Binary64

/-- `SetKeyPrefix`. -/
def SetKeyPrefix : UInt8 := 0

/-- `SortedSetKeyPrefix`. -/
def SortedSetKeyPrefix : UInt8 := 1

/-- `setLenLen`, `scoreLen`, `keyLenLen` and `txIDLen`: the fields of a member key are all eight
bytes wide. -/
def setLenLen : Nat := 8
def scoreLen : Nat := 8
def keyLenLen : Nat := 8
def txIDLen : Nat := 8

/-- The bits of `math.MaxFloat64`. -/
def MaxFloat64 : UInt64 := 0x7FEFFFFFFFFFFFFF

/-- `EncodeKey(key)`: the key of a plain entry. -/
def EncodeKey (key : List UInt8) : List UInt8 := SetKeyPrefix :: key

/-- `WrapZAddReferenceAt(set, score, key, atTx)`, for a score whose bits are `score`. -/
def WrapZAddReferenceAt (set : List UInt8) (score : UInt64) (key : List UInt8) (atTx : UInt64) :
    List UInt8 :=
  SortedSetKeyPrefix ::
    (be setLenLen set.length ++ set ++ be scoreLen score.toNat ++ be keyLenLen key.length ++ key ++
      be txIDLen atTx.toNat)

/-- The prefix `ZScan` reads a set under. -/
def setPrefix (set : List UInt8) : List UInt8 := SortedSetKeyPrefix :: (be setLenLen set.length ++ set)

/-- A snapshot of the sorted-set index: its live keys, in the order of the tree. -/
structure Snapshot where
  keys : List (List UInt8)
  sorted : keys.Pairwise (· < ·)

/-- Whether a reader from `seekKey` reaches `k`: from the seek key on in an ascending scan, down
from it in a descending one. -/
def FromSeek (seekKey : List UInt8) (inclusiveSeek desc : Bool) (k : List UInt8) : Bool :=
  if desc then (if inclusiveSeek then decide (k ≤ seekKey) else decide (k < seekKey))
  else (if inclusiveSeek then decide (seekKey ≤ k) else decide (seekKey < k))

/-- The keys a reader returns, by `tbtree.Reader.Read`: those with the prefix that it reaches
from the seek key, in the order of the scan, but the first `offset`. -/
def Snapshot.readKeys (snap : Snapshot) (seekKey pfx : List UInt8) (inclusiveSeek desc : Bool)
    (offset : Nat) : List (List UInt8) :=
  ((if desc then snap.keys.reverse else snap.keys).filter fun k =>
    decide (pfx <+: k) && FromSeek seekKey inclusiveSeek desc k).drop offset

/-- `schema.ZScanRequest`; the scores are the bits of the `float64`s. -/
structure ZScanRequest where
  Set : List UInt8
  SeekKey : List UInt8
  SeekScore : UInt64
  SeekAtTx : UInt64
  InclusiveSeek : Bool
  Limit : Nat
  Desc : Bool
  MinScore : Option UInt64
  MaxScore : Option UInt64
  SinceTx : Nat
  Offset : Nat

/-- `schema.ZEntry`, with the entry the referenced key resolves to. -/
structure ZEntry (E : Type) where
  Set : List UInt8
  Key : List UInt8
  Entry : E
  Score : UInt64
  AtTx : UInt64

/-- The errors `ZScan` returns, and the runtime panic of a slice out of range. -/
inductive ZScanError where
  | illegalArguments
  | resultSizeLimitExceeded
  /-- `store.ErrKeyNotFound` -/
  | keyNotFound
  /-- `io.EOF` -/
  | eof
  | indexOutOfRange
  /-- an error of the store that `ZScan` passes on -/
  | store
  deriving DecidableEq, Repr

/-- The score `ZScan` seeks to when no `SeekKey` is given: `MinScore` in an ascending scan,
`MaxScore` or the largest `float64` in a descending one, `0` otherwise. -/
def ZScanRequest.seekScore (req : ZScanRequest) : UInt64 :=
  if req.Desc then req.MaxScore.getD MaxFloat64 else req.MinScore.getD 0

/-- The seek key of `ZScan`. -/
def ZScanRequest.seekKey (req : ZScanRequest) : List UInt8 :=
  if req.SeekKey = [] then setPrefix req.Set ++ be scoreLen req.seekScore.toNat
  else
    setPrefix req.Set ++ be scoreLen req.SeekScore.toNat ++ be keyLenLen (1 + req.SeekKey.length) ++
      EncodeKey req.SeekKey ++ be txIDLen req.SeekAtTx.toNat

/-- The score guards of the loop of `ZScan`: not below `MinScore` and not above `MaxScore`, by Go's
comparisons of `float64`. -/
def ZScanRequest.InBounds (req : ZScanRequest) (score : UInt64) : Prop :=
  (∀ m ∈ req.MinScore, ¬ lt score.toNat m.toNat) ∧ (∀ m ∈ req.MaxScore, ¬ lt m.toNat score.toNat)

-- decided on the options themselves, never by enumerating the words
instance (req : ZScanRequest) (score : UInt64) : Decidable (req.InBounds score) :=
  @instDecidableAnd _ _ (Option.decidableForallMem req.MinScore)
    (Option.decidableForallMem req.MaxScore)

/-- The members a scan with no `SeekKey` reaches: in an ascending scan those whose word is at
least the seek word, in a descending one those whose word is below it. -/
def ZScanRequest.SeekOk (req : ZScanRequest) (score : UInt64) : Prop :=
  if req.Desc then score < req.seekScore else req.seekScore ≤ score

instance (req : ZScanRequest) (score : UInt64) : Decidable (req.SeekOk score) :=
  inferInstanceAs (Decidable (ite _ _ _))

section ZScan

variable {E : Type} (getAtTx : List UInt8 → UInt64 → Except ZScanError E)

/-- One turn of the loop of `ZScan` on a key read: the entry it appends, if any. -/
def zscanEntry (req : ZScanRequest) (zKey : List UInt8) : Except ZScanError (Option (ZEntry E)) := do
  let scoreOff := 1 + setLenLen + req.Set.length
  let some scoreB := uintBE? scoreLen (zKey.drop scoreOff) | throw .indexOutOfRange
  let score := scoreB.toUInt64
  -- "Guard to ensure that score match the filter range if filter is provided": a score below
  -- `MinScore` or above `MaxScore` is skipped
  if ¬ req.InBounds score then return none
  let keyOff := scoreOff + scoreLen + keyLenLen
  if zKey.length < keyOff + txIDLen then throw .indexOutOfRange
  let key := (zKey.drop keyOff).take (zKey.length - keyOff - txIDLen)
  let atTx := (ofBE (zKey.drop (keyOff + key.length))).toUInt64
  match getAtTx key atTx with
  -- "ignore deleted or truncated ones"
  | .error .keyNotFound => return none
  | .error .eof => return none
  | .error err => throw err
  | .ok e =>
    let some k := sliceFrom? key 1 | throw .indexOutOfRange
    return some ⟨req.Set, k, e, score, atTx⟩

/-- The loop of `ZScan` over the keys it reads. -/
def zscanLoop (req : ZScanRequest) : List (List UInt8) → Except ZScanError (List (ZEntry E))
  | [] => pure []
  | zKey :: zKeys => do
    let z ← zscanEntry getAtTx req zKey
    let zs ← zscanLoop req zKeys
    pure (z.toList ++ zs)

/-- `db.ZScan(req)`, on a database whose results are bounded by `maxResultSize` and whose last
committed transaction is `currTxID`, and a snapshot `zsnap` of the sorted-set index. -/
def ZScan (maxResultSize currTxID : Nat) (zsnap : Snapshot) (req : ZScanRequest) :
    Except ZScanError (List (ZEntry E)) := do
  if req.Set = [] then throw .illegalArguments
  if req.Limit > maxResultSize then throw .resultSizeLimitExceeded
  let limit := if req.Limit = 0 then maxResultSize else req.Limit
  if req.SinceTx > currTxID then throw .illegalArguments
  let zKeys := zsnap.readKeys req.seekKey (setPrefix req.Set) req.InclusiveSeek req.Desc req.Offset
  zscanLoop getAtTx req (zKeys.take limit)

end ZScan

/-! ## Member keys against the seek key -/

/-- A member key is the set's prefix, the score's word, and what follows it. -/
theorem WrapZAddReferenceAt_eq (set : List UInt8) (score : UInt64) (key : List UInt8)
    (atTx : UInt64) :
    WrapZAddReferenceAt set score key atTx =
      setPrefix set ++ (be 8 score.toNat ++ (be 8 key.length ++ key ++ be 8 atTx.toNat)) := by
  simp [WrapZAddReferenceAt, setPrefix, setLenLen, scoreLen, keyLenLen, txIDLen]

theorem length_setPrefix (set : List UInt8) : (setPrefix set).length = 1 + setLenLen + set.length := by
  simp [setPrefix, setLenLen]
  omega

section Words

variable {pfx rest : List UInt8} {w s : UInt64}

theorem be_lt_be_word (h : s < w) : be 8 s.toNat < be 8 w.toNat :=
  be_lt_be (UInt64.lt_iff_toNat_lt.mp h) (by simpa using w.toNat_lt)

/-- A member whose word is below the seek word sorts before the seek key. -/
theorem member_lt_seek (h : s < w) : pfx ++ (be 8 s.toNat ++ rest) < pfx ++ be 8 w.toNat := by
  rw [append_lt_append_left_iff]
  simpa using append_lt_append_of_lt (x := rest) (y := []) (be_lt_be_word h) (by simp)

/-- A member whose word is at least the seek word sorts after the seek key: past it, or
extending it. -/
theorem seek_lt_member (hrest : rest ≠ []) (h : w ≤ s) :
    pfx ++ be 8 w.toNat < pfx ++ (be 8 s.toNat ++ rest) := by
  rw [append_lt_append_left_iff]
  rcases (UInt64.le_iff_toNat_le.mp h).lt_or_eq with h | h
  · simpa using append_lt_append_of_lt (x := []) (y := rest)
      (be_lt_be_word (UInt64.lt_iff_toNat_lt.mpr h)) (by simp)
  · rw [h]
    exact lt_append_of_ne_nil _ hrest

theorem member_lt_seek_iff (hrest : rest ≠ []) :
    pfx ++ (be 8 s.toNat ++ rest) < pfx ++ be 8 w.toNat ↔ s < w := by
  refine ⟨fun h => ?_, member_lt_seek⟩
  rw [UInt64.lt_iff_toNat_lt]
  by_contra hws
  exact List.lt_asymm h (seek_lt_member hrest (UInt64.le_iff_toNat_le.mpr (by omega)))

theorem seek_lt_member_iff (hrest : rest ≠ []) :
    pfx ++ be 8 w.toNat < pfx ++ (be 8 s.toNat ++ rest) ↔ w ≤ s := by
  refine ⟨fun h => ?_, seek_lt_member hrest⟩
  rw [UInt64.le_iff_toNat_le]
  by_contra hws
  exact List.lt_asymm h (member_lt_seek (UInt64.lt_iff_toNat_lt.mpr (by omega)))

end Words

/-- Two members of one set are ordered by their words first. -/
theorem score_le_of_lt {set k₁ k₂ : List UInt8} {s₁ s₂ t₁ t₂ : UInt64}
    (h : WrapZAddReferenceAt set s₁ k₁ t₁ < WrapZAddReferenceAt set s₂ k₂ t₂) : s₁ ≤ s₂ := by
  rw [UInt64.le_iff_toNat_le]
  by_contra hs
  rw [WrapZAddReferenceAt_eq, WrapZAddReferenceAt_eq, append_lt_append_left_iff] at h
  exact List.lt_asymm h
    (append_lt_append_of_lt (be_lt_be_word (UInt64.lt_iff_toNat_lt.mpr (by omega))) (by simp))

/-- With no `SeekKey`, the reader reaches a member of the set exactly when its word passes the
seek word. -/
theorem fromSeek_member {req : ZScanRequest} (hseek : req.SeekKey = []) (s : UInt64)
    (key : List UInt8) (atTx : UInt64) :
    FromSeek req.seekKey req.InclusiveSeek req.Desc (WrapZAddReferenceAt req.Set s key atTx) =
      decide (req.SeekOk s) := by
  have hrest : be 8 key.length ++ key ++ be 8 atTx.toNat ≠ [] := List.ne_nil_of_length_pos (by simp)
  rw [ZScanRequest.seekKey, if_pos hseek, WrapZAddReferenceAt_eq]
  unfold FromSeek ZScanRequest.SeekOk
  -- the member key is never the seek key, so an inclusive seek reaches the same members
  by_cases hd : req.Desc <;> by_cases hi : req.InclusiveSeek <;>
    simp only [hd, hi, scoreLen, ← List.not_lt, seek_lt_member_iff hrest, member_lt_seek_iff hrest,
      Bool.false_eq_true, if_false, if_true, UInt64.not_le, UInt64.not_lt]

/-! ## The reader -/

section Reader

variable (snap : Snapshot) (seekKey pfx : List UInt8) (inclusiveSeek desc : Bool)

theorem mem_readKeys {k : List UInt8} :
    k ∈ snap.readKeys seekKey pfx inclusiveSeek desc 0 ↔
      k ∈ snap.keys ∧ pfx <+: k ∧ FromSeek seekKey inclusiveSeek desc k = true := by
  unfold Snapshot.readKeys
  cases desc <;> simp

/-- The reader returns its keys in the order of the scan. -/
theorem readKeys_pairwise (offset : Nat) :
    (snap.readKeys seekKey pfx inclusiveSeek desc offset).Pairwise
      fun a b => if desc then b < a else a < b := by
  unfold Snapshot.readKeys
  refine List.Pairwise.sublist (List.drop_sublist _ _) (List.Pairwise.filter _ ?_)
  cases desc
  · simpa using snap.sorted
  · simpa [List.pairwise_reverse] using snap.sorted

/-- The reader returns no more keys than the snapshot holds under its prefix. -/
theorem length_readKeys_le (offset : Nat) :
    (snap.readKeys seekKey pfx inclusiveSeek desc offset).length ≤
      (snap.keys.filter fun k => decide (pfx <+: k)).length := by
  unfold Snapshot.readKeys
  calc _ ≤ ((if desc then snap.keys.reverse else snap.keys).filter fun k =>
          decide (pfx <+: k) && FromSeek seekKey inclusiveSeek desc k).length :=
        by rw [List.length_drop]; omega
    _ ≤ ((if desc then snap.keys.reverse else snap.keys).filter fun k => decide (pfx <+: k)).length := by
        rw [← List.filter_filter]
        exact (List.filter_sublist.filter _).length_le
    _ = _ := by cases desc <;> simp [List.filter_reverse]

end Reader

/-! ## The loop of `ZScan` on member keys -/

section Scan

variable {E : Type} (getAtTx : List UInt8 → UInt64 → Except ZScanError E)

/-- On a member of the set whose referenced key resolves, a turn of the loop appends the member
exactly when its score is within the bounds. -/
theorem zscanEntry_member {req : ZScanRequest} {s atTx : UInt64} {key : List UInt8} {e : E}
    (he : getAtTx (EncodeKey key) atTx = .ok e) :
    zscanEntry getAtTx req (WrapZAddReferenceAt req.Set s (EncodeKey key) atTx) =
      .ok (if req.InBounds s then some ⟨req.Set, key, e, s, atTx⟩ else none) := by
  -- the fields of the member key, at the offsets the loop reads them from
  set k := EncodeKey key with hk
  have hW : WrapZAddReferenceAt req.Set s k atTx =
      (setPrefix req.Set ++ be 8 s.toNat ++ be 8 k.length) ++ k ++ be 8 atTx.toNat := by
    simp only [WrapZAddReferenceAt_eq, List.append_assoc]
  have hpre : (setPrefix req.Set ++ be 8 s.toNat ++ be 8 k.length).length =
      1 + 8 + req.Set.length + 8 + 8 := by
    simp [length_setPrefix, setLenLen]
  have hscore : (WrapZAddReferenceAt req.Set s k atTx).drop (1 + 8 + req.Set.length) =
      be 8 s.toNat ++ (be 8 k.length ++ k ++ be 8 atTx.toNat) := by
    rw [WrapZAddReferenceAt_eq]
    exact List.drop_left' (length_setPrefix _)
  have hkey : (WrapZAddReferenceAt req.Set s k atTx).drop (1 + 8 + req.Set.length + 8 + 8) =
      k ++ be 8 atTx.toNat := by
    rw [hW, List.append_assoc]
    exact List.drop_left' hpre
  have hat : (WrapZAddReferenceAt req.Set s k atTx).drop (1 + 8 + req.Set.length + 8 + 8 + k.length) =
      be 8 atTx.toNat := by
    rw [hW]
    exact List.drop_left' (by rw [List.length_append, hpre])
  have hlen : (WrapZAddReferenceAt req.Set s k atTx).length =
      1 + 8 + req.Set.length + 8 + 8 + k.length + 8 := by
    rw [hW, List.length_append, List.length_append, hpre, length_be]
  have hs : (s.toNat % 2 ^ (8 * 8)).toUInt64 = s := by simp
  have ha : (atTx.toNat % 2 ^ (8 * 8)).toUInt64 = atTx := by simp
  unfold zscanEntry
  simp only [setLenLen, scoreLen, keyLenLen, txIDLen, hscore, uintBE?_append, hs]
  by_cases hb : req.InBounds s
  · -- within the bounds: the referenced key and transaction are read back and resolved
    have htake : (k ++ be 8 atTx.toNat).take (1 + 8 + req.Set.length + 8 + 8 + k.length + 8 -
        (1 + 8 + req.Set.length + 8 + 8) - 8) = k := List.take_left' (by omega)
    rw [if_neg (not_not.mpr hb), if_neg (by rw [hlen]; omega)]
    have hslice : sliceFrom? k 1 = some key := by simp [hk, EncodeKey, sliceFrom?]
    simp only [hlen, hkey, htake, hat, ofBE_be, ha, he, hslice, if_pos hb]
    rfl
  · rw [if_pos hb, if_neg hb]
    rfl

/-- A loop whose every turn succeeds appends, key by key, the entries the turns give. -/
theorem zscanLoop_of_ok {req : ZScanRequest} {f : List UInt8 → Option (ZEntry E)} :
    ∀ {L : List (List UInt8)}, (∀ k ∈ L, zscanEntry getAtTx req k = .ok (f k)) →
      zscanLoop getAtTx req L = .ok (L.filterMap f)
  | [], _ => rfl
  | k :: L, h => by
    have ih := zscanLoop_of_ok (L := L) fun k' hk' => h k' (List.mem_cons_of_mem _ hk')
    rw [zscanLoop, h k List.mem_cons_self, ih]
    cases hf : f k <;> simp [hf, bind, Except.bind, pure, Except.pure]

/-- A valid request with no `SeekKey` and no `Offset`, and a `Limit` at least the size of the set,
runs the loop over every key the reader returns. -/
theorem ZScan_eq_loop (maxResultSize currTxID : Nat) (zsnap : Snapshot) {req : ZScanRequest}
    (hset : req.Set ≠ []) (hlimit : req.Limit ≤ maxResultSize) (hsince : req.SinceTx ≤ currTxID)
    (hsize : (zsnap.keys.filter fun k => decide (setPrefix req.Set <+: k)).length ≤ req.Limit) :
    ZScan getAtTx maxResultSize currTxID zsnap req =
      zscanLoop getAtTx req
        (zsnap.readKeys req.seekKey (setPrefix req.Set) req.InclusiveSeek req.Desc req.Offset) := by
  have hlen := (length_readKeys_le zsnap req.seekKey (setPrefix req.Set) req.InclusiveSeek req.Desc
    req.Offset).trans hsize
  unfold ZScan
  simp only [if_neg hset, if_neg (Nat.not_lt.mpr hlimit), if_neg (Nat.not_lt.mpr hsince)]
  rw [List.take_of_length_le]
  split <;> omega

/-- **What `ZScan` returns.** A valid scan with no `SeekKey` and no `Offset`, over a set whose
members all resolve, with a `Limit` at least the size of the set, returns members of the set
only; it returns a member exactly when its score is within the bounds and its word passes the
seek word; and it returns them in the order of their words, descending in a descending scan. The
seek word compares the scores as unsigned words, not as numbers. -/
theorem ZScan_members_from_seek (maxResultSize currTxID : Nat) (zsnap : Snapshot)
    (req : ZScanRequest) (hset : req.Set ≠ []) (hlimit : req.Limit ≤ maxResultSize)
    (hsince : req.SinceTx ≤ currTxID) (hseek : req.SeekKey = []) (hoff : req.Offset = 0)
    (hsize : (zsnap.keys.filter fun k => decide (setPrefix req.Set <+: k)).length ≤ req.Limit)
    (hmembers : ∀ k ∈ zsnap.keys, setPrefix req.Set <+: k →
      ∃ s key atTx, k = WrapZAddReferenceAt req.Set s (EncodeKey key) atTx)
    (hlive : ∀ s key atTx, WrapZAddReferenceAt req.Set s (EncodeKey key) atTx ∈ zsnap.keys →
      ∃ e, getAtTx (EncodeKey key) atTx = .ok e) :
    ∃ zs, ZScan getAtTx maxResultSize currTxID zsnap req = .ok zs ∧
      (∀ z ∈ zs, z.Set = req.Set ∧
        WrapZAddReferenceAt req.Set z.Score (EncodeKey z.Key) z.AtTx ∈ zsnap.keys) ∧
      (∀ s key atTx, WrapZAddReferenceAt req.Set s (EncodeKey key) atTx ∈ zsnap.keys →
        ((∃ z ∈ zs, z.Key = key ∧ z.Score = s ∧ z.AtTx = atTx) ↔
          req.InBounds s ∧ req.SeekOk s)) ∧
      zs.Pairwise fun a b => if req.Desc then b.Score ≤ a.Score else a.Score ≤ b.Score := by
  set keys := zsnap.readKeys req.seekKey (setPrefix req.Set) req.InclusiveSeek req.Desc 0
    with hkeys
  -- every key read is a member of the set, on which the turn of the loop succeeds
  have hturn : ∀ k ∈ keys, ∃ s key atTx e, k = WrapZAddReferenceAt req.Set s (EncodeKey key) atTx ∧
      zscanEntry getAtTx req k =
        .ok (if req.InBounds s then some ⟨req.Set, key, e, s, atTx⟩ else none) := by
    intro k hk
    obtain ⟨hk, hpfx, -⟩ := (mem_readKeys zsnap _ _ _ _).mp hk
    obtain ⟨s, key, atTx, rfl⟩ := hmembers k hk hpfx
    obtain ⟨e, he⟩ := hlive s key atTx hk
    exact ⟨s, key, atTx, e, rfl, zscanEntry_member getAtTx he⟩
  let F : List UInt8 → Option (ZEntry E) := fun k => (zscanEntry getAtTx req k).toOption.join
  have hF : ∀ k ∈ keys, zscanEntry getAtTx req k = .ok (F k) := by
    intro k hk
    obtain ⟨s, key, atTx, e, -, h⟩ := hturn k hk
    simp only [F, h, Except.toOption, Option.join_some]
  have hFsome : ∀ k ∈ keys, ∀ z, F k = some z →
      k = WrapZAddReferenceAt req.Set z.Score (EncodeKey z.Key) z.AtTx ∧ z.Set = req.Set ∧
        req.InBounds z.Score := by
    intro k hk z hz
    obtain ⟨s, key, atTx, e, rfl, h⟩ := hturn k hk
    simp only [F, h, Except.toOption] at hz
    split at hz
    · cases hz
      exact ⟨rfl, rfl, ‹_›⟩
    · cases hz
  refine ⟨keys.filterMap F, ?_, ?_, ?_, ?_⟩
  · rw [ZScan_eq_loop getAtTx maxResultSize currTxID zsnap hset hlimit hsince hsize, hoff]
    exact zscanLoop_of_ok getAtTx hF
  · -- every entry is a member's
    intro z hz
    obtain ⟨k, hk, hFk⟩ := List.mem_filterMap.mp hz
    obtain ⟨rfl, hzset, -⟩ := hFsome k hk z hFk
    exact ⟨hzset, ((mem_readKeys zsnap _ _ _ _).mp hk).1⟩
  · -- a member is read when it passes the seek word, and kept when within the bounds
    intro s key atTx hmem
    obtain ⟨e, he⟩ := hlive s key atTx hmem
    have hread : WrapZAddReferenceAt req.Set s (EncodeKey key) atTx ∈ keys ↔ req.SeekOk s := by
      have hpfx : setPrefix req.Set <+: WrapZAddReferenceAt req.Set s (EncodeKey key) atTx := by
        rw [WrapZAddReferenceAt_eq]
        exact List.prefix_append _ _
      rw [mem_readKeys, fromSeek_member hseek]
      simp [hmem, hpfx]
    constructor
    · rintro ⟨z, hz, rfl, rfl, rfl⟩
      obtain ⟨k, hk, hFk⟩ := List.mem_filterMap.mp hz
      obtain ⟨rfl, -, hb⟩ := hFsome k hk z hFk
      exact ⟨hb, hread.mp hk⟩
    · rintro ⟨hb, hs⟩
      refine ⟨⟨req.Set, key, e, s, atTx⟩, List.mem_filterMap.mpr ⟨_, hread.mpr hs, ?_⟩, rfl, rfl, rfl⟩
      simp only [F, zscanEntry_member getAtTx he, if_pos hb, Except.toOption, Option.join_some]
  · -- the keys are read in order, and members are ordered by their words first
    rw [List.pairwise_filterMap]
    refine (readKeys_pairwise zsnap _ _ _ _ 0).imp_of_mem ?_
    intro a b ha hb hab z₁ hz₁ z₂ hz₂
    obtain ⟨rfl, -, -⟩ := hFsome a ha z₁ hz₁
    obtain ⟨rfl, -, -⟩ := hFsome b hb z₂ hz₂
    split at hab
    · simp only [*, if_true]
      exact score_le_of_lt hab
    · simp only [*, Bool.false_eq_true, if_false]
      exact score_le_of_lt hab

/-- One member of score `1.0` (`0x3FF0000000000000`), scanned upwards from `MinScore = -1.0`
(`0xBFF0000000000000`): the member is within the bounds, and `ZScan` does not return it. -/
theorem ZScan_misses_above_negative_min :
    let member := WrapZAddReferenceAt [115] 0x3FF0000000000000 (EncodeKey [107]) 1
    let zsnap : Snapshot := ⟨[member], List.pairwise_singleton _ _⟩
    let req : ZScanRequest :=
      ⟨[115], [], 0, 0, true, 10, false, some 0xBFF0000000000000, none, 0, 0⟩
    let getAtTx : List UInt8 → UInt64 → Except ZScanError Unit := fun _ _ => .ok ()
    req.InBounds 0x3FF0000000000000 ∧ ∃ zs, ZScan getAtTx 10 0 zsnap req = .ok zs ∧
      ¬ ∃ z ∈ zs, z.Key = [107] ∧ z.Score = 0x3FF0000000000000 ∧ z.AtTx = 1 := by
  intro member zsnap req getAtTx
  have hb : req.InBounds 0x3FF0000000000000 := by
    refine ⟨fun m hm => ?_, fun m hm => by cases hm⟩
    cases hm
    -- `1.0` is not below `-1.0`: compared by their ranks
    rw [lt_iff_rank_lt (by decide) (by decide)]
    decide
  obtain ⟨zs, hrun, -, hiff, -⟩ := ZScan_members_from_seek getAtTx 10 0 zsnap req (by decide)
    (by decide) (by decide) rfl rfl ((List.length_filter_le _ _).trans (by decide))
    (fun _ hk _ => ⟨_, _, _, List.mem_singleton.mp hk⟩) (fun _ _ _ _ => ⟨(), rfl⟩)
  refine ⟨hb, zs, hrun, fun h => ?_⟩
  have hseek : ¬ req.SeekOk 0x3FF0000000000000 := by decide
  exact hseek ((hiff _ _ _ (List.mem_singleton_self _)).mp h).2

end Scan

end Immudb.Database
