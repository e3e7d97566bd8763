import Immudb.Ahtree.Spec
import Immudb.Ahtree.Layout

/-!
# `Immudb/Ahtree/Refinement.lean` — the AHtree computes the Merkle tree hash

The methods of `Immudb/Ahtree/Tree.lean` refine the machine of `Immudb/Ahtree/Spec.lean`: over
every run of calls whose reopens find no stale record (`Content.ReopensClean`), the logs of the
tree store the leaves the abstract machine holds, in the layout of `Immudb/Ahtree/Layout.lean`. From that, the digest `RootAt(k)` reads is the Merkle
tree hash of the first `k` leaves, and the digest `Append` returns is the hash of the whole new
tree (`rootAt_run`, `append_run`).

The relation is `Refines`: its data part `Stores` says what each log and counter holds for the
content `cur`, and `Durable` says what a reopen reads back, which is `dur`. The proof follows the
code one method at a time, each with its spec lemma (section 4), and every method that touches
the digests does so through `nodeAt_run` or `appendLoop_run` (sections 1 and 2). `step_refines`
puts them together and `run_refines` is the induction over runs; through it the durability facts
of the machine hold of the tree (`close_reopen_keeps_roots`, `resetSize_close_reopen_size`,
section 5). Past the write offsets the files hold the records a truncation left, counted by the
machine's `stale`; a reopen with `stale > 0` reads them as leaves
(`reopen_resurrects_truncated_leaves`, section 6).

Nothing here assumes anything of the hash: the tree computes the Merkle tree hash of its
leaves for every `Hasher`, collisions or not.
-/

set_option autoImplicit false

namespace Immudb.Ahtree

open Hashing Immudb.Appendable Bits Merkle Machine

variable {D : Type}

/-! ## 1. The digest log and its cache -/

/-- `lay` is a prefix of the digest log, and every cached digest is the one `lay` has there. -/
structure Digests (dLog : List D) (dCache : Nat → Option D) (lay : List D) : Prop where
  log : lay <+: dLog
  cache : ∀ i v, dCache i = some v → lay[i]? = some v

theorem putDigests_apply (c : Nat → Option D) (base : Nat) (ds : List D) (i : Nat) :
    putDigests c base ds i = if base ≤ i ∧ i < base + ds.length then ds[i - base]? else c i := by
  induction ds generalizing c base with
  | nil => simp [putDigests]
  | cons h hs ih =>
    rw [putDigests, ih, List.length_cons]
    rcases Nat.lt_trichotomy i base with hlt | rfl | hgt
    · have h1 : ¬ (base + 1 ≤ i ∧ i < base + 1 + hs.length) := by omega
      have h2 : ¬ (base ≤ i ∧ i < base + (hs.length + 1)) := by omega
      rw [if_neg h1, if_neg h2, Function.update_of_ne (by omega)]
    · simp
    · have hi : i - base = i - (base + 1) + 1 := by omega
      rw [hi, List.getElem?_cons_succ]
      by_cases hin : i < base + 1 + hs.length
      · rw [if_pos ⟨hgt, hin⟩, if_pos ⟨by omega, by omega⟩]
      · rw [if_neg (by omega), if_neg (by omega), Function.update_of_ne (by omega)]

namespace Digests

variable {dLog lay : List D} {dCache : Nat → Option D}

theorem getElem?_dLog (hd : Digests dLog dCache lay) {i : Nat} {v : D} (hi : lay[i]? = some v) :
    dLog[i]? = some v := by
  obtain ⟨rest, hrest⟩ := hd.log
  rw [← hrest, List.getElem?_append_left (List.getElem?_eq_some_iff.mp hi).1, hi]

theorem empty (h : lay <+: dLog) : Digests dLog (fun _ => none) lay :=
  ⟨h, fun _ _ hv => by cases hv⟩

/-- Caching the right digest keeps the cache right. -/
theorem update (hd : Digests dLog dCache lay) {i : Nat} {v : D} (hi : lay[i]? = some v) :
    Digests dLog (Function.update dCache i (some v)) lay := by
  refine ⟨hd.log, fun j w hj => ?_⟩
  by_cases hji : j = i
  · subst hji
    rw [Function.update_self, Option.some.injEq] at hj
    rw [← hj, hi]
  · rw [Function.update_of_ne hji] at hj
    exact hd.cache j w hj

/-- The cache may forget any entry. -/
theorem evict (hd : Digests dLog dCache lay) (i : Nat) :
    Digests dLog (Function.update dCache i none) lay := by
  refine ⟨hd.log, fun j w hj => ?_⟩
  by_cases hji : j = i
  · subst hji
    rw [Function.update_self] at hj
    cases hj
  · rw [Function.update_of_ne hji] at hj
    exact hd.cache j w hj

/-- `Append`'s write: cut the log back to `lay`, write `ds` after it and cache them. -/
theorem append (hd : Digests dLog dCache lay) (ds : List D) :
    Digests (dLog.take lay.length ++ ds) (putDigests dCache lay.length ds) (lay ++ ds) := by
  have htake : dLog.take lay.length = lay := (List.prefix_iff_eq_take.mp hd.log).symm
  refine ⟨by rw [htake], fun i v hv => ?_⟩
  rw [putDigests_apply] at hv
  split at hv
  · rename_i hin
    rw [List.getElem?_append_right hin.1, hv]
  · have hlt : i < lay.length := (List.getElem?_eq_some_iff.mp (hd.cache i v hv)).1
    rw [List.getElem?_append_left hlt]
    exact hd.cache i v hv

/-- `ResetSize`'s cut: keep the first `m` digests and drop the cache entries past them. -/
theorem truncate (hd : Digests dLog dCache lay) (m : Nat) :
    Digests dLog (popDigests dCache m lay.length) (lay.take m) := by
  refine ⟨(List.take_prefix m lay).trans hd.log, fun i v hv => ?_⟩
  simp only [popDigests] at hv
  split at hv
  · cases hv
  · rename_i hout
    have hi := hd.cache i v hv
    have hlt : i < lay.length := (List.getElem?_eq_some_iff.mp hi).1
    rw [List.getElem?_take_of_lt (by omega), hi]

end Digests

/-- `nodeAt(i)` returns digest `i` of the layout, and only its cache may change. -/
theorem nodeAt_run {t : AHtree D} {lay : List D} {i : Nat} {v : D}
    (hd : Digests t.dLog t.dCache lay) (hi : lay[i]? = some v) :
    ∃ c, (nodeAt i).run t = .ok v { t with dCache := c } ∧ Digests t.dLog c lay := by
  unfold nodeAt
  simp only [EStateM.run_bind, EStateM.run_get]
  cases hc : t.dCache i with
  | some w =>
    -- a cache hit returns what the cache holds, which is the layout's digest
    have hw : w = v := Option.some.inj ((hd.cache i w hc).symm.trans hi)
    subst hw
    exact ⟨t.dCache, rfl, hd⟩
  | none =>
    refine ⟨Function.update t.dCache i (some v), ?_, hd.update hi⟩
    simp only [readAt_of_getElem? (hd.getElem?_dLog hi), liftLog]
    rfl

/-! ## 2. The digests of one append -/

/-- The level walk, bit by bit: `w` is `m / 2 ^ l` and `k` is `m` with its low `l` bits cleared. -/
theorem appendLoop_bits {m w l : Nat} (hwd : w = m / 2 ^ l) :
    w >>> 1 = m / 2 ^ (l + 1) ∧ andNot (w * 2 ^ l) (1 <<< l) = (w >>> 1) * 2 ^ (l + 1) := by
  have hshift : w >>> 1 = w / 2 := by rw [Nat.shiftRight_eq_div_pow, Nat.pow_one]
  refine ⟨?_, ?_⟩
  · rw [hshift, hwd, Nat.div_div_eq_div_mul, ← Nat.pow_succ]
  · rw [Nat.one_shiftLeft, andNot_mul_two_pow, hshift]

/-- **The digest loop of `Append`.** Appending `d` to the leaves `cur`, the loop at level `l`
holds the root of the leaves from `m = |cur|` with its low `l` bits cleared up to the new leaf,
and the digests of `appendDigests` up to that level; it ends with the root of the new tree and
all the digests append `m + 1` writes. The induction follows the loop: one case per branch. -/
theorem appendLoop_run (hs : Hasher D) (cur : List (List UInt8)) (d : List UInt8) :
    ∀ (w l k : Nat) (h : D) (ds : List D) (t : AHtree D),
      Digests t.dLog t.dCache (layout (treeScheme hs) cur) →
      w = cur.length / 2 ^ l → k = w * 2 ^ l →
      h = mthRange (treeScheme hs) (cur ++ [d]) k (cur.length + 1) →
      ds = ((cur.length :: clearChain cur.length).take (ones (cur.length % 2 ^ l) + 1)).map
        (fun a => mthRange (treeScheme hs) (cur ++ [d]) a (cur.length + 1)) →
      ∃ c, (appendLoop hs w l k h ds).run t =
          .ok (mth (treeScheme hs) (cur ++ [d]),
            appendDigests (treeScheme hs) (cur ++ [d]) (cur.length + 1)) { t with dCache := c } ∧
        Digests t.dLog c (layout (treeScheme hs) cur) := by
  intro w l k h ds
  fun_induction appendLoop hs w l k h ds with
  | case1 w l k h ds hw jp hodd ih =>
    intro t hd hwd hk hh hds
    subst hk
    obtain ⟨hw2, hk2⟩ := appendLoop_bits hwd
    have hkm : w * 2 ^ l ≤ cur.length := by rw [hwd]; exact Nat.div_mul_le_self _ _
    -- the left sibling: the root of the `2 ^ l` leaves that end at leaf `k`
    have hsib := getElem?_layout_level (treeScheme hs) hw hkm
    obtain ⟨c1, hrun1, hd1⟩ := nodeAt_run hd hsib
    have hnode : (node (w * 2 ^ l) l).run t =
        .ok (mthRange (treeScheme hs) cur ((w - 1) * 2 ^ l) (w * 2 ^ l)) { t with dCache := c1 } :=
      hrun1
    -- `w` is odd: the sibling's first leaf is `k` with bit `l` cleared too
    have hlow : (w - 1) * 2 ^ l = (w >>> 1) * 2 ^ (l + 1) := by
      have h2 : w - 1 = (w >>> 1) * 2 := by
        rw [Nat.shiftRight_eq_div_pow, Nat.pow_one]; omega
      rw [h2, Nat.pow_succ, Nat.mul_assoc, Nat.mul_comm 2]
    have hnew : (treeScheme hs).node (mthRange (treeScheme hs) cur ((w - 1) * 2 ^ l) (w * 2 ^ l)) h
        = mthRange (treeScheme hs) (cur ++ [d]) ((w >>> 1) * 2 ^ (l + 1)) (cur.length + 1) := by
      have hmod : cur.length - w * 2 ^ l < 2 ^ l := by
        have h1 := Nat.mod_lt cur.length (Nat.two_pow_pos l)
        have h2 := Nat.mod_add_div' cur.length (2 ^ l)
        rw [← hwd] at h2
        omega
      have hP := Nat.two_pow_pos l
      have hwP : (w - 1) * 2 ^ l + 2 ^ l = w * 2 ^ l := by
        rw [← Nat.succ_mul, Nat.succ_eq_add_one, Nat.sub_add_cancel hw]
      have hpow : 2 ^ (l + 1) = 2 ^ l + 2 ^ l := by rw [Nat.pow_succ]; omega
      -- the run `[(w - 1) 2^l, n)` splits at `w 2^l`: its left part is the one full block
      have hspl : w * 2 ^ l - (w - 1) * 2 ^ l = split (cur.length + 1 - (w - 1) * 2 ^ l) := by
        rw [split_eq (b := l) (by omega) (by omega)]; omega
      rw [hh, ← hlow, mthRange_node (treeScheme hs) (a := (w - 1) * 2 ^ l) (c := w * 2 ^ l)
        (b := cur.length + 1) (by omega) (by omega) (by simp) hspl,
        mthRange_append (treeScheme hs) [d] hkm]
    have hodd' : cur.length / 2 ^ l % 2 = 1 := by rw [← hwd]; exact hodd
    obtain ⟨c2, hrun2, hd2⟩ := ih
      ((treeScheme hs).node (mthRange (treeScheme hs) cur ((w - 1) * 2 ^ l) (w * 2 ^ l)) h)
      (ds ++ [(treeScheme hs).node (mthRange (treeScheme hs) cur ((w - 1) * 2 ^ l) (w * 2 ^ l)) h])
      { t with dCache := c1 } hd1 hw2 hk2 (by rw [hk2, hnew])
      (by rw [take_clearChain_succ, if_pos hodd', List.map_append, hds, List.map_singleton, ← hw2,
        hnew])
    refine ⟨c2, ?_, hd2⟩
    rw [run_bind_ok hnode]
    exact hrun2
  | case2 w l k h ds hw jp heven ih =>
    intro t hd hwd hk hh hds
    subst hk
    obtain ⟨hw2, hk2⟩ := appendLoop_bits hwd
    -- bit `l` is clear: nothing is read, and clearing it leaves `k` as it is
    have hsame : (w >>> 1) * 2 ^ (l + 1) = w * 2 ^ l := by
      have h2 : (w >>> 1) * 2 = w := by
        rw [Nat.shiftRight_eq_div_pow, Nat.pow_one]; omega
      rw [Nat.pow_succ, Nat.mul_comm (2 ^ l), ← Nat.mul_assoc, h2]
    have heven' : ¬ cur.length / 2 ^ l % 2 = 1 := by rw [← hwd]; exact heven
    obtain ⟨c2, hrun2, hd2⟩ := ih h ds t hd hw2 hk2 (by rw [hk2, hsame, hh])
      (by rw [take_clearChain_succ, if_neg heven', List.append_nil, hds])
    exact ⟨c2, hrun2, hd2⟩
  | case3 w l k h ds hw =>
    intro t hd hwd hk hh hds
    -- every bit of `m` is walked: the digest is the whole tree's, the list is complete
    have hlt : cur.length < 2 ^ l := by
      have h0 : cur.length / 2 ^ l = 0 := by omega
      exact (Nat.div_eq_zero_iff_lt (Nat.two_pow_pos l)).mp h0
    have hh' : h = mth (treeScheme hs) (cur ++ [d]) := by
      rw [hh, hk, show w = 0 by omega, Nat.zero_mul, mthRange_zero,
        List.take_of_length_le (by simp)]
    have hds' : ds = appendDigests (treeScheme hs) (cur ++ [d]) (cur.length + 1) := by
      rw [hds, ones_mod_of_lt hlt, List.take_of_length_le (by simp [length_clearChain])]
      simp only [appendDigests, Nat.add_sub_cancel]
    refine ⟨t.dCache, ?_, hd⟩
    rw [hh', hds']
    rfl

/-- The loop as `Append` starts it: at level `0`, with the leaf hash as the only digest. -/
theorem appendLoop_start (hs : Hasher D) (cur : List (List UInt8)) (d : List UInt8)
    (t : AHtree D) (hd : Digests t.dLog t.dCache (layout (treeScheme hs) cur)) :
    ∃ c, (appendLoop hs cur.length 0 cur.length (hs.sum (LeafPrefix :: d))
        [hs.sum (LeafPrefix :: d)]).run t =
      .ok (mth (treeScheme hs) (cur ++ [d]),
        appendDigests (treeScheme hs) (cur ++ [d]) (cur.length + 1)) { t with dCache := c } ∧
      Digests t.dLog c (layout (treeScheme hs) cur) := by
  have hleaf : hs.sum (LeafPrefix :: d) =
      mthRange (treeScheme hs) (cur ++ [d]) cur.length (cur.length + 1) :=
    (mthRange_succ (treeScheme hs) (by simp)).symm
  refine appendLoop_run hs cur d _ _ _ _ _ t hd (by simp) (by simp) (by simpa using hleaf) ?_
  simp [hleaf, Nat.mod_one]

/-- Each `node(k, l)` the digest loop reads, started at `m`: at a level `l` where bit `l` of `m`
is set, the node of the leaves from `m` with its low `l` bits cleared. -/
theorem mem_appendReads (m : Nat) : ∀ (w l k : Nat), w = m / 2 ^ l → k = w * 2 ^ l →
    ∀ p ∈ appendReads w l k, l ≤ p.2 ∧ m / 2 ^ p.2 % 2 = 1 ∧ p.1 = m / 2 ^ p.2 * 2 ^ p.2 := by
  intro w
  induction w using Nat.strongRecOn with
  | ind w ih =>
    intro l k hw hk p hp
    rw [appendReads] at hp
    split at hp
    · rename_i hpos
      obtain ⟨hw', hk'⟩ := appendLoop_bits hw
      rcases List.mem_append.mp hp with hp | hp
      · -- the read at this level
        split at hp
        · rename_i hodd
          rw [List.mem_singleton] at hp
          subst hp
          exact ⟨le_refl l, hw ▸ hodd, by rw [hk, hw]⟩
        · cases hp
      · -- the reads of the levels above
        have hlt : w >>> 1 < w := by rw [Nat.shiftRight_eq_div_pow]; omega
        obtain ⟨hl, hbit, hkp⟩ := ih _ hlt (l + 1) _ hw' (by rw [hk, hk']) p hp
        exact ⟨by omega, hbit, hkp⟩
    · cases hp

/-- A node the `n`-th `Append` reads was written by an earlier append `k`, at one of its levels:
its position lies among the `1 + levelsAt k` digests that append wrote. -/
theorem appendReads_written {n : Nat} {p : Nat × Nat} (hp : p ∈ appendReads (n - 1) 0 (n - 1)) :
    1 ≤ p.1 ∧ p.1 < n ∧ p.2 ≤ levelsAt p.1 ∧ nodesUntil p.1 + p.2 < nodesUpto p.1 := by
  obtain ⟨-, hbit, hk⟩ := mem_appendReads (n - 1) (n - 1) 0 (n - 1) (by simp) (by simp) p hp
  obtain ⟨k, l⟩ := p
  dsimp only at hbit hk ⊢
  obtain ⟨q, hq⟩ : ∃ q, q = (n - 1) / 2 ^ l := ⟨_, rfl⟩
  rw [← hq] at hbit hk
  have hP : 0 < 2 ^ l := Nat.two_pow_pos l
  have hq1 : 1 ≤ q := by omega
  -- `k` is `q` blocks of `2 ^ l` leaves, `q` odd
  have hk1 : 2 ^ l ≤ k := by rw [hk]; exact Nat.le_mul_of_pos_left _ hq1
  have hkn : k ≤ n - 1 := by rw [hk, hq]; exact Nat.div_mul_le_self _ _
  have hsplit : k - 1 = (q - 1) * 2 ^ l + (2 ^ l - 1) := by
    have := Nat.sub_one_mul q (2 ^ l)
    rw [hk]
    omega
  have hlow : (k - 1) % 2 ^ l = 2 ^ l - 1 := by
    rw [hsplit, Nat.mul_add_mod_of_lt (by omega)]
  have hlevel : l ≤ levelsAt k := by
    rw [levelsAt_eq]
    have := ones_mod_two_pow_lt (k - 1) l
    rw [hlow, ones_two_pow_sub_one] at this
    omega
  have hupto : nodesUpto k = nodesUpto (k - 1) + (1 + ones (k - 1)) := by
    rw [← nodesUpto_succ, Nat.sub_add_cancel (by omega)]
  refine ⟨by omega, by omega, hlevel, ?_⟩
  rw [nodesUntil_eq (by omega), hupto]
  rw [levelsAt_eq] at hlevel
  omega

/-- **The layout of the digest log.** `nodesUpto n` is the number of digests the first `n`
appends write, each writing one for its leaf and one per set bit of its index; the digests of
append `n` end at `nodesUpto n`; and every `node(k, l)` an append reads lies among those the
`k`-th append wrote. -/
theorem nodesUpto_counts_append_digests (n : Nat) (hn : 1 ≤ n) :
    nodesUpto n = ∑ k ∈ Finset.Icc 1 n, (1 + ones (k - 1)) ∧
    (∀ (hs : Hasher D) (L : List (List UInt8)), L.length = n →
      (layout (treeScheme hs) L).length = nodesUpto n ∧
      ∀ k ∈ Finset.Icc 1 n, (appendDigests (treeScheme hs) L k).length = 1 + ones (k - 1)) ∧
    nodesUntil n + levelsAt n + 1 = nodesUpto n ∧
    ∀ a ∈ Finset.Icc 1 n, ∀ p ∈ appendReads (a - 1) 0 (a - 1),
      p.1 < a ∧ p.2 ≤ levelsAt p.1 ∧ nodesUntil p.1 + p.2 < nodesUpto p.1 := by
  refine ⟨?_, fun hs L hL => ⟨by rw [length_layout, hL], fun k _ => length_appendDigests _ L k⟩,
    ?_, fun a _ p hp => ?_⟩
  · -- the sum over `0, …, n - 1` shifted to `1, …, n`
    rw [nodesUpto_eq_sum, ← Finset.Ico_add_one_right_eq_Icc, Finset.range_eq_Ico]
    have hshift := Finset.sum_Ico_add' (fun k => 1 + ones (k - 1)) 0 n 1
    simp only [Nat.add_sub_cancel, Nat.zero_add] at hshift
    exact hshift
  · have hup := nodesUpto_succ (n - 1)
    rw [Nat.sub_add_cancel hn] at hup
    rw [nodesUntil_eq hn, levelsAt_eq, hup]
    omega
  · obtain ⟨-, hlt, hlevel, hpos⟩ := appendReads_written hp
    exact ⟨hlt, hlevel, hpos⟩

theorem nodesUpto_counts_append_digests_six : nodesUntil 6 + levelsAt 6 + 1 = nodesUpto 6 :=
  (nodesUpto_counts_append_digests (D := Unit) 6 (by decide)).2.2.1

/-! ## 3. The relation -/

/-- The commit records of the leaves a tree holds: those synced, then those buffered. -/
def AHtree.records (t : AHtree D) : List CLogEntry := t.cLog.take t.latestSyncedNode ++ t.cLogBuf

/-- What a reopen reads: one record per leaf of `dur`, their digests, and their payloads. -/
structure Durable (hs : Hasher D) (t : AHtree D) (dur : List (List UInt8)) : Prop where
  length_cLog : t.cLog.length = dur.length
  digests : layout (treeScheme hs) dur <+: t.dLog
  sorted : t.cLog.Pairwise (fun a b => a.pEnd ≤ b.pEnd)
  payloads : ∀ e ∈ t.cLog, e.pEnd ≤ t.pLog.length

/-- The logs and counters of `t` store the content `c`: the digest log holds the layout of the
leaves, the counters count them, the commit records of the current leaves end in order inside
the payload log, and with nothing pending the commit log is that of the durable leaves. The
files past the write offsets hold the stale records the content counts, and every record there
still points into the payload and digest logs' files. -/
structure Stores (hs : Hasher D) (t : AHtree D) (c : Content) : Prop where
  size : t.cLogSize = c.cur.length
  dLogSize : t.dLogSize = nodesUpto c.cur.length
  digests : Digests t.dLog t.dCache (layout (treeScheme hs) c.cur)
  pending : t.cLogBuf.length = c.pending
  synced : t.latestSyncedNode + c.pending = c.cur.length
  synced_le : t.latestSyncedNode ≤ t.cLog.length
  pLogSize_le : t.pLogSize ≤ t.pLog.length
  sorted : t.records.Pairwise (fun a b => a.pEnd ≤ b.pEnd)
  records_le : ∀ e ∈ t.records, e.pEnd ≤ t.pLogSize
  durable : c.pending = 0 → Durable hs t c.dur
  /-- Below its write offset the commit log holds one record per durable leaf, and past it one
  per stale record. -/
  cLog_dur : t.cLog.length = c.dur.length
  cStale : t.cStale.length = c.stale
  /-- Every record the commit log's file holds points into the payload log's file, and the digest
  log's file holds the digests of as many leaves. -/
  file_records : ∀ e ∈ t.cLog ++ t.cStale, e.pEnd ≤ (t.pLog ++ t.pStale).length
  file_digests : nodesUpto (t.cLog ++ t.cStale).length ≤ (t.dLog ++ t.dStale).length

/-- `t` refines `c` under the options `opts`. -/
structure Refines (hs : Hasher D) (opts : Options) (t : AHtree D) (c : Content) : Prop where
  stores : Stores hs t c
  opts : t.opts = opts
  closed : t.closed = c.closed
  closed_pending : c.closed = true → c.pending = 0

theorem Stores.dLogSize_eq {hs : Hasher D} {t : AHtree D} {c : Content} (h : Stores hs t c) :
    t.dLogSize = (layout (treeScheme hs) c.cur).length := by
  rw [length_layout, h.dLogSize]

/-- `Durable` reads the three logs only. -/
theorem Durable.of_logs {hs : Hasher D} {t t' : AHtree D} {dur : List (List UInt8)}
    (hd : Durable hs t dur) (hc : t'.cLog = t.cLog) (hd' : t'.dLog = t.dLog)
    (hp : t'.pLog = t.pLog) : Durable hs t' dur :=
  ⟨hc ▸ hd.length_cLog, hd' ▸ hd.digests, hc ▸ hd.sorted, hc ▸ hp ▸ hd.payloads⟩

/-- What a reopen reads of a durable tree does not change when the payload and digest logs' files
hold more past their write offsets. -/
theorem Durable.extend {hs : Hasher D} {t : AHtree D} {dur : List (List UInt8)}
    (hd : Durable hs t dur) (pTail : List UInt8) (dTail : List D) :
    Durable hs { t with pLog := t.pLog ++ pTail, dLog := t.dLog ++ dTail } dur :=
  ⟨hd.length_cLog, hd.digests.trans (List.prefix_append _ _), hd.sorted,
    fun e he => Nat.le_trans (hd.payloads e he) (by simp)⟩

/-- In a sorted run of records, the last one ends after every other. -/
theorem pEnd_le_getLast {es : List CLogEntry} (hs : es.Pairwise (fun a b => a.pEnd ≤ b.pEnd))
    (hne : es ≠ []) : ∀ e ∈ es, e.pEnd ≤ (es.getLast hne).pEnd := by
  intro e he
  rw [← List.dropLast_append_getLast hne] at hs he
  rcases List.mem_append.mp he with hin | hin
  · exact (List.pairwise_append.mp hs).2.2 e hin _ (List.mem_singleton_self _)
  · rw [List.mem_singleton.mp hin]

/-- `Stores` does not read the cache past what `Digests` says of it. -/
theorem Stores.withCache {hs : Hasher D} {t : AHtree D} {c : Content} (h : Stores hs t c)
    {cache : Nat → Option D} (hd : Digests t.dLog cache (layout (treeScheme hs) c.cur)) :
    Stores hs { t with dCache := cache } c :=
  ⟨h.size, h.dLogSize, hd, h.pending, h.synced, h.synced_le, h.pLogSize_le, h.sorted,
    h.records_le, fun hp => (h.durable hp).of_logs rfl rfl rfl, h.cLog_dur, h.cStale,
    h.file_records, h.file_digests⟩

/-- `Stores` does not read whether the tree is closed. -/
theorem Stores.withClosed {hs : Hasher D} {t : AHtree D} {c : Content} (h : Stores hs t c)
    (b : Bool) : Stores hs { t with closed := b } c :=
  ⟨h.size, h.dLogSize, h.digests, h.pending, h.synced, h.synced_le, h.pLogSize_le, h.sorted,
    h.records_le, fun hp => (h.durable hp).of_logs rfl rfl rfl, h.cLog_dur, h.cStale,
    h.file_records, h.file_digests⟩

/-- Nor whether the content is. -/
theorem Stores.withContentClosed {hs : Hasher D} {t : AHtree D} {c : Content} (h : Stores hs t c)
    (b : Bool) : Stores hs t { c with closed := b } :=
  ⟨h.size, h.dLogSize, h.digests, h.pending, h.synced, h.synced_le, h.pLogSize_le, h.sorted,
    h.records_le, h.durable, h.cLog_dur, h.cStale, h.file_records, h.file_digests⟩

/-! ## 4. The methods, one spec lemma each -/

/-- The state `sync` leaves: the buffered records written after the synced ones. -/
def AHtree.synced (t : AHtree D) : AHtree D :=
  if t.cLogBuf.length = 0 then t
  else { t with
    cLog := t.cLog.take t.latestSyncedNode ++ t.cLogBuf
    cStale := (t.cLog.drop t.latestSyncedNode ++ t.cStale).drop t.cLogBuf.length
    latestSyncedNode := t.latestSyncedNode + t.cLogBuf.length
    cLogBuf := [] }

theorem sync_run {t : AHtree D} (h : t.latestSyncedNode ≤ t.cLog.length) :
    (sync : AhtM D Unit).run t = .ok () t.synced := by
  unfold sync AHtree.synced
  simp only [EStateM.run_bind, EStateM.run_get]
  split
  · rfl
  · simp only [setOffsetIn_of_le h, liftLog, appendAt]
    rfl

@[simp] theorem synced_opts (t : AHtree D) : t.synced.opts = t.opts := by
  unfold AHtree.synced; split <;> rfl

@[simp] theorem synced_closed (t : AHtree D) : t.synced.closed = t.closed := by
  unfold AHtree.synced; split <;> rfl

/-- `Append`'s sync: the handler is not run. -/
theorem tryCatch_sync_run {t : AHtree D} {handle : AhtError → AhtM D Unit}
    (h : t.latestSyncedNode ≤ t.cLog.length) : (tryCatch sync handle).run t = .ok () t.synced :=
  run_tryCatch_ok (sync_run h)

theorem records_synced {t : AHtree D} (h : t.latestSyncedNode ≤ t.cLog.length) :
    t.synced.records = t.records := by
  unfold AHtree.synced
  split
  · rfl
  · have hlen : (t.cLog.take t.latestSyncedNode ++ t.cLogBuf).length =
        t.latestSyncedNode + t.cLogBuf.length := by
      simp only [List.length_append, List.length_take]; omega
    simp only [AHtree.records]
    rw [← hlen, List.take_length, List.append_nil]

/-- **A sync makes the pending appends durable.** -/
theorem Stores.sync {hs : Hasher D} {t : AHtree D} {c : Content} (h : Stores hs t c) :
    Stores hs t.synced c.flush := by
  by_cases hb : t.cLogBuf.length = 0
  · have hp : c.pending = 0 := by rw [← h.pending, hb]
    rw [AHtree.synced, if_pos hb, Content.flush_of_pending_zero hp]
    exact h
  · have hp : ¬ c.pending = 0 := by rw [← h.pending]; exact hb
    have hrec := records_synced h.synced_le
    have hlen : t.records.length = c.cur.length := by
      simp only [AHtree.records, List.length_append, List.length_take]
      have := h.synced; have := h.synced_le; have := h.pending; omega
    rw [AHtree.synced, if_neg hb] at hrec ⊢
    rw [Content.flush, if_neg hp]
    refine ⟨h.size, h.dLogSize, h.digests, rfl, ?_, ?_, h.pLogSize_le, hrec ▸ h.sorted,
      hrec ▸ h.records_le, fun _ => ⟨hlen, h.digests.log, h.sorted, ?_⟩, hlen, ?_, ?_, ?_⟩
    · show t.latestSyncedNode + t.cLogBuf.length + 0 = c.cur.length
      have := h.synced; have := h.pending; omega
    · show t.latestSyncedNode + t.cLogBuf.length ≤ t.records.length
      have := h.synced; have := h.pending; omega
    · intro e he
      exact Nat.le_trans (h.records_le e he) h.pLogSize_le
    · show ((t.cLog.drop t.latestSyncedNode ++ t.cStale).drop t.cLogBuf.length).length =
        c.dur.length + c.stale - c.cur.length
      simp only [List.length_drop, List.length_append]
      have := h.cLog_dur; have := h.cStale; have := h.synced; have := h.pending
      have := h.synced_le
      omega
    · -- the records written come from the buffer, the others were in the file already
      intro e he
      rcases mem_write he with he | he | he
      · exact h.file_records e (List.mem_append_left _ he)
      · exact Nat.le_trans (h.records_le e (List.mem_append_right _ he))
          (Nat.le_trans h.pLogSize_le (by simp))
      · exact h.file_records e (List.mem_append_right _ he)
    · -- the commit log's file now ends at the later of its old end and the current leaves
      have hdig : nodesUpto c.cur.length ≤ (t.dLog ++ t.dStale).length := by
        have := h.digests.log.length_le
        rw [length_layout] at this
        exact Nat.le_trans this (by simp)
      have hf := h.file_digests
      have := h.synced; have := h.pending; have := h.synced_le
      show nodesUpto (t.cLog.take t.latestSyncedNode ++ t.cLogBuf ++
        (t.cLog.drop t.latestSyncedNode ++ t.cStale).drop t.cLogBuf.length).length ≤ _
      simp only [List.length_append, List.length_take, List.length_drop] at hf hdig ⊢
      rcases Nat.le_total (t.cLog.length + t.cStale.length) c.cur.length with hle | hle
      · exact Nat.le_trans (nodesUpto_mono (by omega)) hdig
      · exact Nat.le_trans (nodesUpto_mono (by omega)) hf

/-- **What `Append` writes stores one more pending leaf**: the payload after the cut payload log,
the new digests after the cut digest log, and one more buffered record. -/
theorem Stores.append {hs : Hasher D} {t : AHtree D} {c : Content} (h : Stores hs t c)
    {cache : Nat → Option D} (hdig : Digests t.dLog cache (layout (treeScheme hs) c.cur))
    (d : List UInt8) (closed : Bool) :
    Stores hs
      { t with
        pLog := t.pLog.take t.pLogSize ++ (Bytes.be 4 d.length ++ d)
        pStale := (t.pLog.drop t.pLogSize ++ t.pStale).drop (Bytes.be 4 d.length ++ d).length
        dLog := t.dLog.take t.dLogSize ++
          appendDigests (treeScheme hs) (c.cur ++ [d]) (c.cur.length + 1)
        dStale := (t.dLog.drop t.dLogSize ++ t.dStale).drop
          (appendDigests (treeScheme hs) (c.cur ++ [d]) (c.cur.length + 1)).length
        pLogSize := t.pLogSize + szSize + d.length
        dLogSize := t.dLogSize +
          (appendDigests (treeScheme hs) (c.cur ++ [d]) (c.cur.length + 1)).length
        cLogSize := t.cLogSize + 1
        cLogBuf := t.cLogBuf ++ [⟨t.pLogSize, d.length % 2 ^ 32⟩]
        dCache := putDigests cache t.dLogSize
          (appendDigests (treeScheme hs) (c.cur ++ [d]) (c.cur.length + 1))
        closed }
      (c.appendPending d) := by
  have hrec : ∀ e ∈ t.records, e.pEnd ≤ t.pLogSize := h.records_le
  -- the new record starts where the payload log was cut, so it ends after every other
  have hnew : t.pLogSize ≤ (⟨t.pLogSize, d.length % 2 ^ 32⟩ : CLogEntry).pEnd := by
    simp only [CLogEntry.pEnd]; omega
  have hlay : layout (treeScheme hs) (c.cur ++ [d]) = layout (treeScheme hs) c.cur ++
      appendDigests (treeScheme hs) (c.cur ++ [d]) (c.cur.length + 1) :=
    layout_append_singleton _ _ _
  have hdl : t.dLogSize ≤ t.dLog.length := h.dLogSize_eq ▸ h.digests.log.length_le
  refine ⟨?_, ?_, ?_, ?_, ?_, h.synced_le, ?_, ?_, ?_, ?_, h.cLog_dur, h.cStale,
    fun e he => Nat.le_trans (h.file_records e he) (length_file_le_write h.pLogSize_le _),
    Nat.le_trans h.file_digests (length_file_le_write hdl _)⟩
  · simp [Content.appendPending, h.size]
  · simp only [Content.appendPending, List.length_append, List.length_singleton, h.dLogSize,
      length_appendDigests, Nat.add_sub_cancel, nodesUpto_succ]
  · simp only [Content.appendPending]
    rw [hlay, h.dLogSize_eq]
    exact hdig.append _
  · simp [Content.appendPending, h.pending]
  · simp only [Content.appendPending, List.length_append, List.length_singleton]
    have := h.synced; omega
  · simp only [List.length_append, List.length_take, Bytes.length_be, szSize]
    have := h.pLogSize_le; omega
  · show (t.cLog.take t.latestSyncedNode ++ (t.cLogBuf ++ _)).Pairwise _
    rw [← List.append_assoc]
    exact List.pairwise_append.mpr ⟨h.sorted, List.pairwise_singleton _ _,
      fun a ha b hb => by rw [List.mem_singleton.mp hb]; exact Nat.le_trans (hrec a ha) hnew⟩
  · show ∀ e ∈ t.cLog.take t.latestSyncedNode ++ (t.cLogBuf ++ _),
      e.pEnd ≤ t.pLogSize + szSize + d.length
    intro e he
    rw [← List.append_assoc] at he
    rcases List.mem_append.mp he with hin | hin
    · exact Nat.le_trans (hrec e hin) (by omega)
    · rw [List.mem_singleton.mp hin]
      simp only [CLogEntry.pEnd]
      have := Nat.mod_le d.length (2 ^ 32)
      omega
  · intro hp
    simp [Content.appendPending] at hp

/-- **`Append(d)`** on an open, writable tree succeeds with the size and the root of the new
tree, and stores one more leaf; the `syncThld`-th pending append also syncs. -/
theorem append_run {hs : Hasher D} {t : AHtree D} {c : Content} (h : Stores hs t c)
    (hopen : t.closed = false) (hw : t.opts.readOnly = false) (d : List UInt8) :
    ∃ t', (append hs d).run t = .ok (c.cur.length + 1, mth (treeScheme hs) (c.cur ++ [d])) t' ∧
      Stores hs t' (if c.pending + 1 = t.opts.syncThld then (c.appendPending d).flush
        else c.appendPending d) ∧ t'.opts = t.opts ∧ t'.closed = false := by
  have hdl : t.dLogSize ≤ t.dLog.length := h.dLogSize_eq ▸ h.digests.log.length_le
  have hsz : t.size = c.cur.length := h.size
  have hpoff : (t.pLog.take t.pLogSize).length = t.pLogSize := by
    simp [h.pLogSize_le]
  obtain ⟨cache, hloop, hdig⟩ := appendLoop_start hs c.cur d
    { t with
      pLog := t.pLog.take t.pLogSize ++ (Bytes.be 4 d.length ++ d)
      pStale := (t.pLog.drop t.pLogSize ++ t.pStale).drop (Bytes.be 4 d.length ++ d).length
      closed := false } h.digests
  dsimp only at hloop hdig
  -- the state `Append` leaves before its sync and after it, if there is one
  let tb : AHtree D := { t with
    pLog := t.pLog.take t.pLogSize ++ (Bytes.be 4 d.length ++ d)
    pStale := (t.pLog.drop t.pLogSize ++ t.pStale).drop (Bytes.be 4 d.length ++ d).length
    dLog := t.dLog.take t.dLogSize ++ appendDigests (treeScheme hs) (c.cur ++ [d]) (c.cur.length + 1)
    dStale := (t.dLog.drop t.dLogSize ++ t.dStale).drop
      (appendDigests (treeScheme hs) (c.cur ++ [d]) (c.cur.length + 1)).length
    pLogSize := t.pLogSize + szSize + d.length
    dLogSize := t.dLogSize +
      (appendDigests (treeScheme hs) (c.cur ++ [d]) (c.cur.length + 1)).length
    cLogSize := t.cLogSize + 1
    cLogBuf := t.cLogBuf ++ [⟨t.pLogSize, d.length % 2 ^ 32⟩]
    dCache := putDigests cache t.dLogSize
      (appendDigests (treeScheme hs) (c.cur ++ [d]) (c.cur.length + 1))
    closed := false }
  have hb : Stores hs tb (c.appendPending d) := h.append hdig d false
  simp only [append, hopen, hw, EStateM.run_bind, EStateM.run_get, setOffsetIn_of_le h.pLogSize_le,
    liftLog, Bool.false_eq_true, if_false, EStateM.run_pure, EStateM.run_set, Nat.add_sub_cancel,
    hsz, appendAt, hloop, setOffsetIn_of_le hdl, hpoff]
  by_cases hsync : t.cLogBuf.length + 1 = t.opts.syncThld
  · have hsync' : c.pending + 1 = t.opts.syncThld := by rw [← h.pending]; exact hsync
    refine ⟨tb.synced, ?_, by rw [if_pos hsync']; exact hb.sync, by simp [tb], by simp [tb]⟩
    rw [if_pos hsync, EStateM.run_bind, tryCatch_sync_run (by exact h.synced_le)]
    -- the sizes are bumped after the sync, which does not read them
    simp only [EStateM.run_bind, EStateM.run_modify, EStateM.run_pure, AHtree.synced,
      List.length_append, List.length_singleton, Nat.add_one_ne_zero, if_false]
    rw [if_neg (by simp [tb])]
    simp only [tb, List.length_append, List.length_singleton]
  · have hsync' : ¬ c.pending + 1 = t.opts.syncThld := by rw [← h.pending]; exact hsync
    refine ⟨tb, ?_, by rw [if_neg hsync']; exact hb, rfl, rfl⟩
    rw [if_neg hsync]
    rfl

/-- With nothing pending, the records of the current leaves are the head of the commit log. -/
theorem Stores.records_eq {hs : Hasher D} {t : AHtree D} {c : Content} (h : Stores hs t c)
    (hp : c.pending = 0) : t.records = t.cLog.take c.cur.length := by
  have hb : t.cLogBuf = [] := List.eq_nil_of_length_eq_zero (h.pending.trans hp)
  have hs : t.latestSyncedNode = c.cur.length := by have := h.synced; omega
  rw [AHtree.records, hb, hs, List.append_nil]

/-- **What `ResetSize(n)` leaves stores the first `n` leaves**, given where the payload of the
last of them ends. -/
theorem Stores.truncate {hs : Hasher D} {t : AHtree D} {c : Content} (h : Stores hs t c)
    (hp : c.pending = 0) {n : Nat} (hn : n ≤ c.cur.length) {P N : Nat} (hN : N = nodesUpto n)
    (hP : P ≤ t.pLog.length) (hrec : ∀ e ∈ t.cLog.take n, e.pEnd ≤ P) :
    Stores hs
      { t with
        pLogSize := P
        dLogSize := N
        cLogSize := n
        latestSyncedNode := n
        dCache := popDigests t.dCache N t.dLogSize }
      { c with cur := c.cur.take n } := by
  have hb : t.cLogBuf = [] := List.eq_nil_of_length_eq_zero (h.pending.trans hp)
  have hlen : (c.cur.take n).length = n := by rw [List.length_take]; omega
  have hsorted : (t.cLog.take n).Pairwise (fun a b => a.pEnd ≤ b.pEnd) := by
    have hsub : List.Sublist (t.cLog.take n) t.records := by
      have htt : t.cLog.take n = (t.cLog.take c.cur.length).take n := by
        rw [List.take_take, Nat.min_eq_left hn]
      rw [h.records_eq hp, htt]
      exact List.take_sublist _ _
    exact h.sorted.sublist hsub
  refine ⟨hlen.symm, by rw [hlen, hN], ?_, h.pending, ?_, ?_, hP, ?_, ?_,
    fun hp' => (h.durable hp').of_logs rfl rfl rfl, h.cLog_dur, h.cStale, h.file_records,
    h.file_digests⟩
  · -- the digests of the first `n` leaves are the first `nodesUpto n` of the log
    rw [← layout_take, h.dLogSize_eq, hN]
    exact h.digests.truncate _
  · show n + c.pending = (c.cur.take n).length
    rw [hp, hlen, Nat.add_zero]
  · show n ≤ t.cLog.length
    have := h.synced; have := h.synced_le; omega
  · show (t.cLog.take n ++ t.cLogBuf).Pairwise _
    rwa [hb, List.append_nil]
  · show ∀ e ∈ t.cLog.take n ++ t.cLogBuf, e.pEnd ≤ P
    rwa [hb, List.append_nil]

/-- **`ResetSize(n)`** below the size of an open, writable tree syncs, then keeps the first `n`
leaves; the payload log and the digest log are long enough, so neither check fails. -/
theorem resetSize_run {hs : Hasher D} {t : AHtree D} {c : Content} (h : Stores hs t c)
    (hopen : t.closed = false) (hw : t.opts.readOnly = false) {n : Nat} (hn : n < c.cur.length) :
    ∃ t', (resetSize n : AhtM D Unit).run t = .ok () t' ∧
      Stores hs t' { c.flush with cur := c.cur.take n, pending := 0 } ∧
      t'.opts = t.opts ∧ t'.closed = false := by
  have hsz : t.size = c.cur.length := h.size
  have h1 : Stores hs t.synced c.flush := h.sync
  have hp1 : c.flush.pending = 0 := Content.flush_pending c
  have habs : ({ c.flush with cur := c.cur.take n, pending := 0 } : Content) =
      { c.flush with cur := c.flush.cur.take n } := by
    rw [Content.flush_cur]
    exact congrArg (fun p => ({ c.flush with cur := c.cur.take n, pending := p } : Content)) hp1.symm
  rw [habs]
  have hn1 : n ≤ c.flush.cur.length := by rw [Content.flush_cur]; omega
  simp only [resetSize, hopen, hw, EStateM.run_bind, EStateM.run_get, Bool.false_eq_true, if_false,
    hsz, if_neg (Nat.not_lt_of_lt hn), if_neg (Nat.ne_of_gt hn), sync_run h.synced_le]
  by_cases hn0 : n = 0
  · subst hn0
    rw [if_neg (Nat.lt_irrefl 0)]
    refine ⟨_, rfl, h1.truncate hp1 hn1 nodesUpto_zero.symm (Nat.zero_le _) (by simp), by simp,
      by simp [hopen]⟩
  · rw [if_pos (Nat.pos_of_ne_zero hn0)]
    -- the record of leaf `n` is where the payload log will end
    have hrecs := h1.records_eq hp1
    have hlt : n - 1 < (t.synced.cLog.take c.flush.cur.length).length := by
      rw [List.length_take, Content.flush_cur]
      have := h1.synced_le; have := h1.synced; omega
    set e := (t.synced.cLog.take c.flush.cur.length)[n - 1] with he
    have hget : t.synced.cLog[n - 1]? = some e := by
      rw [he, ← List.getElem?_take_of_lt (by omega : n - 1 < c.flush.cur.length)]
      exact List.getElem?_eq_getElem hlt
    have hmem : e ∈ t.synced.records := by rw [hrecs]; exact List.getElem_mem hlt
    have hP : e.pEnd ≤ t.synced.pLog.length := Nat.le_trans (h1.records_le e hmem) h1.pLogSize_le
    have hD : nodesUpto n ≤ t.synced.dLog.length := by
      have := h1.digests.log.length_le
      rw [length_layout, Content.flush_cur] at this
      exact Nat.le_trans (nodesUpto_mono (by omega)) this
    simp only [readAt_of_getElem? hget, liftLog, EStateM.run_bind, EStateM.run_pure,
      if_neg (Nat.not_lt_of_le hP), if_neg (Nat.not_lt_of_le hD)]
    refine ⟨_, rfl, h1.truncate hp1 hn1 rfl hP ?_, by simp, by simp [hopen]⟩
    -- the records before it end no later: they are sorted, and it is the last of them
    have hL : t.synced.cLog.take n = (t.synced.cLog.take c.flush.cur.length).take n := by
      rw [List.take_take, Nat.min_eq_left hn1]
    have hsorted : (t.synced.cLog.take n).Pairwise (fun a b => a.pEnd ≤ b.pEnd) := by
      have := h1.sorted
      rw [hrecs] at this
      rw [hL]
      exact this.sublist (List.take_sublist _ _)
    have hne : t.synced.cLog.take n ≠ [] := by
      rw [hL]; apply List.ne_nil_of_length_pos
      rw [List.length_take]; omega
    have hlast : (t.synced.cLog.take n).getLast hne = e := by
      simp only [List.getLast_eq_getElem, hL, List.getElem_take, List.length_take, he]
      have := h1.synced_le; have := h1.synced
      congr 1
      omega
    rw [← hlast]
    exact pEnd_le_getLast hsorted hne

/-- **`rootAt(k)`** of an open tree, for `1 ≤ k ≤ size`, is the Merkle tree hash of the first
`k` leaves: the last digest append `k` wrote. -/
theorem rootAt_run {hs : Hasher D} {t : AHtree D} {c : Content} (h : Stores hs t c)
    (hopen : t.closed = false) {k : Nat} (hk1 : 1 ≤ k) (hk : k ≤ c.cur.length) :
    ∃ cache, (rootAt k).run t = .ok (mth (treeScheme hs) (c.cur.take k)) { t with dCache := cache } ∧
      Stores hs { t with dCache := cache } c := by
  have hidx : (layout (treeScheme hs) c.cur)[nodesUntil k + levelsAt k]? =
      some (mth (treeScheme hs) (c.cur.take k)) := by
    rw [levelsAt_eq]
    exact getElem?_layout_root _ hk1 hk
  obtain ⟨cache, hrun, hd⟩ := nodeAt_run h.digests hidx
  refine ⟨cache, ?_, h.withCache hd⟩
  have hsz : t.size = c.cur.length := h.size
  have hc0 : ¬ t.cLogSize = 0 := by rw [h.size]; omega
  simp only [rootAt, hopen, EStateM.run_bind, EStateM.run_get, Bool.false_eq_true, if_false,
    if_neg (show ¬ k = 0 by omega), hc0, hsz, if_neg (Nat.not_lt_of_le hk)]
  rw [hopen] at hrun
  exact hrun

/-- **`Sync()`** of an open, writable tree makes the pending appends durable. -/
theorem Sync_run {hs : Hasher D} {t : AHtree D} {c : Content} (h : Stores hs t c)
    (hopen : t.closed = false) (hw : t.opts.readOnly = false) :
    (Sync : AhtM D Unit).run t = .ok () t.synced ∧ Stores hs t.synced c.flush := by
  refine ⟨?_, h.sync⟩
  simp only [Sync, hopen, hw, EStateM.run_bind, EStateM.run_get, Bool.false_eq_true, if_false]
  exact sync_run h.synced_le

/-- **`Close()`** of an open tree closes it and syncs. -/
theorem close_run {hs : Hasher D} {t : AHtree D} {c : Content} (h : Stores hs t c)
    (hopen : t.closed = false) :
    (close : AhtM D Unit).run t = .ok () { t with closed := true }.synced ∧
      Stores hs { t with closed := true }.synced c.flush := by
  refine ⟨?_, (h.withClosed true).sync⟩
  simp only [close, hopen, EStateM.run_bind, EStateM.run_get, Bool.false_eq_true, if_false,
    EStateM.run_set]
  exact sync_run h.synced_le

/-- `OpenWith` over a non-empty commit log whose last record points into the payload log, and a
digest log that holds the digests of all its leaves: one leaf per record. -/
theorem openWith_of_ne_nil {pLog : List UInt8} {dLog : List D} {cLog : List CLogEntry}
    (opts : Options) (hne : cLog ≠ []) (hP : (cLog.getLast hne).pEnd ≤ pLog.length)
    (hD : nodesUpto cLog.length ≤ dLog.length) :
    openWith pLog dLog cLog opts = .ok
      { pLog, dLog, cLog, pStale := [], dStale := [], cStale := [],
        pLogSize := (cLog.getLast hne).pEnd, dLogSize := nodesUpto cLog.length,
        cLogSize := cLog.length, latestSyncedNode := cLog.length, cLogBuf := [],
        dCache := fun _ => none, opts, closed := false } := by
  have h0 : ¬ cLog.length = 0 := fun h => hne (List.eq_nil_of_length_eq_zero h)
  have hlast : cLog[cLog.length - 1]? = some (cLog.getLast hne) := by
    rw [List.getLast_eq_getElem]
    exact List.getElem?_eq_getElem (by omega)
  have hread : (readAt cLog (cLog.length - 1)).mapError AhtError.log = pure (cLog.getLast hne) := by
    rw [readAt_of_getElem? hlast]
    rfl
  simp only [openWith, h0, if_false, hread, pure_bind, if_neg (Nat.not_lt_of_le hP),
    if_neg (Nat.not_lt_of_le hD)]
  rfl

/-- **`OpenWith`** over the logs of a durable content succeeds and stores that content. -/
theorem openWith_ok {hs : Hasher D} {t : AHtree D} {dur : List (List UInt8)}
    (hd : Durable hs t dur) (opts : Options) :
    ∃ t', openWith t.pLog t.dLog t.cLog opts = .ok t' ∧ Stores hs t' ⟨dur, dur, 0, false, 0⟩ ∧
      t'.opts = opts ∧ t'.closed = false := by
  -- what the files hold: the logs themselves
  have hrecF : ∀ e ∈ t.cLog ++ [], e.pEnd ≤ (t.pLog ++ []).length := fun e he => by
    simpa using hd.payloads e (by simpa using he)
  have hD : nodesUpto t.cLog.length ≤ t.dLog.length := by
    have := hd.digests.length_le
    rwa [length_layout, ← hd.length_cLog] at this
  have hdigF : nodesUpto (t.cLog ++ []).length ≤ (t.dLog ++ []).length := by simpa using hD
  by_cases h0 : t.cLog.length = 0
  · -- empty logs: an empty tree
    have hdur : dur = [] := List.eq_nil_of_length_eq_zero (hd.length_cLog ▸ h0)
    subst hdur
    simp only [openWith, h0, if_true]
    refine ⟨_, rfl, ⟨rfl, nodesUpto_zero.symm, Digests.empty (by simp), rfl, rfl, Nat.zero_le _,
      Nat.zero_le _, by simp [AHtree.records], by simp [AHtree.records],
      fun _ => hd.of_logs rfl rfl rfl, hd.length_cLog, rfl, hrecF, hdigF⟩, rfl, rfl⟩
  · -- the last record says where the payloads end; the digest log holds the durable layout
    have hne : t.cLog ≠ [] := List.ne_nil_of_length_pos (by omega)
    have hP : (t.cLog.getLast hne).pEnd ≤ t.pLog.length :=
      hd.payloads _ (List.getLast_mem hne)
    rw [openWith_of_ne_nil opts hne hP hD]
    have hrecs : (t.cLog.take t.cLog.length ++ []) = t.cLog := by simp
    refine ⟨_, rfl, ⟨hd.length_cLog, by rw [hd.length_cLog], Digests.empty hd.digests, rfl,
      by rw [hd.length_cLog]; rfl, Nat.le_refl _, hP, ?_, ?_, fun _ => hd.of_logs rfl rfl rfl,
      hd.length_cLog, rfl, hrecF, hdigF⟩, rfl, rfl⟩
    · show (t.cLog.take t.cLog.length ++ []).Pairwise _
      rw [hrecs]; exact hd.sorted
    · show ∀ e ∈ t.cLog.take t.cLog.length ++ [], e.pEnd ≤ (t.cLog.getLast hne).pEnd
      rw [hrecs]; exact pEnd_le_getLast hd.sorted hne

/-! ## 5. Runs -/

@[simp] theorem Content.flush_closed (c : Content) : c.flush.closed = c.closed := by
  unfold Content.flush; split <;> rfl

/-- A state of an open tree that stores an open content refines it. -/
theorem Refines.of_open {hs : Hasher D} {opts : Options} {t : AHtree D} {c : Content}
    (h : Stores hs t c) (ho : t.opts = opts) (ht : t.closed = false) (hc : c.closed = false) :
    Refines hs opts t c :=
  ⟨h, ho, ht.trans hc.symm, fun h' => absurd (hc ▸ h') (by simp)⟩

/-- **One call keeps the relation.** One case per call; a call refused at its guard changes
neither side. -/
theorem step_refines {hs : Hasher D} {opts : Options} {t : AHtree D} {c : Content}
    (h : Refines hs opts t c) (op : Op) (hclean : op = .reopen → c.closed = true → c.stale = 0) :
    Refines hs opts (step hs t op) (c.step opts op) := by
  have hopts := h.opts
  cases op with
  | append d =>
    by_cases hg : c.closed = true ∨ opts.readOnly = true
    · have hst : step hs t (.append d) = t := by
        rcases hg with hc | hr
        · simp [step, after, append, h.closed, hc]
        · by_cases hc : c.closed = true
          · simp [step, after, append, h.closed, hc]
          · simp [step, after, append, h.closed, hc, hopts, hr]
      rw [hst, Content.step, if_pos hg]
      exact h
    · simp only [not_or, Bool.not_eq_true] at hg
      obtain ⟨t', hrun, hs', ho, hcl⟩ := append_run h.stores (h.closed.trans hg.1)
        (hopts ▸ hg.2) d
      have hg' : ¬ (c.closed = true ∨ opts.readOnly = true) := by simp [hg.1, hg.2]
      simp only [step, hrun, after, Content.step, if_neg hg']
      rw [hopts] at hs'
      refine Refines.of_open hs' (ho.trans hopts) hcl ?_
      split <;> simp [Content.appendPending, hg.1]
  | sync =>
    by_cases hg : c.closed = true ∨ opts.readOnly = true
    · have hst : step hs t .sync = t := by
        rcases hg with hc | hr
        · simp [step, after, Sync, h.closed, hc]
        · by_cases hc : c.closed = true
          · simp [step, after, Sync, h.closed, hc]
          · simp [step, after, Sync, h.closed, hc, hopts, hr]
      rw [hst, Content.step, if_pos hg]
      exact h
    · simp only [not_or, Bool.not_eq_true] at hg
      obtain ⟨hrun, hs'⟩ := Sync_run h.stores (h.closed.trans hg.1) (hopts ▸ hg.2)
      have hg' : ¬ (c.closed = true ∨ opts.readOnly = true) := by simp [hg.1, hg.2]
      simp only [step, hrun, after, Content.step, if_neg hg']
      exact Refines.of_open hs' (by simp [hopts]) (by simp [h.closed, hg.1]) (by simp [hg.1])
  | resetSize n =>
    by_cases hg : c.closed = true ∨ opts.readOnly = true ∨ c.cur.length ≤ n
    · have hst : step hs t (.resetSize n) = t := by
        have hsz : t.size = c.cur.length := h.stores.size
        rcases hg with hc | hr | hn
        · simp [step, after, resetSize, h.closed, hc]
        · by_cases hc : c.closed = true
          · simp [step, after, resetSize, h.closed, hc]
          · simp [step, after, resetSize, h.closed, hc, hopts, hr]
        · by_cases hc : c.closed = true
          · simp [step, after, resetSize, h.closed, hc]
          · by_cases hr : opts.readOnly = true
            · simp [step, after, resetSize, h.closed, hc, hopts, hr]
            · rcases Nat.lt_or_eq_of_le hn with hlt | heq
              · simp [step, after, resetSize, h.closed, hc, hopts, hr, hsz, hlt]
              · simp [step, after, resetSize, h.closed, hc, hopts, hr, hsz, heq]
      rw [hst, Content.step, if_pos hg]
      exact h
    · simp only [not_or, Bool.not_eq_true, Nat.not_le] at hg
      obtain ⟨t', hrun, hs', ho, hcl⟩ := resetSize_run h.stores (h.closed.trans hg.1)
        (hopts ▸ hg.2.1) hg.2.2
      have hg' : ¬ (c.closed = true ∨ opts.readOnly = true ∨ c.cur.length ≤ n) := by
        simp [hg.1, hg.2.1, hg.2.2]
      simp only [step, hrun, after, Content.step, if_neg hg']
      exact Refines.of_open hs' (ho.trans hopts) hcl (by simp [hg.1])
  | rootAt k =>
    simp only [Content.step]
    by_cases hg : c.closed = false ∧ 1 ≤ k ∧ k ≤ c.cur.length
    · obtain ⟨cache, hrun, hs'⟩ := rootAt_run h.stores (h.closed.trans hg.1) hg.2.1 hg.2.2
      simp only [step, hrun, after]
      exact ⟨hs', hopts, h.closed, h.closed_pending⟩
    · -- a refused read leaves the tree as it was
      have hst : step hs t (.rootAt k) = t := by
        have hsz : t.size = c.cur.length := h.stores.size
        have hc0 : t.cLogSize = c.cur.length := h.stores.size
        by_cases hc : c.closed = true
        · simp [step, after, rootAt, h.closed, hc]
        · by_cases hk : k = 0
          · simp [step, after, rootAt, h.closed, hc, hk]
          · have hlt : c.cur.length < k := by
              by_contra hle
              exact hg ⟨by simpa using hc, by omega, by omega⟩
            by_cases hz : c.cur.length = 0
            · simp [step, after, rootAt, h.closed, hc, hk, hc0, hz]
            · simp [step, after, rootAt, h.closed, hc, hk, hc0, hz, hsz, hlt]
      rw [hst]
      exact h
  | close =>
    by_cases hc : c.closed = true
    · have hst : step hs t .close = t := by simp [step, after, close, h.closed, hc]
      rw [hst, Content.step, if_pos hc]
      exact h
    · simp only [Bool.not_eq_true] at hc
      obtain ⟨hrun, hs'⟩ := close_run h.stores (h.closed.trans hc)
      simp only [step, hrun, after, Content.step, hc, Bool.false_eq_true, if_false]
      exact ⟨hs'.withContentClosed true, by simp [hopts], by simp, fun _ => Content.flush_pending c⟩
  | reopen =>
    by_cases hc : c.closed = true
    · -- a closed tree has nothing pending, and with no stale record the commit log's file is
      -- that of the durable leaves
      have hstale : c.stale = 0 := hclean rfl hc
      have hcs : t.cStale = [] := List.eq_nil_of_length_eq_zero (h.stores.cStale.trans hstale)
      obtain ⟨t', hopen, hs', ho, hcl⟩ :=
        openWith_ok ((h.stores.durable (h.closed_pending hc)).extend t.pStale t.dStale) t.opts
      simp only [step, h.closed, hc, if_true, hcs, List.append_nil, hopen, Content.step]
      have hc' : ({ c with cur := c.dur, pending := 0, closed := false } : Content) =
          ⟨c.dur, c.dur, 0, false, 0⟩ := by
        simp [← hstale]
      rw [hc']
      exact Refines.of_open hs' (ho.trans hopts) hcl rfl
    · simp only [Bool.not_eq_true] at hc
      simp only [step, h.closed, hc, Bool.false_eq_true, if_false, Content.step]
      exact h
  | evict i =>
    exact ⟨h.stores.withCache (h.stores.digests.evict i), hopts, h.closed, h.closed_pending⟩

/-- A new tree over empty logs refines the empty content. -/
theorem empty_refines (hs : Hasher D) (opts : Options) :
    Refines hs opts (empty opts) Content.init := by
  have hd : Durable hs (empty opts : AHtree D) [] :=
    ⟨rfl, by simp [empty], List.Pairwise.nil, by simp [empty]⟩
  refine ⟨⟨rfl, nodesUpto_zero.symm, Digests.empty (by simp [empty, Content.init]), rfl, rfl,
    Nat.le_refl _, Nat.le_refl _, by simp [AHtree.records, empty], by simp [AHtree.records, empty],
    fun _ => hd, rfl, rfl, by simp [empty], by simp [empty, nodesUpto_zero]⟩, rfl, rfl,
    fun h => by cases h⟩

theorem run_append_singleton (hs : Hasher D) (t : AHtree D) (ops : List Op) (op : Op) :
    run hs t (ops ++ [op]) = step hs (run hs t ops) op := by
  simp [run, List.foldl_append]

/-- **Every run whose reopens find no stale record keeps the relation**: the tree a sequence of
calls leaves refines the content the abstract machine reaches on the same calls. -/
theorem run_refines (hs : Hasher D) (opts : Options) (ops : List Op)
    (hclean : Content.ReopensClean opts ops) :
    Refines hs opts (run hs (empty opts) ops) (Content.run opts ops) := by
  -- induction on the run from its end, so that the last call meets the prefix's state
  induction ops using List.reverseRecOn with
  | nil => exact empty_refines hs opts
  | append_singleton ops op ih =>
    rw [run_append_singleton, Content.run_append_singleton]
    exact step_refines (ih hclean.of_append) op hclean.last

/-- **The AHtree computes the RFC 6962 Merkle tree hash.** After any sequence of calls from a new
tree whose reopens find no stale record, its size is the number of leaves the abstract machine holds; while it is open, `RootAt(k)`
for every `1 ≤ k ≤ size` returns the Merkle tree hash of the first `k` leaves, and, when it is
writable, `Append(d)` returns the new size and the hash of all the leaves followed by `d`. -/
theorem run_roots_eq_mth (hs : Hasher D) (opts : Options) (ops : List Op)
    (hclean : Content.ReopensClean opts ops) :
    (run hs (empty opts) ops).size = (Content.run opts ops).cur.length ∧
    ((Content.run opts ops).closed = false → ∀ k, 1 ≤ k → k ≤ (Content.run opts ops).cur.length →
      ∃ t', (rootAt k).run (run hs (empty opts) ops) =
        .ok (mth (treeScheme hs) ((Content.run opts ops).cur.take k)) t') ∧
    ((Content.run opts ops).closed = false → opts.readOnly = false → ∀ d,
      ∃ t', (append hs d).run (run hs (empty opts) ops) =
        .ok ((Content.run opts ops).cur.length + 1,
          mth (treeScheme hs) ((Content.run opts ops).cur ++ [d])) t') := by
  have h := run_refines hs opts ops hclean
  refine ⟨h.stores.size, fun hc k hk1 hk => ?_, fun hc hw d => ?_⟩
  · obtain ⟨cache, hrun, -⟩ := rootAt_run h.stores (h.closed.trans hc) hk1 hk
    exact ⟨_, hrun⟩
  · have hw' : (run hs (empty opts) ops).opts.readOnly = false := by rw [h.opts]; exact hw
    obtain ⟨t', hrun, -⟩ := append_run h.stores (h.closed.trans hc) hw' d
    exact ⟨t', hrun⟩

/-- Three appends with a sync every second one, a truncation to two leaves, one more append,
a close and a reopen: the reopened tree has the leaves `[1], [2], [4]`, and its roots and its
next append are their Merkle tree hashes. -/
theorem run_roots_eq_mth_after_reopen :
    (∃ t', (rootAt 3).run (run escape (empty ⟨2, false, fun _ => by decide⟩)
        [.append [1], .append [2], .append [3], .resetSize 2, .append [4], .close, .reopen]) =
      .ok (mth (treeScheme escape) [[1], [2], [4]]) t') ∧
    (∃ t', (append escape [5]).run (run escape (empty ⟨2, false, fun _ => by decide⟩)
        [.append [1], .append [2], .append [3], .resetSize 2, .append [4], .close, .reopen]) =
      .ok (4, mth (treeScheme escape) [[1], [2], [4], [5]]) t') := by
  have h := run_roots_eq_mth escape ⟨2, false, fun _ => by decide⟩
    [.append [1], .append [2], .append [3], .resetSize 2, .append [4], .close, .reopen]
    (by decide)
  have hcur : (Content.run ⟨2, false, fun _ => by decide⟩
      [.append [1], .append [2], .append [3], .resetSize 2, .append [4], .close, .reopen]).cur =
      [[1], [2], [4]] := by decide
  refine ⟨?_, ?_⟩
  · have := h.2.1 (by decide) 3 (by decide) (by decide)
    rwa [hcur] at this
  · have := h.2.2 (by decide) rfl [5]
    rwa [hcur] at this

/-- **Closing and reopening loses nothing the caller saw.** After a run whose reopens find no
stale record, a close and a reopen of the open tree leave a tree whose root at each size the
caller saw is the one it saw. -/
theorem close_reopen_keeps_roots (hs : Hasher D) (opts : Options) (ops : List Op)
    (hclean : Content.ReopensClean opts (ops ++ [.close, .reopen]))
    (hopen : (Content.run opts ops).closed = false) {k : Nat} (hk1 : 1 ≤ k)
    (hk : k ≤ (Content.run opts ops).cur.length) :
    ∃ t', (rootAt k).run (run hs (empty opts) (ops ++ [.close, .reopen])) =
      .ok (mth (treeScheme hs) ((Content.run opts ops).cur.take k)) t' := by
  have h := run_refines hs opts _ hclean
  have hrun : Content.run opts (ops ++ [.close, .reopen]) =
      ((Content.run opts ops).step opts .close).step opts .reopen := by
    simp only [Content.run, List.foldl_append, List.foldl_cons, List.foldl_nil]
  -- the machine's reopen holds the leaves the caller saw, and maybe more
  have hpre : (Content.run opts ops).cur <+: (Content.run opts (ops ++ [.close, .reopen])).cur := by
    rw [hrun]
    exact Content.cur_prefix_reopen opts (Content.run_wf opts ops) hopen
  have hclosed : (Content.run opts (ops ++ [.close, .reopen])).closed = false := by
    rw [hrun, Content.step_close_reopen opts hopen]
  obtain ⟨cache, hroot, -⟩ :=
    rootAt_run h.stores (h.closed.trans hclosed) hk1 (hk.trans hpre.length_le)
  have htake : (Content.run opts (ops ++ [.close, .reopen])).cur.take k =
      (Content.run opts ops).cur.take k := by
    rw [List.prefix_iff_eq_take.mp hpre, List.take_take, Nat.min_eq_left hk]
  rw [htake] at hroot
  exact ⟨_, hroot⟩

/-- Two appends under a sync threshold of three, a close and a reopen: the appends, pending at
the close, are synced by it and found by the reopen. -/
theorem close_reopen_keeps_roots_two :
    ∃ t', (rootAt 2).run (run escape (empty ⟨3, false, fun _ => by decide⟩)
        ([.append [1], .append [2]] ++ [.close, .reopen])) =
      .ok (mth (treeScheme escape) [[1], [2]]) t' := by
  have h := close_reopen_keeps_roots escape ⟨3, false, fun _ => by decide⟩
    [.append [1], .append [2]] (by decide) (by decide) (k := 2) (by decide) (by decide)
  have hcur : (Content.run ⟨3, false, fun _ => by decide⟩ [.append [1], .append [2]]).cur.take 2 =
      [[1], [2]] := by decide
  rwa [hcur] at h

/-- **A truncation is not durable by itself.** After a run whose reopens find no stale record,
with the tree open and no append pending, `ResetSize(n)`, a close and a reopen leave a tree of as
many leaves as the commit log held before the truncation. -/
theorem resetSize_close_reopen_size (hs : Hasher D) (opts : Options) (ops : List Op) (n : Nat)
    (hclean : Content.ReopensClean opts (ops ++ [.resetSize n, .close, .reopen]))
    (hopen : (Content.run opts ops).closed = false) (hp : (Content.run opts ops).pending = 0) :
    (run hs (empty opts) (ops ++ [.resetSize n, .close, .reopen])).size =
      (Content.run opts ops).dur.length := by
  have h := run_refines hs opts _ hclean
  have hrun : Content.run opts (ops ++ [.resetSize n, .close, .reopen]) =
      (((Content.run opts ops).step opts (.resetSize n)).step opts .close).step opts .reopen := by
    simp only [Content.run, List.foldl_append, List.foldl_cons, List.foldl_nil]
  have hsz : (run hs (empty opts) (ops ++ [.resetSize n, .close, .reopen])).size =
      (Content.run opts (ops ++ [.resetSize n, .close, .reopen])).cur.length := h.stores.size
  rw [hsz, hrun, Content.reopen_after_resetSize opts hopen hp n]

/-- Two synced appends, then `ResetSize(1)`, a close and a reopen: the tree has two leaves
again. -/
theorem resetSize_close_reopen_two :
    (run escape (empty ⟨1, false, fun _ => by decide⟩)
        ([.append [1], .append [2]] ++ [.resetSize 1, .close, .reopen])).size = 2 :=
  resetSize_close_reopen_size escape ⟨1, false, fun _ => by decide⟩ [.append [1], .append [2]] 1
    (by decide) (by decide) (by decide)

/-! ## 6. A reopen after a truncation

`ResetSize(n)` leaves the commit log's file as it is, and the next sync writes the buffered
records from record `n` on: the records past them stay in the file. `OpenWith` takes the size
from `cLog.Size()` of the file just opened, so a reopen after fewer synced appends than the
truncation cut reads those records as leaves again, with the digests of the leaves they were. -/

/-- **A reopen brings truncated leaves back.** After a run whose earlier reopens were clean, a
closed tree whose commit log's file holds stale records past the durable leaves opens, and holds
as many leaves more than the abstract machine's reopen finds. -/
theorem reopen_resurrects_truncated_leaves (hs : Hasher D) (opts : Options) (ops : List Op)
    (hclean : Content.ReopensClean opts ops) (hc : (Content.run opts ops).closed = true)
    (hstale : 0 < (Content.run opts ops).stale) :
    (step hs (run hs (empty opts) ops) .reopen).closed = false ∧
      (step hs (run hs (empty opts) ops) .reopen).size =
        ((Content.run opts ops).step opts .reopen).cur.length + (Content.run opts ops).stale := by
  have h := run_refines hs opts ops hclean
  have htc : (run hs (empty opts) ops).closed = true := h.closed.trans hc
  -- the commit log's file holds the durable records and the stale ones after them
  have hne : (run hs (empty opts) ops).cLog ++ (run hs (empty opts) ops).cStale ≠ [] := by
    intro h0
    have hlen := congrArg List.length h0
    rw [List.length_append, h.stores.cStale, List.length_nil] at hlen
    omega
  have hopen := openWith_of_ne_nil (run hs (empty opts) ops).opts hne
    (h.stores.file_records _ (List.getLast_mem hne)) h.stores.file_digests
  have hcur : ((Content.run opts ops).step opts .reopen).cur = (Content.run opts ops).dur := by
    simp [Content.step, hc]
  rw [hcur]
  simp only [step, htc, if_true, hopen, true_and]
  rw [AHtree.size, List.length_append, h.stores.cLog_dur, h.stores.cStale]

/-- Five appends, each synced, a truncation to two leaves, one more append and a close: the
reopened tree has five leaves, where the abstract machine's reopen finds `[1], [2], [6]`. -/
theorem reopen_resurrects_truncated_leaves_five :
    (step escape (run escape (empty ⟨1, false, fun _ => by decide⟩)
        [.append [1], .append [2], .append [3], .append [4], .append [5], .resetSize 2,
          .append [6], .close]) .reopen).size = 5 ∧
    ((Content.run ⟨1, false, fun _ => by decide⟩
        [.append [1], .append [2], .append [3], .append [4], .append [5], .resetSize 2,
          .append [6], .close]).step ⟨1, false, fun _ => by decide⟩ .reopen).cur =
      [[1], [2], [6]] := by
  have h := reopen_resurrects_truncated_leaves escape ⟨1, false, fun _ => by decide⟩
    [.append [1], .append [2], .append [3], .append [4], .append [5], .resetSize 2, .append [6],
      .close] (by decide) (by decide) (by decide)
  refine ⟨?_, by decide⟩
  rw [h.2]
  decide

end Immudb.Ahtree
