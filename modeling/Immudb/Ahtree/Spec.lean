import Immudb.Ahtree.Tree
import Immudb.Lib.Machine

/-!
# `Immudb/Ahtree/Spec.lean` — what an AHtree holds

What `embedded/ahtree` is for, stated without its logs. An AHtree is a list of leaves that grows
by `Append` and shrinks by `ResetSize`, and its root at size `k` is the Merkle tree hash of the
first `k` leaves. What makes it more than a list is durability: appends reach the commit log in
batches of `syncThld`, or at `Sync` and at `Close`, and a tree opened again holds what the commit
log holds — not what the caller saw last.

`Content` is that machine: `cur` the leaves a caller sees, `dur` the leaves a reopen finds,
`pending` the appends not yet synced, and whether the tree is closed. `Content.step` answers
each call of `Op` the way the methods of `Immudb/Ahtree/Tree.lean` are meant to, with nothing
of how they do it; `Immudb/Ahtree/Refinement.lean` proves that they do.

Two facts of the machine are worth stating on their own (section 2). Nothing the caller saw
is lost by closing and reopening (`cur_prefix_reopen`). And `ResetSize` alone is not durable:
a truncation reaches the commit log only with the next synced append, so a close and a reopen
right after it bring the truncated leaves back (`reopen_after_resetSize`).

The machine also counts what it cannot describe: the commit records the log holds past the
durable leaves (`stale`). The write after a `ResetSize` goes back to the truncation point, but
the file keeps the records after what it writes, and a reopen reads the whole file. While `stale`
is zero a reopen finds the durable leaves and nothing else; a run whose every reopen comes with
`stale = 0` is `ReopensClean`, and only there does the tree refine the machine.
-/

set_option autoImplicit false

namespace Immudb.Ahtree

/-- The leaves an AHtree holds, and those its logs would give back on a reopen. -/
structure Content where
  cur : List (List UInt8)
  dur : List (List UInt8)
  pending : Nat
  closed : Bool
  /-- Commit records the log holds after those of `dur`, left there by a truncation. -/
  stale : Nat
  deriving DecidableEq, Repr

namespace Content

/-- A new tree over empty logs. -/
def init : Content := ⟨[], [], 0, false, 0⟩

/-- A sync: the pending appends become durable. With none pending nothing is written, so a
truncation since the last write stays out of the log. The records are written from the last
synced one on, over what the log held there: the log keeps whatever lies past them. -/
def flush (c : Content) : Content :=
  if c.pending = 0 then c
  else { c with dur := c.cur, pending := 0, stale := c.dur.length + c.stale - c.cur.length }

/-- An append that does not sync: one more leaf, pending. -/
def appendPending (c : Content) (d : List UInt8) : Content :=
  { c with cur := c.cur ++ [d], pending := c.pending + 1 }

/-- One call, as the abstract machine answers it; a call that fails changes nothing. -/
def step (opts : Options) (c : Content) : Op → Content
  | .append d =>
    if c.closed ∨ opts.readOnly then c
    -- the `syncThld`-th pending append syncs them all
    else if c.pending + 1 = opts.syncThld then (c.appendPending d).flush
    else c.appendPending d
  | .sync => if c.closed ∨ opts.readOnly then c else c.flush
  | .resetSize n =>
    if c.closed ∨ opts.readOnly ∨ c.cur.length ≤ n then c
    else { c.flush with cur := c.cur.take n, pending := 0 }
  | .rootAt _ => c
  | .close => if c.closed then c else { c.flush with closed := true }
  | .reopen => if c.closed then { c with cur := c.dur, pending := 0, closed := false } else c
  | .evict _ => c

/-- A sequence of calls from a new tree. -/
def run (opts : Options) (ops : List Op) : Content := ops.foldl (step opts) init

/-! ## 1. The shape of reachable contents -/

/-- A closed tree has nothing pending, and with nothing pending the log holds at least what the
caller sees. -/
structure Wf (c : Content) : Prop where
  closed_pending : c.closed = true → c.pending = 0
  prefix_dur : c.pending = 0 → c.cur <+: c.dur

theorem init_wf : init.Wf := ⟨fun _ => rfl, fun _ => List.prefix_refl _⟩

theorem flush_pending (c : Content) : c.flush.pending = 0 := by
  unfold flush; split <;> simp_all

theorem flush_cur (c : Content) : c.flush.cur = c.cur := by
  unfold flush; split <;> rfl

theorem Wf.prefix_flush {c : Content} (hc : c.Wf) : c.flush.cur <+: c.flush.dur := by
  unfold flush
  split
  · rename_i h0
    exact hc.prefix_dur h0
  · exact List.prefix_refl _

theorem step_wf (opts : Options) {c : Content} (hc : c.Wf) (op : Op) : (c.step opts op).Wf := by
  cases op with
  | append d =>
    simp only [step]
    split
    · exact hc
    · split
      · exact ⟨fun _ => flush_pending _, fun _ => by simp [flush, appendPending]⟩
      · -- one more append pending: nothing to show of the log
        exact ⟨fun h => by simp_all [appendPending], fun h => by simp [appendPending] at h⟩
  | sync =>
    simp only [step]
    split
    · exact hc
    · exact ⟨fun _ => flush_pending c, fun _ => hc.prefix_flush⟩
  | resetSize n =>
    simp only [step]
    split
    · exact hc
    · refine ⟨fun _ => rfl, fun _ => ?_⟩
      have hp := hc.prefix_flush
      rw [flush_cur] at hp
      exact (List.take_prefix n c.cur).trans hp
  | rootAt _ => exact hc
  | close =>
    simp only [step]
    split
    · exact hc
    · exact ⟨fun _ => flush_pending c, fun _ => hc.prefix_flush⟩
  | reopen =>
    simp only [step]
    split
    · exact ⟨fun _ => rfl, fun _ => List.prefix_refl _⟩
    · exact hc
  | evict _ => exact hc

theorem run_wf (opts : Options) (ops : List Op) : (run opts ops).Wf :=
  Machine.foldl_invariant Wf (step opts) (fun _ op hc => step_wf opts hc op) ops init_wf

/-- Appends to an open, writable tree add their leaves in order, whichever of them sync. -/
theorem foldl_append {opts : Options} (hw : opts.readOnly = false) :
    ∀ (ds : List (List UInt8)) (c : Content), c.closed = false →
      ((ds.map Op.append).foldl (step opts) c).cur = c.cur ++ ds ∧
        ((ds.map Op.append).foldl (step opts) c).closed = false
  | [], c, hc => ⟨by simp, hc⟩
  | d :: ds, c, hc => by
    have h1 : (c.step opts (.append d)).cur = c.cur ++ [d] ∧
        (c.step opts (.append d)).closed = false := by
      simp only [step, hc, hw, Bool.false_eq_true, or_self, if_false]
      split
      · exact ⟨flush_cur _, by simp [flush, appendPending, hc]⟩
      · exact ⟨rfl, hc⟩
    obtain ⟨hcur, hclosed⟩ := foldl_append hw ds _ h1.2
    rw [List.map_cons, List.foldl_cons, hcur, h1.1, List.append_assoc, List.singleton_append]
    exact ⟨rfl, hclosed⟩

/-- A new writable tree after appends holds their leaves. -/
theorem run_appends {opts : Options} (hw : opts.readOnly = false) (ds : List (List UInt8)) :
    (run opts (ds.map Op.append)).cur = ds ∧ (run opts (ds.map Op.append)).closed = false :=
  foldl_append hw ds init rfl

/-! ## 2. Durability -/

theorem flush_of_pending_zero {c : Content} (h : c.pending = 0) : c.flush = c := by
  simp [flush, h]

/-- A close and a reopen of an open tree: what the closing sync leaves durable is all there is. -/
theorem step_close_reopen (opts : Options) {c : Content} (hopen : c.closed = false) :
    (c.step opts .close).step opts .reopen = ⟨c.flush.dur, c.flush.dur, 0, false, c.flush.stale⟩ := by
  simp [step, hopen]

/-- **Closing and reopening loses nothing the caller saw.** -/
theorem cur_prefix_reopen (opts : Options) {c : Content} (hc : c.Wf) (hopen : c.closed = false) :
    c.cur <+: ((c.step opts .close).step opts .reopen).cur := by
  rw [step_close_reopen opts hopen]
  have hp := hc.prefix_flush
  rwa [flush_cur] at hp

/-- **A truncation is not durable by itself**: with nothing pending, a `ResetSize` followed by a
close and a reopen gives back the leaves the log held before it. -/
theorem reopen_after_resetSize (opts : Options) {c : Content} (hopen : c.closed = false)
    (hp : c.pending = 0) (n : Nat) :
    (((c.step opts (.resetSize n)).step opts .close).step opts .reopen).cur = c.dur := by
  -- whether the reset truncates or fails, it leaves nothing pending and the log as it was
  have hreset : (c.step opts (.resetSize n)).closed = false ∧
      (c.step opts (.resetSize n)).pending = 0 ∧ (c.step opts (.resetSize n)).dur = c.dur := by
    simp only [step]
    split
    · exact ⟨hopen, hp, rfl⟩
    · rw [flush_of_pending_zero hp]
      exact ⟨hopen, rfl, rfl⟩
  obtain ⟨hclosed, hpending, hdur⟩ := hreset
  rw [step_close_reopen opts hclosed, flush_of_pending_zero hpending, hdur]

/-! ## 3. Runs whose reopens find no stale records -/

theorem run_append_singleton (opts : Options) (ops : List Op) (op : Op) :
    run opts (ops ++ [op]) = (run opts ops).step opts op := by
  simp [run, List.foldl_append]

/-- Every reopen of a closed tree in the run finds the log holding the durable leaves only. -/
def ReopensClean (opts : Options) (ops : List Op) : Prop :=
  ∀ i (hi : i < ops.length), ops[i] = .reopen → (run opts (ops.take i)).closed = true →
    (run opts (ops.take i)).stale = 0

instance (opts : Options) (ops : List Op) : Decidable (ReopensClean opts ops) := by
  unfold ReopensClean
  infer_instance

/-- A run that never reopens is clean. -/
theorem ReopensClean.of_forall_ne {opts : Options} {ops : List Op}
    (h : ∀ op ∈ ops, op ≠ .reopen) : ReopensClean opts ops :=
  fun _ hi hre _ => absurd hre (h _ (List.getElem_mem hi))

theorem ReopensClean.of_append {opts : Options} {ops : List Op} {op : Op}
    (h : ReopensClean opts (ops ++ [op])) : ReopensClean opts ops := by
  intro i hi hre hc
  have hi' : i < (ops ++ [op]).length := by simp; omega
  have htake : (ops ++ [op]).take i = ops.take i := List.take_append_of_le_length (by omega)
  have hget : (ops ++ [op])[i] = ops[i] := List.getElem_append_left hi
  have := h i hi' (by rw [hget]; exact hre) (by rw [htake]; exact hc)
  rwa [htake] at this

theorem ReopensClean.last {opts : Options} {ops : List Op} {op : Op}
    (h : ReopensClean opts (ops ++ [op])) :
    op = .reopen → (run opts ops).closed = true → (run opts ops).stale = 0 := by
  intro hre hc
  have htake : (ops ++ [op]).take ops.length = ops := List.take_left' rfl
  have := h ops.length (by simp) (by simp [hre]) (by rw [htake]; exact hc)
  rwa [htake] at this

end Content

end Immudb.Ahtree
