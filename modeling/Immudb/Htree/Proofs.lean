import Mathlib.Tactic.Ring
import Immudb.Lib.Machine
import Immudb.Htree.Tree

/-!
# `Immudb/Htree/Proofs.lean` — the HTree builds the Merkle tree hash, and proves inclusion

`BuildWith` works bottom up and `InclusionProof` top down, and they meet in one fact: node `j`
of level `l` holds the root of the leaves `j * 2 ^ l` up to `(j + 1) * 2 ^ l`, cut at the last
leaf (`chunkRoot`). A last node carried up without a partner is the same run of leaves one
level higher, so the pairing loop keeps that fact level by level (`levelLoop_ok`), and the
root, the one node of the top level, is the Merkle tree hash of all the digests.

`InclusionProof` splits at the largest power of two below the width, which is RFC 6962's split,
so the siblings it reads are the subtrees of the audit path of `Immudb/Lib/MerkleTree.lean`;
each lies at the level of its height and at an index the builder wrote (`proofLoop_ok`). The
verifier is the bit-walking fold of the library, whose positions meet at the end
(`walkPath_auditPath`). Conversely, under an ideal hash nothing else verifies: a proof for a leaf
below the width verifies only that leaf's digest, however many terms it carries, and a proof with
any leaf and width only a digest of the list (`VerifyInclusion_sound`).

Every read and write of the levels is in range on every tree `New` and earlier builds leave,
wider or narrower: the arrays keep their shape (`Shape`), and only the nodes below the current
width are read.
-/

set_option autoImplicit false

namespace Immudb.Htree

open Hashing Merkle

variable {D : Type}

/-! ## 1. Bit lengths -/

theorem two_pow_size_pred_le {x : Nat} (hx : 0 < x) : 2 ^ (Nat.size x - 1) ≤ x :=
  Nat.lt_size.mp (by have := Nat.size_pos.mpr hx; omega)

/-- `1 << (bits.Len(n - 1) - 1)` is RFC 6962's split point. -/
theorem shiftLeft_size_eq_split {n : Nat} (hn : 2 ≤ n) : 1 <<< (Nat.size (n - 1) - 1) = split n := by
  have hlo := two_pow_size_pred_le (show 0 < n - 1 by omega)
  have hhi := Nat.lt_size_self (n - 1)
  have hs := Nat.size_pos.mpr (show 0 < n - 1 by omega)
  rw [Nat.one_shiftLeft, split_eq (b := Nat.size (n - 1) - 1) (by omega)
    (by rw [Nat.sub_add_cancel hs]; omega)]

/-- The bit length of `2 ^ e - 1` is `e`. -/
theorem size_two_pow_sub_one (e : Nat) : Nat.size (2 ^ e - 1) = e := by
  apply Nat.le_antisymm
  · exact Nat.size_le.mpr (by have := Nat.two_pow_pos e; omega)
  · cases e with
    | zero => exact Nat.zero_le _
    | succ e =>
      have : 2 ^ e ≤ 2 ^ (e + 1) - 1 := by rw [Nat.pow_succ]; have := Nat.two_pow_pos e; omega
      exact Nat.lt_size.mpr this

/-! ## 2. The nodes of each level -/

variable (hs : Hasher D)

/-- Node `j` of level `l` of the tree over `ds`: the root of the leaves from `j * 2 ^ l` up to
`(j + 1) * 2 ^ l`, cut at the last leaf. -/
def chunkRoot (ds : List D) (l j : Nat) : D :=
  mthRange (htreeScheme hs) ds (j * 2 ^ l) (min ((j + 1) * 2 ^ l) ds.length)

/-- The number of nodes of level `l` over `W` leaves, `⌈W / 2 ^ l⌉`. -/
def levelWidth (W l : Nat) : Nat := (W + 2 ^ l - 1) / 2 ^ l

/-- Level `l` of `levels` holds the nodes of the tree over `ds`. -/
def LevelHolds (ds : List D) (levels : List (List D)) (l : Nat) : Prop :=
  ∀ j, j < levelWidth ds.length l → readLevel levels l j = .ok (chunkRoot hs ds l j)

/-- The arrays `New(maxWidth)` allocates: `bits.Len(maxWidth - 1) + 1` levels, level `l` of
`lw >> l` digests, where `lw = 2 ^ bits.Len(maxWidth - 1)`. -/
structure Shape (maxWidth : Nat) (levels : List (List D)) : Prop where
  length_eq : levels.length = Nat.size (maxWidth - 1) + 1
  width_eq : ∀ l lv, levels[l]? = some lv → lv.length = 2 ^ Nat.size (maxWidth - 1) / 2 ^ l

theorem lt_levelWidth_iff {W l j : Nat} : j < levelWidth W l ↔ j * 2 ^ l < W := by
  have hP := Nat.two_pow_pos l
  unfold levelWidth
  rw [← Nat.succ_le_iff, Nat.le_div_iff_mul_le hP, Nat.succ_mul]
  omega

@[simp] theorem levelWidth_zero (W : Nat) : levelWidth W 0 = W := by
  simp [levelWidth]

/-- The next level has half as many nodes, rounded up. -/
theorem levelWidth_succ (W l : Nat) : levelWidth W (l + 1) = (levelWidth W l + 1) / 2 := by
  have hP := Nat.two_pow_pos l
  unfold levelWidth
  rw [← Nat.add_div_right _ hP, Nat.div_div_eq_div_mul, Nat.pow_succ]
  congr 1
  omega

theorem levelWidth_le_one_iff {W l : Nat} : levelWidth W l ≤ 1 ↔ W ≤ 2 ^ l := by
  have := (lt_levelWidth_iff (W := W) (l := l) (j := 1)).not
  rw [Nat.one_mul] at this
  omega

/-- A tree that fits the arrays has no more nodes at level `l` than the array holds. -/
theorem levelWidth_le_cap {W s l : Nat} (hW : W ≤ 2 ^ s) (hl : l ≤ s) :
    levelWidth W l ≤ 2 ^ s / 2 ^ l := by
  rw [Nat.pow_div hl (by decide)]
  by_contra hlt
  -- node `2 ^ (s - l)` of level `l` would start at leaf `2 ^ s`, past every leaf
  have h := lt_levelWidth_iff.mp (Nat.lt_of_not_le hlt)
  rw [← Nat.pow_add, Nat.sub_add_cancel hl] at h
  omega

section Chunks

variable {ds : List D}

/-- A node of level `0` is a leaf. -/
theorem chunkRoot_zero {j : Nat} {d : D} (hd : ds[j]? = some d) :
    chunkRoot hs ds 0 j = (htreeScheme hs).leaf d := by
  have hj : j < ds.length := (List.getElem?_eq_some_iff.mp hd).1
  unfold chunkRoot
  rw [Nat.pow_zero, Nat.mul_one, Nat.mul_one, Nat.min_eq_left (by omega)]
  exact mthRange_succ _ hd

/-- **Two nodes make their parent**: the pair `2 j`, `2 j + 1` of level `l`, the second one
starting before the last leaf, hashes to node `j` of level `l + 1`. -/
theorem chunkRoot_pair {l j : Nat} (h : (2 * j + 1) * 2 ^ l < ds.length) :
    (htreeScheme hs).node (chunkRoot hs ds l (2 * j)) (chunkRoot hs ds l (2 * j + 1)) =
      chunkRoot hs ds (l + 1) j := by
  have hP := Nat.two_pow_pos l
  have hpow : 2 ^ (l + 1) = 2 * 2 ^ l := Nat.pow_succ'
  have ha : j * 2 ^ (l + 1) = 2 * j * 2 ^ l := by rw [hpow]; ring
  have hc : (2 * j + 1) * 2 ^ l = 2 * j * 2 ^ l + 2 ^ l := by ring
  have hb : (j + 1) * 2 ^ (l + 1) = (2 * j + 1 + 1) * 2 ^ l := by rw [hpow]; ring
  have hb' : (2 * j + 1 + 1) * 2 ^ l = 2 * j * 2 ^ l + 2 * 2 ^ l := by ring
  unfold chunkRoot
  rw [ha, hb, Nat.min_eq_left (Nat.le_of_lt h)]
  refine (mthRange_node _ (by omega) (by omega) (Nat.min_le_right _ _) ?_).symm
  -- the run of the parent is longer than `2 ^ l` and at most twice that: it splits at `2 ^ l`
  rw [split_eq (b := l) (by omega) (by omega)]
  omega

/-- **A last node without a partner is carried up**: on a level of odd width `2 q + 1`, node
`2 q` of level `l` is node `q` of level `l + 1`. -/
theorem chunkRoot_carry {l q : Nat} (h : levelWidth ds.length l = 2 * q + 1) :
    chunkRoot hs ds l (2 * q) = chunkRoot hs ds (l + 1) q := by
  have h1 := lt_levelWidth_iff.mp (show 2 * q < levelWidth ds.length l by omega)
  have h2 := lt_levelWidth_iff.not.mp (show ¬ 2 * q + 1 < levelWidth ds.length l by omega)
  have hpow : 2 ^ (l + 1) = 2 * 2 ^ l := Nat.pow_succ'
  have ha : q * 2 ^ (l + 1) = 2 * q * 2 ^ l := by rw [hpow]; ring
  have hb : (q + 1) * 2 ^ (l + 1) = (2 * q + 1) * 2 ^ l + 2 ^ l := by rw [hpow]; ring
  unfold chunkRoot
  rw [ha, Nat.min_eq_right (by omega), Nat.min_eq_right (by omega)]

/-- The one node of a level at least as wide as the tree is its root. -/
theorem chunkRoot_top {l : Nat} (hW : ds.length ≤ 2 ^ l) :
    chunkRoot hs ds l 0 = mth (htreeScheme hs) ds := by
  unfold chunkRoot
  rw [Nat.zero_mul, Nat.zero_add, Nat.one_mul, Nat.min_eq_right hW, mthRange_zero,
    List.take_length]

end Chunks

/-! ## 3. Reads and writes of the arrays -/

section Levels

variable {levels : List (List D)} {mw : Nat}

/-- What `readLevel` reads: the digest at `i` of level `l`, when both exist. -/
theorem readLevel_eq (levels : List (List D)) (l i : Nat) :
    readLevel levels l i = match levels[l]?.bind (·[i]?) with
      | some d => .ok d
      | none => .error .indexOutOfRange := by
  unfold readLevel
  cases levels[l]? <;> rfl

/-- **A write to the arrays of `New`**, below the width of the level's array, succeeds, changes
that one digest, and keeps the shape. -/
theorem Shape.write (hS : Shape mw levels) {l i : Nat} (hl : l ≤ Nat.size (mw - 1))
    (hi : i < 2 ^ Nat.size (mw - 1) / 2 ^ l) (d : D) :
    ∃ levels', writeLevel levels l i d = .ok levels' ∧ Shape mw levels' ∧
      ∀ l' i', readLevel levels' l' i' =
        if l' = l ∧ i' = i then .ok d else readLevel levels l' i' := by
  have hl' : l < levels.length := by rw [hS.length_eq]; omega
  obtain ⟨lv, hlv⟩ : ∃ lv, levels[l]? = some lv := ⟨_, List.getElem?_eq_getElem hl'⟩
  have hlen := hS.width_eq l lv hlv
  have hil : i < lv.length := by rw [hlen]; exact hi
  refine ⟨levels.set l (lv.set i d), by simp [writeLevel, hlv, hil], ⟨by simp [hS.length_eq],
    fun l' lv' h' => ?_⟩, fun l' i' => ?_⟩
  · by_cases hll : l = l'
    · -- the written level keeps its length
      subst hll
      rw [List.getElem?_set_self hl'] at h'
      cases h'
      rw [List.length_set, hlen]
    · rw [List.getElem?_set_ne hll] at h'
      exact hS.width_eq l' lv' h'
  · rw [readLevel_eq, readLevel_eq]
    by_cases hll : l = l'
    · subst hll
      rw [List.getElem?_set_self hl', hlv, Option.bind_some, Option.bind_some]
      by_cases hii : i = i'
      · subst hii
        rw [List.getElem?_set_self hil, if_pos ⟨rfl, rfl⟩]
      · rw [List.getElem?_set_ne hii, if_neg (fun h => hii h.2.symm)]
    · rw [List.getElem?_set_ne hll, if_neg (fun h => hll h.1.symm)]

/-- The arrays hold a tree of up to `2 ^ bits.Len(maxWidth - 1)` leaves. -/
theorem le_two_pow_size (mw : Nat) : mw ≤ 2 ^ Nat.size (mw - 1) := by
  have := Nat.lt_size_self (mw - 1)
  omega

/-- The loop of `New` stops at the first power of two not below `maxWidth`. -/
theorem lwLoop_eq {mw : Nat} (hmw : 0 < mw) :
    ∀ n e, n + e = Nat.size (mw - 1) → lwLoop mw e = 2 ^ Nat.size (mw - 1)
  | 0, e, h => by
    have he : e = Nat.size (mw - 1) := by omega
    subst he
    rw [lwLoop, Nat.one_shiftLeft, if_neg (by have := le_two_pow_size mw; omega)]
  | n + 1, e, h => by
    -- below the bit length of `maxWidth - 1`, a power of two is at most `maxWidth - 1`
    have hlt : 2 ^ e ≤ mw - 1 := Nat.lt_size.mp (by omega)
    rw [lwLoop, Nat.one_shiftLeft, if_pos (by omega)]
    exact lwLoop_eq hmw n (e + 1) (by omega)

/-- `New(maxWidth)` allocates arrays of its shape. -/
theorem shape_New (hs : Hasher D) {mw : Nat} (hmw : 0 < mw) : Shape mw (New hs mw).levels := by
  have hlw := lwLoop_eq hmw (Nat.size (mw - 1)) 0 rfl
  simp only [New, if_pos hmw, hlw]
  refine ⟨by simp, fun l lv h => ?_⟩
  have hl : l < Nat.size (mw - 1) + 1 := by
    by_contra hc
    rw [List.getElem?_eq_none (by simp; omega)] at h
    cases h
  rw [List.getElem?_map, List.getElem?_range hl] at h
  simp only [Option.map_some, Option.some.injEq] at h
  rw [← h, List.length_replicate, Nat.shiftRight_eq_div_pow]

end Levels

/-! ## 4. `BuildWith` -/

section Build

variable {mw : Nat}

/-- The leaf loop writes the leaf hashes of `ds` from index `i` of level `0`, and nothing
before it. -/
theorem leavesLoop_ok :
    ∀ (ds : List D) (levels : List (List D)) (i : Nat), Shape mw levels →
      i + ds.length ≤ 2 ^ Nat.size (mw - 1) →
      ∃ levels', leavesLoop hs levels i ds = .ok levels' ∧ Shape mw levels' ∧
        (∀ j d, ds[j]? = some d → readLevel levels' 0 (i + j) = .ok ((htreeScheme hs).leaf d)) ∧
        (∀ l j, (l ≠ 0 ∨ j < i) → readLevel levels' l j = readLevel levels l j)
  | [], levels, i, hS, _ => ⟨levels, rfl, hS, fun j d h => by simp at h, fun _ _ _ => rfl⟩
  | d :: ds, levels, i, hS, hfit => by
    have hlen : i + 1 + ds.length ≤ 2 ^ Nat.size (mw - 1) := by simp at hfit; omega
    obtain ⟨levels₁, hw, hS₁, hread₁⟩ := hS.write (l := 0) (i := i) (Nat.zero_le _)
      (by rw [Nat.pow_zero, Nat.div_one]; omega) ((htreeScheme hs).leaf d)
    obtain ⟨levels', hloop, hS', hnew, hold⟩ := leavesLoop_ok ds levels₁ (i + 1) hS₁ hlen
    refine ⟨levels', by simp only [leavesLoop, hw]; exact hloop, hS', fun j d' hj => ?_,
      fun l j hlj => ?_⟩
    · cases j with
      | zero =>
        -- the digest just written, which the rest of the loop leaves alone
        simp only [List.getElem?_cons_zero, Option.some.injEq] at hj
        subst hj
        rw [Nat.add_zero, hold 0 i (Or.inr (by omega)), hread₁, if_pos ⟨rfl, rfl⟩]
      | succ j =>
        rw [show i + (j + 1) = i + 1 + j by omega]
        exact hnew j d' (by simpa using hj)
    · rw [hold l j (by omega), hread₁, if_neg (by omega)]

/-- The pairing loop of level `l`, from pair `wn` on: it writes node `j` of level `l + 1` for
each pair `j` left, and nothing off level `l + 1`. -/
theorem pairLoop_ok {ds : List D} {l : Nat} (hl : l + 1 ≤ Nat.size (mw - 1))
    (hfit : ds.length ≤ 2 ^ Nat.size (mw - 1)) :
    ∀ n wn (levels : List (List D)), n = levelWidth ds.length l / 2 - wn →
      wn ≤ levelWidth ds.length l / 2 → Shape mw levels → LevelHolds hs ds levels l →
      ∃ levels', pairLoop hs l (levelWidth ds.length l) levels (2 * wn) wn =
          .ok (levels', levelWidth ds.length l / 2) ∧ Shape mw levels' ∧
        (∀ j, wn ≤ j → j < levelWidth ds.length l / 2 →
          readLevel levels' (l + 1) j = .ok (chunkRoot hs ds (l + 1) j)) ∧
        (∀ l' j, (l' ≠ l + 1 ∨ j < wn) → readLevel levels' l' j = readLevel levels l' j) := by
  intro n
  induction n with
  | zero =>
    intro wn levels hn hwn hS _
    have hwn' : wn = levelWidth ds.length l / 2 := by omega
    refine ⟨levels, ?_, hS, fun j h1 h2 => by omega, fun _ _ _ => rfl⟩
    rw [pairLoop, if_neg (by omega), hwn']
  | succ n ih =>
    intro wn levels hn hwn hS hhold
    set w := levelWidth ds.length l with hw
    -- pair `wn` is there: its two nodes are read, hashed, and written
    have hpair : 2 * wn + 1 < w := by omega
    have ha := hhold (2 * wn) (by omega)
    have hb := hhold (2 * wn + 1) hpair
    have hcap : wn < 2 ^ Nat.size (mw - 1) / 2 ^ (l + 1) := by
      have := levelWidth_le_cap (l := l + 1) hfit hl
      rw [levelWidth_succ] at this
      omega
    obtain ⟨levels₁, hwrite, hS₁, hread₁⟩ := hS.write hl hcap
      ((htreeScheme hs).node (chunkRoot hs ds l (2 * wn)) (chunkRoot hs ds l (2 * wn + 1)))
    have hhold₁ : LevelHolds hs ds levels₁ l := fun j hj => by
      rw [hread₁, if_neg (by omega)]; exact hhold j hj
    obtain ⟨levels', hloop, hS', hnew, hold⟩ := ih (wn + 1) levels₁ (by omega) (by omega) hS₁ hhold₁
    refine ⟨levels', ?_, hS', fun j hj1 hj2 => ?_, fun l' j hlj => ?_⟩
    · rw [pairLoop, if_pos hpair]
      simp only [ha, hb, bind, Except.bind, hwrite]
      rw [show 2 * wn + 2 = 2 * (wn + 1) by ring]
      exact hloop
    · rcases Nat.eq_or_lt_of_le hj1 with heq | hlt
      · -- the node just written
        rw [← heq, hold (l + 1) wn (Or.inr (by omega)), hread₁, if_pos ⟨rfl, rfl⟩,
          chunkRoot_pair hs (lt_levelWidth_iff.mp hpair)]
      · exact hnew j hlt hj2
    · rw [hold l' j (by omega), hread₁, if_neg (by omega)]

/-- **The level loop builds the tree**: from a level that holds its nodes, with every level
below it, it pairs level after level, carrying odd nodes up, until a level of one node. The
arrays have a level for each: `fuel` counts those above `l`. -/
theorem levelLoop_ok {ds : List D} (hfit : ds.length ≤ 2 ^ Nat.size (mw - 1)) :
    ∀ fuel (levels : List (List D)) l, l + fuel = Nat.size (mw - 1) → Shape mw levels →
      (∀ l', l' ≤ l → LevelHolds hs ds levels l') →
      ∃ levels' L, levelLoop hs fuel levels l (levelWidth ds.length l) = .ok (levels', L) ∧
        Shape mw levels' ∧ ds.length ≤ 2 ^ L ∧ ∀ l', l' ≤ L → LevelHolds hs ds levels' l' := by
  intro fuel
  induction fuel with
  | zero =>
    intro levels l hl hS hhold
    -- the top array has one slot, and the tree fits the arrays: one node is left
    have hW : ds.length ≤ 2 ^ l := by rw [Nat.add_zero] at hl; rw [hl]; exact hfit
    refine ⟨levels, l, ?_, hS, hW, hhold⟩
    rw [levelLoop, if_neg (by have := levelWidth_le_one_iff.mpr hW; omega)]
  | succ fuel ih =>
    intro levels l hl hS hhold
    by_cases hw1 : levelWidth ds.length l > 1
    · set w := levelWidth ds.length l with hw
      obtain ⟨levels₁, hpair, hS₁, hnew₁, hold₁⟩ :=
        pairLoop_ok hs (l := l) (by omega) hfit _ 0 levels rfl (Nat.zero_le _) hS (hhold l le_rfl)
      rw [Nat.mul_zero, ← hw] at hpair
      rw [levelLoop, if_pos hw1]
      simp only [hpair, bind, Except.bind]
      -- the levels up to `l` are as they were, and level `l + 1` holds its first `w / 2` nodes
      have hbelow : ∀ l', l' ≤ l → LevelHolds hs ds levels₁ l' := fun l' hl' j hj => by
        rw [hold₁ l' j (Or.inl (by omega))]; exact hhold l' hl' j hj
      by_cases hodd : w % 2 = 1
      · -- the last node of level `l` is carried up to node `w / 2` of level `l + 1`
        have hwidth : levelWidth ds.length (l + 1) = w / 2 + 1 := by
          rw [levelWidth_succ, ← hw]; omega
        have hread := hbelow l le_rfl (w - 1) (by omega)
        have hcap : w / 2 < 2 ^ Nat.size (mw - 1) / 2 ^ (l + 1) := by
          have := levelWidth_le_cap (l := l + 1) hfit (by omega); omega
        obtain ⟨levels₂, hwrite, hS₂, hread₂⟩ := hS₁.write (by omega) hcap (chunkRoot hs ds l (w - 1))
        have hholds₂ : ∀ l', l' ≤ l + 1 → LevelHolds hs ds levels₂ l' := by
          intro l' hl' j hj
          rw [hread₂]
          split_ifs with hc
          · obtain ⟨rfl, rfl⟩ := hc
            rw [show w - 1 = 2 * (w / 2) by omega, chunkRoot_carry hs (by omega)]
          · rcases Nat.lt_or_ge l' (l + 1) with hlt | hge
            · exact hbelow l' (by omega) j hj
            · have hl'' : l' = l + 1 := by omega
              subst hl''
              exact hnew₁ j (Nat.zero_le _) (by omega)
        obtain ⟨levels', L, hloop, hS', hL, hholdL⟩ := ih levels₂ (l + 1) (by omega) hS₂ hholds₂
        refine ⟨levels', L, ?_, hS', hL, hholdL⟩
        rw [if_pos hodd]
        simp only [hread, hwrite, pure, Except.pure]
        rw [← hwidth]
        exact hloop
      · -- an even level pairs up completely
        have hwidth : levelWidth ds.length (l + 1) = w / 2 := by
          rw [levelWidth_succ, ← hw]; omega
        have hholds₁ : ∀ l', l' ≤ l + 1 → LevelHolds hs ds levels₁ l' := by
          intro l' hl' j hj
          rcases Nat.lt_or_ge l' (l + 1) with hlt | hge
          · exact hbelow l' (by omega) j hj
          · have hl'' : l' = l + 1 := by omega
            subst hl''
            exact hnew₁ j (Nat.zero_le _) (by omega)
        obtain ⟨levels', L, hloop, hS', hL, hholdL⟩ := ih levels₁ (l + 1) (by omega) hS₁ hholds₁
        refine ⟨levels', L, ?_, hS', hL, hholdL⟩
        rw [if_neg hodd]
        simp only [pure, Except.pure]
        rw [← hwidth]
        exact hloop
    · refine ⟨levels, l, ?_, hS, levelWidth_le_one_iff.mp (by omega), hhold⟩
      rw [levelLoop, if_neg hw1]

/-- **`BuildWith` builds the tree** over `1 ≤ |ds| ≤ maxWidth` digests, on arrays of the shape
`New` allocates, whatever they hold: no index is out of range, the root is the Merkle tree hash
of the digests, and every level up to the top holds its nodes. -/
theorem BuildWith_ok {t : HTree D} (hS : Shape t.maxWidth t.levels) {ds : List D}
    (h1 : 1 ≤ ds.length) (h2 : ds.length ≤ t.maxWidth) :
    ∃ t', t.BuildWith hs ds = .ok t' ∧ t'.maxWidth = t.maxWidth ∧ t'.width = ds.length ∧
      Shape t'.maxWidth t'.levels ∧ t'.Root = mth (htreeScheme hs) ds ∧
      ∃ L, ds.length ≤ 2 ^ L ∧ ∀ l, l ≤ L → LevelHolds hs ds t'.levels l := by
  have hfit : ds.length ≤ 2 ^ Nat.size (t.maxWidth - 1) := Nat.le_trans h2 (le_two_pow_size _)
  obtain ⟨levels₁, hleaves, hS₁, hread₁, -⟩ := leavesLoop_ok hs ds t.levels 0 hS (by omega)
  -- level `0` holds the leaves
  have hhold₀ : ∀ l', l' ≤ 0 → LevelHolds hs ds levels₁ l' := by
    intro l' hl' j hj
    obtain rfl : l' = 0 := by omega
    rw [levelWidth_zero] at hj
    obtain ⟨d, hd⟩ : ∃ d, ds[j]? = some d := ⟨_, List.getElem?_eq_getElem hj⟩
    have := hread₁ j d hd
    rw [Nat.zero_add] at this
    rw [this, chunkRoot_zero hs hd]
  obtain ⟨levels', L, hloop, hS', hL, hholds⟩ := levelLoop_ok hs hfit (t.levels.length - 1)
    levels₁ 0 (by rw [hS.length_eq]; omega) hS₁ hhold₀
  rw [levelWidth_zero] at hloop
  have hroot := hholds L le_rfl 0 (lt_levelWidth_iff.mpr (by omega))
  rw [chunkRoot_top hs hL] at hroot
  refine ⟨{ t with levels := levels', width := ds.length, root := mth (htreeScheme hs) ds },
    ?_, rfl, rfl, hS', rfl, L, hL, hholds⟩
  simp only [HTree.BuildWith, if_neg (show ¬ ds.length > t.maxWidth by omega),
    if_neg (show ¬ ds.length = 0 by omega), hleaves, hloop, hroot, bind, Except.bind, pure,
    Except.pure]

end Build

/-! ## 5. `InclusionProof` -/

section Proof

variable {ds : List D} {levels : List (List D)} {L : Nat}

/-- The subtree `InclusionProof` reads is the node the builder wrote: the leaves `l, …, r` of
the subtree start at a multiple of `2 ^ bits.Len(r - l)`, and end where that node ends, or at
the last leaf. -/
theorem readSubtree_ok (hL : ds.length ≤ 2 ^ L) (hholds : ∀ l, l ≤ L → LevelHolds hs ds levels l)
    {a b : Nat} (hab : a < b) (hb : b ≤ ds.length) (ha : a % 2 ^ Nat.size (b - 1 - a) = 0)
    (hend : b = ds.length ∨ b = a + 2 ^ Nat.size (b - 1 - a)) :
    readSubtree levels a (b - 1) = .ok (mthRange (htreeScheme hs) ds a b) := by
  set t := Nat.size (b - 1 - a) with ht
  have hP := Nat.two_pow_pos t
  have hlt := Nat.lt_size_self (b - 1 - a)
  rw [← ht] at hlt
  -- the node's level is within the tree's height
  have htL : t ≤ L := by
    rw [ht]; exact Nat.size_le.mpr (by omega)
  obtain ⟨q, hq⟩ := Nat.dvd_of_mod_eq_zero ha
  have hidx : a / 2 ^ t = q := by rw [hq, Nat.mul_div_cancel_left _ hP]
  have hread := hholds t htL q (lt_levelWidth_iff.mpr (by rw [Nat.mul_comm, ← hq]; omega))
  show readLevel levels t (a / 1 <<< t) = _
  rw [Nat.one_shiftLeft, hidx, hread]
  unfold chunkRoot
  have hstart : q * 2 ^ t = a := by rw [Nat.mul_comm, ← hq]
  have hstop : min ((q + 1) * 2 ^ t ) ds.length = b := by
    rw [Nat.succ_mul, hstart]
    rcases hend with h | h <;> omega
  rw [hstart, hstop]

/-- A power of two divides the multiples of a larger one. -/
theorem mod_two_pow_of_le {a e h : Nat} (ha : a % 2 ^ h = 0) (he : e ≤ h) : a % 2 ^ e = 0 :=
  Nat.mod_eq_zero_of_dvd (Nat.dvd_trans (Nat.pow_dvd_pow 2 he) (Nat.dvd_of_mod_eq_zero ha))

/-- **The proof loop reads the audit path.** In a subtree of width `n ≥ 2` at `offset`, aligned
to `2 ^ h` and no wider, that is perfect or runs to the last leaf, the loop returns the audit
path of leaf `m`, lowest sibling first, in front of what it has prepended already. -/
theorem proofLoop_ok (hL : ds.length ≤ 2 ^ L) (hholds : ∀ l, l ≤ L → LevelHolds hs ds levels l) :
    ∀ n m offset (terms : List D) h, 2 ≤ n → m < n → offset + n ≤ ds.length →
      offset % 2 ^ h = 0 → n ≤ 2 ^ h → (offset + n = ds.length ∨ n = 2 ^ h) →
      proofLoop levels m n offset terms =
        .ok (auditPath (htreeScheme hs) ds offset (offset + n) m ++ terms) := by
  intro n
  induction n using Nat.strongRecOn with
  | ind n ih =>
    intro m offset terms h hn hm hfit ha hnh hend
    -- the split point is `k = 2 ^ e`, below the alignment
    set e := Nat.log2 (n - 1) with he
    have hk : 1 <<< (Nat.size (n - 1) - 1) = 2 ^ e := shiftLeft_size_eq_split hn
    have hkn := split_lt hn
    have hk2 := le_two_mul_split hn
    have hsplit : split (offset + n - offset) = 2 ^ e := by rw [Nat.add_sub_cancel_left]; rfl
    change 2 ^ e < n at hkn
    change n ≤ 2 * 2 ^ e at hk2
    have heh : e < h := (Nat.pow_lt_pow_iff_right (by decide : 1 < 2)).mp (by omega)
    have hae : offset % 2 ^ e = 0 := mod_two_pow_of_le ha heh.le
    -- in a perfect subtree both parts are perfect, of half the width
    have hhalf : n = 2 ^ h → n - 2 ^ e = 2 ^ e := by
      intro hp
      have : 2 ^ (e + 1) ≤ 2 ^ h := Nat.pow_le_pow_right (by decide) heh
      rw [Nat.pow_succ] at this
      omega
    rw [proofLoop, if_neg (by omega)]
    simp only [hk]
    by_cases hmk : m < 2 ^ e
    · -- the leaf is in the left part: the right part's root is read
      rw [if_pos hmk]
      set t := Nat.size (offset + n - 1 - (offset + 2 ^ e)) with ht
      have htle : t ≤ e := by rw [ht]; exact Nat.size_le.mpr (by omega)
      have hread := readSubtree_ok hs hL hholds (a := offset + 2 ^ e) (b := offset + n) (by omega)
        hfit (by rw [← ht, Nat.add_mod, mod_two_pow_of_le hae htle,
          Nat.mod_eq_zero_of_dvd (Nat.pow_dvd_pow 2 htle), Nat.zero_mod])
        (by
          rcases hend with h' | h'
          · exact Or.inl h'
          · -- the right half of a perfect subtree is a node of height `e`
            right
            have : t = e := by rw [ht, show offset + n - 1 - (offset + 2 ^ e) = 2 ^ e - 1 by
              have := hhalf h'; omega, size_two_pow_sub_one]
            rw [← ht, this]
            have := hhalf h'
            omega)
      rw [hread]
      simp only
      rw [auditPath_left _ ds (by omega) (by rw [hsplit]; exact hmk), hsplit]
      split_ifs with hstop
      · -- a width of one: the left part is the leaf itself
        have hk1 : 2 ^ e = 1 := by omega
        rw [hk1, auditPath_of_le_one _ ds (by omega)]
        rfl
      · rw [ih (2 ^ e) hkn m offset _ e (by omega) hmk (by omega) hae le_rfl (Or.inr rfl),
          List.append_assoc, List.singleton_append]
    · -- the leaf is in the right part: the left part's root is read
      rw [if_neg hmk]
      have hread := readSubtree_ok hs hL hholds (a := offset) (b := offset + 2 ^ e) (by omega)
        (by omega) (by rw [show offset + 2 ^ e - 1 - offset = 2 ^ e - 1 by omega,
          size_two_pow_sub_one]; exact hae)
        (Or.inr (by rw [show offset + 2 ^ e - 1 - offset = 2 ^ e - 1 by omega,
          size_two_pow_sub_one]))
      rw [hread]
      simp only
      rw [auditPath_right _ ds (by omega) (by rw [hsplit]; omega), hsplit]
      split_ifs with hstop
      · -- a width of one: the right part is the leaf itself
        rw [auditPath_of_le_one _ ds (by omega)]
        rfl
      · have hend' : offset + 2 ^ e + (n - 2 ^ e) = ds.length ∨ n - 2 ^ e = 2 ^ e := by
          rcases hend with h' | h'
          · left; omega
          · right; exact hhalf h'
        rw [ih (n - 2 ^ e) (by omega) (m - 2 ^ e) (offset + 2 ^ e) _ e (by omega) (by omega)
          (by omega) (by rw [Nat.add_mod_right]; exact hae) (by omega) hend',
          show offset + 2 ^ e + (n - 2 ^ e) = offset + n by omega, List.append_assoc,
          List.singleton_append]

/-- `InclusionProof(i)` on a built tree: the leaf's index, the width, and the audit path. -/
theorem InclusionProof_ok {t : HTree D} (hwidth : t.width = ds.length) (hL : ds.length ≤ 2 ^ L)
    (hholds : ∀ l, l ≤ L → LevelHolds hs ds t.levels l) {i : Nat} (hi : i < ds.length) :
    t.InclusionProof i = .ok ⟨i, ds.length, auditPath (htreeScheme hs) ds 0 ds.length i⟩ := by
  unfold HTree.InclusionProof
  rw [if_neg (by omega), hwidth]
  by_cases h1 : ds.length = 1
  · rw [if_pos h1, auditPath_of_le_one _ ds (by omega)]
  · rw [if_neg h1]
    have hloop := proofLoop_ok hs hL hholds ds.length i 0 [] L (by omega) hi (by omega)
      (Nat.zero_mod _) hL (Or.inl (Nat.zero_add _))
    rw [Nat.zero_add, List.append_nil] at hloop
    rw [hloop]
    rfl

end Proof

/-! ## 6. The verifier -/

/-- On non-negative positions Go's truncating division and remainder are `Nat`'s, so the loop
of `VerifyInclusion` is the library's bit-walking fold, and each position ends shifted right by
the length of the proof. -/
theorem verifyLoop_eq (ts : List D) : ∀ (x r : Nat) (c : D),
    verifyLoop hs ts x r c =
      (walkPath (htreeScheme hs) ts x r c, ((x / 2 ^ ts.length : Nat) : Int),
        ((r / 2 ^ ts.length : Nat) : Int)) := by
  induction ts with
  | nil => intro x r c; simp [verifyLoop, walkPath]
  | cons t ts ih =>
    intro x r c
    have hdiv : ∀ y : Nat, (y : Int).tdiv 2 = ((y / 2 : Nat) : Int) :=
      fun y => (Int.ofNat_tdiv y 2).symm
    have hmod : ∀ y : Nat, (y : Int).tmod 2 = ((y % 2 : Nat) : Int) :=
      fun y => (Int.ofNat_tmod y 2).symm
    rw [verifyLoop, hdiv, hdiv, hmod, ih, walkPath]
    simp only [Nat.cast_eq_zero, ne_eq, Nat.cast_inj, List.length_cons, Nat.div_div_eq_div_mul,
      Nat.pow_succ']

/-- **Completeness of `VerifyInclusion`.** The audit path of the genuine leaf `i` verifies it
against the Merkle tree hash of the digests. -/
theorem VerifyInclusion_auditPath [DecidableEq D] {ds : List D} {i : Nat} {d : D}
    (hd : ds[i]? = some d) :
    VerifyInclusion hs ⟨i, ds.length, auditPath (htreeScheme hs) ds 0 ds.length i⟩ d
      (mth (htreeScheme hs) ds) = true := by
  have hi : i < ds.length := (List.getElem?_eq_some_iff.mp hd).1
  obtain ⟨hroot, hpos⟩ := walkPath_auditPath (htreeScheme hs) ds le_rfl hi
  rw [mthRange_succ (htreeScheme hs) hd, List.take_length] at hroot
  have hw : (ds.length : Int) - 1 = ((ds.length - 1 : Nat) : Int) := by omega
  unfold VerifyInclusion
  simp only
  rw [hw, verifyLoop_eq, hroot, hpos]
  simp

/-- Under an ideal hash the leaf and node hashes of `htree.go` can be read back: `LeafPrefix` and
`NodePrefix` keep the two apart. -/
theorem htreeScheme_binding {hs : Hasher D} (hi : hs.Ideal) : (htreeScheme hs).Binding where
  leaf_injective a b h := by
    have hbytes := hi.sum_injective h
    simp only [List.cons.injEq, true_and] at hbytes
    exact hi.bytes_injective hbytes
  node_injective a b c d h := by
    have hbytes : hs.bytes a ++ hs.bytes b = hs.bytes c ++ hs.bytes d := by
      simpa using hi.sum_injective h
    obtain ⟨hac, hbd⟩ := hi.bytes_prefix a c _ _ hbytes
    exact ⟨hac, hi.bytes_injective hbd⟩
  leaf_ne_node x a b h := by
    have := hi.sum_injective h
    simp [LeafPrefix, NodePrefix] at this

/-- Whatever its positions, the loop of `VerifyInclusion` joins one digest at a time to what it
started from. -/
theorem climbs_verifyLoop {d : D} (ts : List D) :
    ∀ (i r : Int) {c : D}, Climbs (htreeScheme hs) d c →
      Climbs (htreeScheme hs) d (verifyLoop hs ts i r c).1 := by
  induction ts with
  | nil => intro i r c hc; exact hc
  | cons t ts ih =>
    intro i r c hc
    rw [verifyLoop]
    apply ih
    split
    · exact .left t hc
    · exact .right t hc

/-- The hash of no digests is neither a leaf nor a node. -/
theorem climbs_ne_empty {hs : Hasher D} (hi : hs.Ideal) {d c : D}
    (hc : Climbs (htreeScheme hs) d c) : c ≠ (htreeScheme hs).empty := by
  intro h
  cases hc <;>
  · have hbytes := hi.sum_injective h
    simp at hbytes

/-- **Soundness of `VerifyInclusion`.** Under an ideal hash, a proof for a leaf below the width of
the digests verifies, against their tree hash, only the digest at that leaf, however many terms it
has; and whatever leaf and width a proof claims, only a digest of the list verifies. -/
theorem VerifyInclusion_sound [DecidableEq D] {hs : Hasher D} (hi : hs.Ideal) (ds : List D)
    (d : D) :
    (∀ p : InclusionProof D, p.Width = ds.length → 0 ≤ p.Leaf → p.Leaf < p.Width →
      VerifyInclusion hs p d (mth (htreeScheme hs) ds) = true → ds[p.Leaf.toNat]? = some d) ∧
    ∀ p : InclusionProof D, VerifyInclusion hs p d (mth (htreeScheme hs) ds) = true → d ∈ ds := by
  have hS := htreeScheme_binding hi
  refine ⟨?_, ?_⟩
  · rintro ⟨leaf, width, ts⟩ hw h0 hlt hv
    dsimp only at hw h0 hlt hv ⊢
    obtain ⟨i, rfl⟩ := Int.eq_ofNat_of_zero_le h0
    subst hw
    -- on the leaf's and the last leaf's positions the loop is the bit-walking fold
    have hW : (ds.length : Int) - 1 = ((ds.length - 1 : Nat) : Int) := by omega
    unfold VerifyInclusion at hv
    rw [hW, verifyLoop_eq] at hv
    simp only [Nat.cast_inj, decide_eq_true_eq] at hv
    obtain ⟨hmet, hroot⟩ := hv
    rw [Int.toNat_natCast]
    exact hS.walkPath_sound ds le_rfl (by omega) (by rw [List.take_length]; exact hroot.symm) hmet
  · rintro ⟨leaf, width, ts⟩ hv
    have hc := climbs_verifyLoop hs ts leaf (width - 1) (Climbs.leaf (S := htreeScheme hs) (x := d))
    unfold VerifyInclusion at hv
    dsimp only at hv
    generalize verifyLoop hs ts leaf (width - 1) ((htreeScheme hs).leaf d) = res at hv hc
    obtain ⟨c, i, r⟩ := res
    dsimp only at hc
    simp only [decide_eq_true_eq] at hv
    -- the tree hash of no digests is not a walk's
    by_cases hds : ds = []
    · subst hds
      rw [mth_nil] at hv
      exact absurd hv.2.symm (climbs_ne_empty hi hc)
    · exact hS.mem_of_climbs hc hds hv.2.symm

/-- Soundness for three digests under the escaping hasher. -/
theorem VerifyInclusion_sound_three :
    escape.Ideal ∧
      (∀ p : InclusionProof (List UInt8), p.Width = ([[1], [2], [3]] : List (List UInt8)).length →
        0 ≤ p.Leaf → p.Leaf < p.Width →
        VerifyInclusion escape p [2] (mth (htreeScheme escape) [[1], [2], [3]]) = true →
        ([[1], [2], [3]] : List (List UInt8))[p.Leaf.toNat]? = some [2]) ∧
      ∀ p : InclusionProof (List UInt8),
        VerifyInclusion escape p [2] (mth (htreeScheme escape) [[1], [2], [3]]) = true →
        [2] ∈ ([[1], [2], [3]] : List (List UInt8)) :=
  ⟨escape_ideal, VerifyInclusion_sound escape_ideal _ _⟩

/-! ## 7. Runs of builds -/

section Runs

/-- A build, failed or not, keeps the width bound and the shape of the arrays. -/
theorem BuildWith_shape {t t' : HTree D} (hS : Shape t.maxWidth t.levels) (ds : List D)
    (h : t.BuildWith hs ds = .ok t') : t'.maxWidth = t.maxWidth ∧ Shape t'.maxWidth t'.levels := by
  by_cases hgt : ds.length > t.maxWidth
  · -- too many digests: Go returns ErrMaxWidthExceeded
    simp only [HTree.BuildWith, if_pos hgt] at h
    cases h
  by_cases h0 : ds.length = 0
  · -- no digests: only the width and the root change
    simp only [HTree.BuildWith, if_neg hgt, if_pos h0] at h
    cases h
    exact ⟨rfl, hS⟩
  · have h1 : 1 ≤ ds.length := by omega
    have h2 : ds.length ≤ t.maxWidth := by omega
    obtain ⟨t'', hbuild, hmw, -, hS'', -⟩ := BuildWith_ok hs hS h1 h2
    rw [hbuild] at h
    cases h
    exact ⟨hmw, hS''⟩

/-- Every tree `New(maxWidth)` and any run of builds leave has the shape `New` gave it. -/
theorem buildAll_shape {mw : Nat} (hmw : 0 < mw) (dss : List (List D)) :
    (buildAll hs mw dss).maxWidth = mw ∧ Shape mw (buildAll hs mw dss).levels := by
  refine Machine.foldl_invariant (fun t : HTree D => t.maxWidth = mw ∧ Shape mw t.levels) _ ?_ dss
    ⟨rfl, shape_New hs hmw⟩
  rintro t ds ⟨htw, hS⟩
  split
  · next t' hbuild =>
    obtain ⟨hmw', hS'⟩ := BuildWith_shape hs (htw ▸ hS) ds hbuild
    exact ⟨hmw'.trans htw, hmw'.trans htw ▸ hS'⟩
  · exact ⟨htw, hS⟩

/-- On a tree made by `New(maxWidth)` and used by any builds before, `BuildWith` of at most
`maxWidth` digests succeeds with the RFC 6962 root, the root of no digests included. -/
theorem buildAll_BuildWith_root (maxWidth : Nat) (dss : List (List D)) {ds : List D}
    (h : ds.length ≤ maxWidth) :
    ∃ t', (buildAll hs maxWidth dss).BuildWith hs ds = .ok t' ∧ t'.Root = mth (htreeScheme hs) ds := by
  by_cases h0 : ds = []
  · -- no digests: the root is the hash of nothing
    subst h0
    refine ⟨_, rfl, ?_⟩
    rw [mth_nil]
    rfl
  · have h1 : 1 ≤ ds.length := List.length_pos_of_ne_nil h0
    obtain ⟨hmw, hS⟩ := buildAll_shape hs (show 0 < maxWidth by omega) dss
    have hS' : Shape (buildAll hs maxWidth dss).maxWidth (buildAll hs maxWidth dss).levels := by
      rw [hmw]
      exact hS
    obtain ⟨t', hbuild, -, -, -, hroot, -⟩ := BuildWith_ok hs hS' h1 (by rw [hmw]; exact h)
    exact ⟨t', hbuild, hroot⟩

/-- **The HTree is a Merkle tree.** On a tree made by `New(maxWidth)` and used by any builds
before, `BuildWith` of `1` to `maxWidth` digests succeeds, its root is the RFC 6962 hash of the
digests, and the inclusion proof of every leaf is produced without a read out of range and
verifies that leaf against the root. -/
theorem build_root_eq_mth_and_proofs_verify [DecidableEq D] (maxWidth : Nat)
    (dss : List (List D)) (ds : List D) (h1 : 1 ≤ ds.length) (h2 : ds.length ≤ maxWidth) :
    ∃ t', (buildAll hs maxWidth dss).BuildWith hs ds = .ok t' ∧
      t'.Root = mth (htreeScheme hs) ds ∧
      ∀ i d, ds[i]? = some d →
        ∃ p, t'.InclusionProof i = .ok p ∧ VerifyInclusion hs p d t'.Root = true := by
  obtain ⟨hmw, hS⟩ := buildAll_shape hs (show 0 < maxWidth by omega) dss
  have hS' : Shape (buildAll hs maxWidth dss).maxWidth (buildAll hs maxWidth dss).levels := by
    rw [hmw]; exact hS
  obtain ⟨t', hbuild, -, hwidth, -, hroot, L, hL, hholds⟩ :=
    BuildWith_ok hs hS' h1 (by rw [hmw]; exact h2)
  refine ⟨t', hbuild, hroot, fun i d hd => ?_⟩
  have hi : i < ds.length := (List.getElem?_eq_some_iff.mp hd).1
  refine ⟨_, InclusionProof_ok hs hwidth hL hholds hi, ?_⟩
  rw [hroot]
  exact VerifyInclusion_auditPath hs hd

/-- Three digests in a tree of width four, after a build of one digest. -/
theorem build_root_eq_mth_and_proofs_verify_three :
    1 ≤ ([[1], [2], [3]] : List (List UInt8)).length ∧
    ([[1], [2], [3]] : List (List UInt8)).length ≤ 4 ∧
    ∃ t', (buildAll escape 4 [[[9]]]).BuildWith escape [[1], [2], [3]] = .ok t' ∧
      t'.Root = mth (htreeScheme escape) [[1], [2], [3]] ∧
      ∀ i d, ([[1], [2], [3]] : List (List UInt8))[i]? = some d →
        ∃ p, t'.InclusionProof i = .ok p ∧ VerifyInclusion escape p d t'.Root = true :=
  ⟨by decide, by decide,
    build_root_eq_mth_and_proofs_verify escape 4 [[[9]]] [[1], [2], [3]] (by decide) (by decide)⟩

end Runs

end Immudb.Htree
