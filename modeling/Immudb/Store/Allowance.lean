import Immudb.Lib.Machine
import Immudb.Store.ImmuStore

/-!
# `Immudb/Store/Allowance.lean` — the committed transaction never passes the commit allowance

With an external commit allowance (`useExternalCommitAllowance`), a store commits only what
`AllowCommitUpto` allowed: the one place that moves `committedTxID` is the end of `mayCommit`,
behind the safety fuse that checks the last committed id against the allowance. So every call of
the pipeline either leaves the committed id where it was or brings it to the allowance, and only
`AllowCommitUpto(txID)` moves the allowance, never past `txID`.

`CommitsToAllowance` says so as a relation between the state a call starts in and the state it
ends in, error or not; the rules of `Immudb/Lib/Machine.lean` carry it through the calls of each
method, with one lemma per method.
-/

set_option autoImplicit false

namespace Immudb.Store

open Machine Appendable PrecommitBuffer

variable {D : Type}

/-- What a call may do to the commit state: the allowance and its mode stay, and the committed
id stays or moves to the allowance. -/
structure CommitsToAllowance (s s' : ImmuStore D) : Prop where
  external : s'.useExternalCommitAllowance = s.useExternalCommitAllowance
  allowed : s'.commitAllowedUpToTxID = s.commitAllowedUpToTxID
  committed : s'.committedTxID = s.committedTxID ∨ s'.committedTxID = s.commitAllowedUpToTxID

namespace CommitsToAllowance

/-- A change of other fields. -/
theorem frame {s s' : ImmuStore D}
    (h₁ : s'.useExternalCommitAllowance = s.useExternalCommitAllowance)
    (h₂ : s'.commitAllowedUpToTxID = s.commitAllowedUpToTxID)
    (h₃ : s'.committedTxID = s.committedTxID) : CommitsToAllowance s s' :=
  ⟨h₁, h₂, Or.inl h₃⟩

instance : Std.Refl (CommitsToAllowance (D := D)) := ⟨fun _ => frame rfl rfl rfl⟩

instance : IsTrans (ImmuStore D) CommitsToAllowance where
  trans s₁ s₂ s₃ h₁₂ h₂₃ := by
    refine ⟨h₂₃.external.trans h₁₂.external, h₂₃.allowed.trans h₁₂.allowed, ?_⟩
    -- the second call moves the committed id to an allowance the first one kept
    rcases h₂₃.committed with h | h
    · rw [h]; exact h₁₂.committed
    · right; rw [h, h₁₂.allowed]

end CommitsToAllowance

/-! ## 1. Calls into the parts -/

section Helpers

variable {α : Type} {s : ImmuStore D}

theorem withAht_keeps (m : Ahtree.AhtM D α) : Keeps CommitsToAllowance (withAht m) s := by
  unfold Keeps EStateM.run withAht
  split <;> exact .frame rfl rfl rfl

theorem liftBuffer_keeps (r : Except BufferError α) :
    Keeps CommitsToAllowance (liftBuffer r) s := by
  cases r with
  | ok a => exact Keeps.pure a
  | error e => exact Keeps.throw _

theorem liftLog_keeps (r : Except LogError α) : Keeps CommitsToAllowance (liftLog r) s := by
  cases r with
  | ok a => exact Keeps.pure a
  | error e => exact Keeps.throw _

/-- A call into the buffer leaves the store as it is. -/
theorem liftBuffer_state {r : Except BufferError α} {a : α} {s' : ImmuStore D}
    (h : (liftBuffer r).run s = .ok a s') : s' = s := by
  cases r with
  | ok b => cases h; rfl
  | error e => cases h

/-- A call into a log leaves the store as it is. -/
theorem liftLog_state {r : Except LogError α} {a : α} {s' : ImmuStore D}
    (h : (liftLog r).run s = .ok a s') : s' = s := by
  cases r with
  | ok b => cases h; rfl
  | error e => cases h

theorem rootAtOrZero_keeps (hs : Hashing.Hasher D) (n : Nat) :
    Keeps CommitsToAllowance (rootAtOrZero hs n) s :=
  Keeps.tryCatch (withAht_keeps _) fun _ _ _ _ =>
    Keeps.ite (fun _ => Keeps.pure _) fun _ => Keeps.throw _

theorem appendTx_keeps (hdr : TxHeader D) : Keeps CommitsToAllowance (appendTx hdr) s :=
  Keeps.modifyGet (.frame rfl rfl rfl)

end Helpers

/-! ## 2. The methods -/

section Methods

variable (hs : Hashing.Hasher D) {s : ImmuStore D}

theorem writeTx_keeps (hdr : TxHeader D) (alh : D) :
    Keeps CommitsToAllowance (writeTx hs hdr alh) s := by
  unfold writeTx
  refine Keeps.bind (appendTx_keeps hdr) fun txOff s₁ _ _ => ?_
  refine Keeps.get_bind ?_
  refine Keeps.bind (withAht_keeps _) fun _ s₂ _ _ => ?_
  refine Keeps.bind (withAht_keeps _) fun _ s₃ _ _ => ?_
  refine Keeps.get_bind ?_
  refine Keeps.bind (liftBuffer_keeps _) fun cLogBuf s₄ h₄ _ => ?_
  obtain rfl := liftBuffer_state h₄
  exact Keeps.set (.frame rfl rfl rfl)

theorem mayCommitLoop_keeps : ∀ (n i : Nat) (last : Nat × D) (s : ImmuStore D),
    Keeps CommitsToAllowance (mayCommitLoop n i last) s
  | 0, _, _, _ => Keeps.pure _
  | n + 1, i, _, s => by
    unfold mayCommitLoop
    refine Keeps.get_bind ?_
    refine Keeps.bind (liftBuffer_keeps _) fun e s₁ h₁ _ => ?_
    obtain rfl := liftBuffer_state h₁
    refine Keeps.bind (Keeps.set (.frame rfl rfl rfl)) fun _ s₂ _ _ => ?_
    exact mayCommitLoop_keeps n (i + 1) _ s₂

/-- `mayCommit` commits up to the allowance, or not at all: the safety fuse checks that the last
transaction it committed is the allowed one. -/
theorem mayCommit_keeps (hext : s.useExternalCommitAllowance = true) :
    Keeps CommitsToAllowance (mayCommit hs) s := by
  unfold mayCommit
  refine Keeps.get_bind ?_
  have hallow : s.commitAllowedUpTo = s.commitAllowedUpToTxID := by
    simp [ImmuStore.commitAllowedUpTo, hext]
  simp only [hallow]
  refine Keeps.ite (fun _ => Keeps.pure _) fun _ => ?_
  refine Keeps.ite (fun _ => Keeps.throw _) fun _ => ?_
  refine Keeps.bind (liftLog_keeps _) fun cLog s₁ h₁ _ => ?_
  obtain rfl := liftLog_state h₁
  refine Keeps.bind (Keeps.set (.frame rfl rfl rfl)) fun _ s₂ h₂ _ => ?_
  cases h₂
  refine Keeps.ite (fun _ => Keeps.throw _) fun _ => ?_
  refine Keeps.bind (mayCommitLoop_keeps _ _ _ _) fun last s₃ _ h₃R => ?_
  refine Keeps.ite (fun _ => Keeps.throw _) fun hfuse => ?_
  refine Keeps.get_bind ?_
  refine Keeps.bind (liftBuffer_keeps _) fun cLogBuf s₄ h₄ _ => ?_
  obtain rfl := liftBuffer_state h₄
  -- past the fuse, the last committed id is the allowance
  refine Keeps.set ⟨rfl, rfl, Or.inr ?_⟩
  show last.1 = s₄.commitAllowedUpToTxID
  rw [h₃R.allowed]
  exact Decidable.of_not_not hfuse

theorem sync_keeps (hext : s.useExternalCommitAllowance = true) :
    Keeps CommitsToAllowance (sync hs) s := by
  unfold sync
  refine Keeps.get_bind ?_
  exact Keeps.ite (fun _ => Keeps.pure _) fun _ => mayCommit_keeps hs hext

theorem Sync_keeps (hext : s.useExternalCommitAllowance = true) :
    Keeps CommitsToAllowance (Sync hs) s := by
  unfold Sync
  refine Keeps.get_bind ?_
  exact Keeps.ite (fun _ => Keeps.throw _) fun _ => sync_keeps hs hext

theorem performPrecommit_keeps (hext : s.useExternalCommitAllowance = true) (body : TxBody D)
    (ts : Int) (blTxID : Nat) :
    Keeps CommitsToAllowance (performPrecommit hs body ts blTxID) s := by
  unfold performPrecommit
  refine Keeps.get_bind ?_
  refine Keeps.ite (fun _ => Keeps.throw _) fun _ => ?_
  refine Keeps.bind (liftLog_keeps _) fun txLog s₁ h₁ _ => ?_
  obtain rfl := liftLog_state h₁
  refine Keeps.bind (Keeps.set (.frame rfl rfl rfl)) fun _ s₂ h₂ _ => ?_
  cases h₂
  -- with or without a root read, the header is built and written
  refine Keeps.ite (fun _ => Keeps.bind (rootAtOrZero_keeps hs _) fun blRoot s₃ _ h₃ => ?_)
    fun _ => Keeps.bind (Keeps.pure _) fun blRoot s₃ _ h₃ => ?_
  all_goals
    have hext₃ : s₃.useExternalCommitAllowance = true := h₃.external.trans hext
    refine Keeps.ite (fun _ => Keeps.bind (Keeps.throw _) fun _ _ h _ => by cases h) fun _ => ?_
    beta_reduce
    split
    · -- a known version: the transaction is written, and committed at once when not synced
      exact Keeps.bind (writeTx_keeps hs _ _) fun _ s₄ _ h₄ =>
        Keeps.ite (fun _ => mayCommit_keeps hs (h₄.external.trans hext₃)) fun _ => Keeps.pure _
    · exact Keeps.throw _

theorem commit_keeps (hext : s.useExternalCommitAllowance = true) (ts : Int) (md : List UInt8)
    (nentries : Int) (eh pooledBlRoot : D) :
    Keeps CommitsToAllowance (commit hs ts md nentries eh pooledBlRoot) s := by
  unfold commit
  refine Keeps.get_bind ?_
  exact Keeps.ite (fun _ => Keeps.throw _) fun _ => performPrecommit_keeps hs hext _ _ _

/-- What `AllowCommitUpto(txID)` may do: keep the mode, keep the allowance or set it to at most
`txID`, and keep the committed id or bring it to the new allowance. -/
structure AllowsUpTo (txID : Nat) (s s' : ImmuStore D) : Prop where
  external : s'.useExternalCommitAllowance = s.useExternalCommitAllowance
  allowed : s'.commitAllowedUpToTxID = s.commitAllowedUpToTxID ∨ s'.commitAllowedUpToTxID ≤ txID
  committed : s'.committedTxID = s.committedTxID ∨ s'.committedTxID = s'.commitAllowedUpToTxID

theorem AllowsUpTo.refl (txID : Nat) (s : ImmuStore D) : AllowsUpTo txID s s :=
  ⟨rfl, Or.inl rfl, Or.inl rfl⟩

theorem AllowCommitUpto_keeps (txID : Nat) :
    Keeps (AllowsUpTo txID) (AllowCommitUpto hs txID) s := by
  unfold Keeps
  rw [AllowCommitUpto, run_get_bind]
  by_cases hext : s.useExternalCommitAllowance = true
  · rw [if_neg (by simp [hext])]
    by_cases hle : txID ≤ s.commitAllowedUpToTxID
    · -- a commit once allowed is not revoked
      rw [if_pos hle]
      exact AllowsUpTo.refl txID s
    · rw [if_neg hle]
      -- the new allowance, then the commits it allows
      set s₁ := { s with commitAllowedUpToTxID :=
        if s.inmemPrecommittedTxID < txID then s.inmemPrecommittedTxID else txID }
      rw [run_bind_ok (show (set s₁ : StoreM D PUnit).run s = .ok () s₁ from rfl)]
      have hext₁ : s₁.useExternalCommitAllowance = true := hext
      have htail : Keeps CommitsToAllowance
          (if (!s.opts.synced) = true then mayCommit hs else pure ()) s₁ :=
        Keeps.ite (fun _ => mayCommit_keeps hs hext₁) fun _ => Keeps.pure ()
      have hle₁ : s₁.commitAllowedUpToTxID ≤ txID := by
        show (if s.inmemPrecommittedTxID < txID then s.inmemPrecommittedTxID else txID) ≤ txID
        split <;> omega
      refine ⟨htail.external.trans rfl, Or.inr ?_, ?_⟩
      · rw [htail.allowed]
        exact hle₁
      · rcases htail.committed with h | h
        · left; exact h
        · right; rw [h, htail.allowed]
  · -- not in the external mode: an error, and nothing changed
    rw [if_pos (by simp [hext])]
    exact AllowsUpTo.refl txID s

end Methods

end Immudb.Store
