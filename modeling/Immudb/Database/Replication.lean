import Immudb.Store.Allowance

/-!
# `Immudb/Database/Replication.lean` — synchronous replication on the primary

`pkg/database/database.go`. With `syncAcks = k`, a primary commits only what `k` replicas have
acknowledged. Each replica reports its state when it asks for the next transaction
(`ExportTxByID`). The primary checks the report against its own headers, then records it in
`replicaStates` under the replica's UUID (`mayUpdateReplicaState`): entries at or below the
committed id are dropped, and once at least `k` replicas are tracked, the least precommitted id
among them is passed to the store's `AllowCommitUpto`. The store runs with an external commit
allowance, so it never commits past that (`Immudb/Store/Allowance.lean`).

Calls of `ExportTxByID` run concurrently. Each reads the committed id and checks its report
first, and only then takes the mutex of `replicaStates`; commits and syncs of the store go on
in between. A run of the primary (`Primary`, `step`) therefore interleaves the first half of a
call (`exportBegin`), its second half (`exportEnd`), local commits and syncs. The durable
precommitted id that `PrecommittedAlh` returns is given by the caller of `exportBegin`: the
store model does not track which precommitted transactions are durable.

`committed_acknowledged`: in every run, the committed id is `0` or at least `k` distinct
replicas have sent an accepted report of a precommitted id at least as large.
-/

set_option autoImplicit false

namespace Immudb.Database

open Machine Store Hashing

variable {D : Type}

/-- `schema.ReplicaState`. -/
structure ReplicaState (D : Type) where
  UUID : String
  CommittedTxID : Nat
  CommittedAlh : D
  PrecommittedTxID : Nat
  PrecommittedAlh : D

/-- `replicaState`, what the primary keeps of one replica. -/
structure ReplicaEntry (D : Type) where
  precommittedTxID : Nat
  precommittedAlh : D

/-- `replicaStates`, a map from UUIDs: each UUID once. -/
structure ReplicaStates (D : Type) where
  entries : List (String × ReplicaEntry D)
  nodup : (entries.map Prod.fst).Nodup

namespace ReplicaStates

/-- `make(map[string]*replicaState)`. -/
def empty : ReplicaStates D := ⟨[], List.nodup_nil⟩

/-- The loop that deletes the replicas at or below the committed id. -/
def prune (m : ReplicaStates D) (committedTxID : Nat) : ReplicaStates D :=
  ⟨m.entries.filter fun e => ¬ e.2.precommittedTxID ≤ committedTxID,
    m.nodup.sublist (List.filter_sublist.map _)⟩

/-- `d.replicaStates[uuid]`. -/
def lookup (m : ReplicaStates D) (uuid : String) : Option (ReplicaEntry D) :=
  (m.entries.find? fun e => e.1 = uuid).map Prod.snd

/-- Writing the entry of `uuid`: in place when it is tracked, as a new entry otherwise. -/
def set (m : ReplicaStates D) (uuid : String) (st : ReplicaEntry D) : ReplicaStates D :=
  if h : uuid ∈ m.entries.map Prod.fst then
    ⟨m.entries.map fun e => if e.1 = uuid then (uuid, st) else e, by
      have hkeys : (m.entries.map fun e => if e.1 = uuid then (uuid, st) else e).map Prod.fst =
          m.entries.map Prod.fst := by
        rw [List.map_map]
        apply List.map_congr_left
        intro e _
        by_cases he : e.1 = uuid <;> simp [he]
      rw [hkeys]
      exact m.nodup⟩
  else
    ⟨m.entries ++ [(uuid, st)], by
      rw [List.map_append, List.nodup_append]
      exact ⟨m.nodup, List.nodup_singleton _, fun a ha b hb => by
        simp only [List.map_cons, List.map_nil, List.mem_singleton] at hb
        rintro rfl
        exact h (hb ▸ ha)⟩⟩

/-- The loop that finds the least precommitted id: `math.MaxUint64` for a non-empty map, `0`
for an empty one, lowered by each entry. -/
def mayCommitUpToTxID (m : ReplicaStates D) : Nat :=
  m.entries.foldl (fun acc e => if e.2.precommittedTxID < acc then e.2.precommittedTxID else acc)
    (if m.entries.length > 0 then 2 ^ 64 - 1 else 0)

end ReplicaStates

/-- The errors of the replication path. -/
inductive DbError where
  | illegalArguments
  | illegalState
  | replicaDivergedFromPrimary
  | store (e : StoreError)

/-- The fields of `db` the replication path reads and writes. -/
structure Db (D : Type) where
  st : ImmuStore D
  replicaStates : ReplicaStates D
  syncAcks : Nat

/-- A method of `db`. -/
abbrev DbM (D : Type) := EStateM DbError (Db D)

/-- A call of a store method. -/
def withStore {α : Type} (m : StoreM D α) : DbM D α := fun d =>
  match m.run d.st with
  | .ok a st => .ok a { d with st }
  | .error e st => .error (.store e) { d with st }

/-! ## 1. `ExportTxByID` -/

/-- The checks of `ExportTxByID` on the replica state a request carries, against the store's
committed id and the durable precommitted id `preCommittedTxID`: the reported committed and
precommitted transactions must exist on the primary, with the reported `Alh`. The committed id
read is returned. -/
def validateReplicaState [DecidableEq D] (hs : Hasher D) (st : ImmuStore D)
    (preCommittedTxID : Nat) (rs : ReplicaState D) : Except DbError Nat := do
  let committedTxID := st.committedTxID
  if rs.CommittedTxID > 0 then
    if rs.CommittedTxID > committedTxID then throw .replicaDivergedFromPrimary
    let hdr ← (st.readTxHeader rs.CommittedTxID false).mapError .store
    -- `Alh()` panics on an unknown version
    let some alh := hdr.alh hs | throw (.store .missingSerializationMethod)
    if alh ≠ rs.CommittedAlh then throw .replicaDivergedFromPrimary
  if rs.PrecommittedTxID > 0 then
    if rs.PrecommittedTxID > preCommittedTxID then throw .replicaDivergedFromPrimary
    let hdr ← (st.readTxHeader rs.PrecommittedTxID true).mapError .store
    let some alh := hdr.alh hs | throw (.store .missingSerializationMethod)
    if alh ≠ rs.PrecommittedAlh then throw .replicaDivergedFromPrimary
  pure committedTxID

/-- `mayUpdateReplicaState(committedTxID, newReplicaState)`. -/
def mayUpdateReplicaState (hs : Hasher D) (committedTxID : Nat) (rs : ReplicaState D) :
    DbM D Unit := do
  -- it's safe to remove up to latest tx committed in primary
  modify fun d => { d with replicaStates := d.replicaStates.prune committedTxID }
  -- as far as the primary is concerned, nothing really new has happened
  if rs.PrecommittedTxID ≤ committedTxID then return
  let d ← get
  if let some st := d.replicaStates.lookup rs.UUID then
    if rs.PrecommittedTxID < st.precommittedTxID then throw .illegalArguments
    if rs.PrecommittedTxID = st.precommittedTxID then return
  set { d with
    replicaStates := d.replicaStates.set rs.UUID ⟨rs.PrecommittedTxID, rs.PrecommittedAlh⟩ }
  -- check up to which tx enough replicas ack replication and it's safe to commit
  let d ← get
  if d.replicaStates.entries.length ≥ d.syncAcks then
    withStore (AllowCommitUpto hs d.replicaStates.mayCommitUpToTxID)

/-- `ExportTxByID` of a request with a replica state, up to the export itself, which changes
nothing. -/
def ExportTxByID [DecidableEq D] (hs : Hasher D) (preCommittedTxID : Nat) (rs : ReplicaState D) :
    DbM D Unit := do
  let d ← get
  match validateReplicaState hs d.st preCommittedTxID rs with
  | .error e => throw e
  | .ok committedTxID => mayUpdateReplicaState hs committedTxID rs

/-! ## 2. Runs of the primary -/

/-- The primary, with the calls of `ExportTxByID` that have read the committed id and checked
their report, and wait for the mutex of `replicaStates`. -/
structure Primary (D : Type) where
  db : Db D
  calls : List (Nat × ReplicaState D)

/-- What happens on the primary. -/
inductive Op (D : Type) where
  /-- a call of `ExportTxByID` up to the mutex, with the durable precommitted id it reads -/
  | exportBegin (preCommittedTxID : Nat) (rs : ReplicaState D)
  /-- the rest of a waiting call -/
  | exportEnd (j : Nat)
  | commit (ts : Int) (md : List UInt8) (nentries : Int) (eh pooledBlRoot : D)
  | sync

/-- One step. -/
def step [DecidableEq D] (hs : Hasher D) (p : Primary D) : Op D → Primary D
  | .exportBegin pre rs =>
    match validateReplicaState hs p.db.st pre rs with
    | .ok c => { p with calls := p.calls ++ [(c, rs)] }
    | .error _ => p
  | .exportEnd j =>
    match p.calls[j]? with
    | some (c, rs) =>
      { db := endState ((mayUpdateReplicaState hs c rs).run p.db), calls := p.calls.eraseIdx j }
    | none => p
  | .commit ts md nentries eh pooledBlRoot =>
    let st := endState ((Store.commit hs ts md nentries eh pooledBlRoot).run p.db.st)
    { p with db := { p.db with st } }
  | .sync => { p with db := { p.db with st := endState ((Sync hs).run p.db.st) } }

/-- A run. -/
def run [DecidableEq D] (hs : Hasher D) (p : Primary D) (ops : List (Op D)) : Primary D :=
  ops.foldl (step hs) p

/-- A primary over a new store, with `syncAcks = k`. -/
def init (hs : Hasher D) (opts : Options) (k : Nat) : Primary D :=
  ⟨⟨Store.empty hs opts, .empty, k⟩, []⟩

/-! ## 3. What the replicas acknowledged -/

/-- The replica state an operation brings that the primary accepts. -/
def accepted [DecidableEq D] (hs : Hasher D) (p : Primary D) : Op D → List (ReplicaState D)
  | .exportBegin pre rs =>
    match validateReplicaState hs p.db.st pre rs with
    | .ok _ => [rs]
    | .error _ => []
  | _ => []

/-- The replica states of a run that the primary accepted. -/
def reports [DecidableEq D] (hs : Hasher D) : Primary D → List (Op D) → List (ReplicaState D)
  | _, [] => []
  | p, op :: ops => accepted hs p op ++ reports hs (step hs p op) ops

/-- At least `k` distinct replicas have each sent an accepted report of a precommitted id of at
least `t`. -/
def Acked (k : Nat) (rs : List (ReplicaState D)) (t : Nat) : Prop :=
  ∃ us : List String, us.Nodup ∧ k ≤ us.length ∧
    ∀ u ∈ us, ∃ r ∈ rs, r.UUID = u ∧ t ≤ r.PrecommittedTxID

/-! ## 4. The map of replica states -/

namespace ReplicaStates

variable {m : ReplicaStates D}

theorem mem_prune {c : Nat} {e : String × ReplicaEntry D} (h : e ∈ (m.prune c).entries) :
    e ∈ m.entries :=
  (List.mem_filter.mp h).1

theorem mem_set {u : String} {st : ReplicaEntry D} {e : String × ReplicaEntry D}
    (h : e ∈ (m.set u st).entries) : e = (u, st) ∨ e ∈ m.entries := by
  unfold set at h
  split at h
  · -- in place: the entry of `u` is replaced, the others stay
    obtain ⟨e', he', rfl⟩ := List.mem_map.mp h
    by_cases hu : e'.1 = u
    · left; simp [hu]
    · right; simpa [hu] using he'
  · rcases List.mem_append.mp h with h | h
    · right; exact h
    · left; simpa using h

/-- The loop of `mayCommitUpToTxID` never raises its accumulator, and lowers it to every entry it
passes. -/
theorem foldl_min_le : ∀ (l : List (String × ReplicaEntry D)) (acc : Nat),
    l.foldl (fun acc e => if e.2.precommittedTxID < acc then e.2.precommittedTxID else acc) acc ≤
        acc ∧
      ∀ e ∈ l, l.foldl (fun acc e => if e.2.precommittedTxID < acc then e.2.precommittedTxID
        else acc) acc ≤ e.2.precommittedTxID
  | [], _ => ⟨Nat.le_refl _, fun _ h => absurd h List.not_mem_nil⟩
  | e :: l, acc => by
    obtain ⟨hacc, hl⟩ := foldl_min_le l
      (if e.2.precommittedTxID < acc then e.2.precommittedTxID else acc)
    have hstep : (if e.2.precommittedTxID < acc then e.2.precommittedTxID else acc) ≤ acc ∧
        (if e.2.precommittedTxID < acc then e.2.precommittedTxID else acc) ≤
          e.2.precommittedTxID := by
      split <;> omega
    refine ⟨Nat.le_trans hacc hstep.1, fun e' he' => ?_⟩
    rcases List.mem_cons.mp he' with rfl | he'
    · exact Nat.le_trans hacc hstep.2
    · exact hl e' he'

/-- The least precommitted id is at most that of every tracked replica. -/
theorem mayCommitUpToTxID_le {e : String × ReplicaEntry D} (he : e ∈ m.entries) :
    m.mayCommitUpToTxID ≤ e.2.precommittedTxID :=
  (foldl_min_le m.entries _).2 e he

end ReplicaStates

/-! ## 5. Acknowledgements -/

section Acked

variable {k t : Nat} {R R' : List (ReplicaState D)}

theorem Acked.mono (h : Acked k R t) (hR : ∀ r ∈ R, r ∈ R') : Acked k R' t := by
  obtain ⟨us, hnd, hk, hus⟩ := h
  refine ⟨us, hnd, hk, fun u hu => ?_⟩
  obtain ⟨r, hr, hru, hrt⟩ := hus u hu
  exact ⟨r, hR r hr, hru, hrt⟩

theorem Acked.anti {t' : Nat} (h : Acked k R t) (ht : t' ≤ t) : Acked k R t' := by
  obtain ⟨us, hnd, hk, hus⟩ := h
  refine ⟨us, hnd, hk, fun u hu => ?_⟩
  obtain ⟨r, hr, hru, hrt⟩ := hus u hu
  exact ⟨r, hr, hru, Nat.le_trans ht hrt⟩

/-- Every tracked replica has an accepted report of its entry. -/
def Recorded (R : List (ReplicaState D)) (m : ReplicaStates D) : Prop :=
  ∀ e ∈ m.entries, ∃ r ∈ R, r.UUID = e.1 ∧ r.PrecommittedTxID = e.2.precommittedTxID

/-- `k` tracked replicas acknowledge the least precommitted id among them. -/
theorem acked_mayCommitUpToTxID {m : ReplicaStates D} (hm : Recorded R m)
    (hk : k ≤ m.entries.length) : Acked k R m.mayCommitUpToTxID := by
  refine ⟨m.entries.map Prod.fst, m.nodup, by simpa using hk, fun u hu => ?_⟩
  obtain ⟨e, he, rfl⟩ := List.mem_map.mp hu
  obtain ⟨r, hr, hru, hrp⟩ := hm e he
  exact ⟨r, hr, hru, hrp ▸ m.mayCommitUpToTxID_le he⟩

end Acked

/-! ## 6. The replication path commits only what `k` replicas acknowledged -/

/-- What the database of the primary keeps along a run whose accepted reports are `R`: the
external allowance, and a committed id and an allowance that are `0` or acknowledged by `k`
replicas, with every tracked replica recorded in `R`. -/
structure DbSafe (k : Nat) (R : List (ReplicaState D)) (d : Db D) : Prop where
  external : d.st.useExternalCommitAllowance = true
  syncAcks : d.syncAcks = k
  committed : d.st.committedTxID = 0 ∨ Acked k R d.st.committedTxID
  allowed : d.st.commitAllowedUpToTxID = 0 ∨ Acked k R d.st.commitAllowedUpToTxID
  recorded : Recorded R d.replicaStates

section Safety

variable {k : Nat} {R : List (ReplicaState D)} {d : Db D}

/-- A store call that commits only up to the allowance keeps the database safe. -/
theorem DbSafe.store {st : ImmuStore D} (h : DbSafe k R d) (hst : CommitsToAllowance d.st st) :
    DbSafe k R { d with st } := by
  refine ⟨hst.external.trans h.external, h.syncAcks, ?_, hst.allowed ▸ h.allowed, h.recorded⟩
  rcases hst.committed with hc | hc
  · show st.committedTxID = 0 ∨ _
    rw [hc]; exact h.committed
  · show st.committedTxID = 0 ∨ _
    rw [hc]; exact h.allowed

/-- A new allowance that `k` replicas acknowledge keeps the database safe. -/
theorem DbSafe.allow {st : ImmuStore D} {m : Nat} (h : DbSafe k R d) (hm : Acked k R m)
    (hst : AllowsUpTo m d.st st) : DbSafe k R { d with st } := by
  have hallowed : st.commitAllowedUpToTxID = 0 ∨ Acked k R st.commitAllowedUpToTxID := by
    rcases hst.allowed with ha | ha
    · rw [ha]; exact h.allowed
    · right; exact hm.anti ha
  refine ⟨hst.external.trans h.external, h.syncAcks, ?_, hallowed, h.recorded⟩
  rcases hst.committed with hc | hc
  · show st.committedTxID = 0 ∨ _
    rw [hc]; exact h.committed
  · show st.committedTxID = 0 ∨ _
    rw [hc]; exact hallowed

/-- More accepted reports keep the database safe. -/
theorem DbSafe.mono {R' : List (ReplicaState D)} (h : DbSafe k R d)
    (hR : ∀ r ∈ R, r ∈ R') : DbSafe k R' d := by
  refine ⟨h.external, h.syncAcks, h.committed.imp_right fun h => h.mono hR,
    h.allowed.imp_right fun h => h.mono hR, fun e he => ?_⟩
  obtain ⟨r, hr, hu, hp⟩ := h.recorded e he
  exact ⟨r, hR r hr, hu, hp⟩

theorem DbSafe.prune {c : Nat} (h : DbSafe k R d) :
    DbSafe k R { d with replicaStates := d.replicaStates.prune c } :=
  ⟨h.external, h.syncAcks, h.committed, h.allowed,
    fun e he => h.recorded e (ReplicaStates.mem_prune he)⟩

/-- Recording an accepted report keeps the database safe. -/
theorem DbSafe.record {rs : ReplicaState D} (h : DbSafe k R d) (hr : rs ∈ R) :
    DbSafe k R { d with replicaStates :=
      d.replicaStates.set rs.UUID ⟨rs.PrecommittedTxID, rs.PrecommittedAlh⟩ } := by
  refine ⟨h.external, h.syncAcks, h.committed, h.allowed, fun e he => ?_⟩
  rcases ReplicaStates.mem_set he with rfl | he
  · exact ⟨rs, hr, rfl, rfl⟩
  · exact h.recorded e he

theorem withStore_run {α : Type} {m : StoreM D α} :
    endState ((withStore m).run d) = { d with st := endState (m.run d.st) } := by
  show endState (match m.run d.st with
    | .ok a st => EStateM.Result.ok a { d with st }
    | .error e st => .error (DbError.store e) { d with st }) = _
  split <;> rename_i heq <;> rw [heq] <;> rfl

theorem withStore_AllowCommitUpto_safe (hs : Hasher D) {m : Nat} (hm : Acked k R m) :
    Keeps (Preserves (DbSafe k R)) (withStore (AllowCommitUpto hs m)) d := by
  intro h
  rw [withStore_run]
  exact h.allow hm (AllowCommitUpto_keeps hs m)

theorem mayUpdateReplicaState_safe (hs : Hasher D) {c : Nat} {rs : ReplicaState D} (hr : rs ∈ R) :
    Keeps (Preserves (DbSafe k R)) (mayUpdateReplicaState hs c rs) d := by
  unfold mayUpdateReplicaState
  refine Keeps.bind (Keeps.modifyGet fun h => h.prune) fun _ d₁ _ _ => ?_
  refine Keeps.ite (fun _ => Keeps.pure _) fun _ => ?_
  refine Keeps.get_bind ?_
  extract_lets jp
  -- the report is recorded, and the least precommitted id of the tracked replicas allowed
  have hjp : Keeps (Preserves (DbSafe k R)) (jp ()) d₁ := by
    refine Keeps.bind (Keeps.set fun h => h.record hr) fun _ d₂ h₂ _ => ?_
    cases h₂
    refine Keeps.get_bind (Keeps.ite (fun hk h₂ => ?_) fun _ => Keeps.pure _)
    exact withStore_AllowCommitUpto_safe hs
      (acked_mayCommitUpToTxID h₂.recorded (h₂.syncAcks ▸ hk)) h₂
  split
  · -- a replica already tracked: a report that lags is refused, one that repeats changes nothing
    refine Keeps.ite (fun _ => Keeps.bind (Keeps.throw _) fun _ _ h _ => by cases h) fun _ => ?_
    exact Keeps.ite (fun _ => Keeps.pure _) fun _ => hjp
  · exact hjp

end Safety

/-! ## 7. Runs -/

/-- What a run of the primary keeps, with `R` the reports accepted so far: the database is safe,
and every waiting call carries an accepted report. -/
structure Safe (k : Nat) (R : List (ReplicaState D)) (p : Primary D) : Prop where
  db : DbSafe k R p.db
  calls : ∀ c rs, (c, rs) ∈ p.calls → rs ∈ R

section Runs

variable [DecidableEq D] (hs : Hasher D) {k : Nat} {R : List (ReplicaState D)}

/-- One step keeps the primary safe, with the report it accepts added. -/
theorem step_safe {p : Primary D} (h : Safe k R p) (op : Op D) :
    Safe k (R ++ accepted hs p op) (step hs p op) := by
  have hR : ∀ r ∈ R, r ∈ R ++ accepted hs p op := fun r hr => List.mem_append_left _ hr
  cases op with
  | exportBegin pre rs =>
    -- a checked report is accepted, and its call waits
    cases hv : validateReplicaState hs p.db.st pre rs with
    | error e => simpa [step, accepted, hv] using h
    | ok c =>
      simp only [step, accepted, hv] at hR ⊢
      refine ⟨h.db.mono hR, fun c' r hc => ?_⟩
      rcases List.mem_append.mp hc with hc | hc
      · exact hR r (h.calls c' r hc)
      · obtain ⟨-, rfl⟩ := Prod.mk.inj (List.mem_singleton.mp hc)
        exact List.mem_append_right _ (List.mem_singleton_self _)
  | exportEnd j =>
    -- the waiting call's report was accepted when the call began
    simp only [step, accepted, List.append_nil]
    split
    · rename_i c rs hj
      have hrs : rs ∈ R := h.calls c rs (List.mem_of_getElem? hj)
      exact ⟨mayUpdateReplicaState_safe hs hrs h.db,
        fun c' r hc => h.calls c' r (List.mem_of_mem_eraseIdx hc)⟩
    · exact h
  | commit ts md nentries eh pooledBlRoot =>
    simp only [step, accepted, List.append_nil]
    exact ⟨h.db.store (commit_keeps hs h.db.external ts md nentries eh pooledBlRoot), h.calls⟩
  | sync =>
    simp only [step, accepted, List.append_nil]
    exact ⟨h.db.store (Sync_keeps hs h.db.external), h.calls⟩

/-- A run keeps the primary safe, with the reports it accepts added. -/
theorem run_safe (ops : List (Op D)) : ∀ {p : Primary D} {R : List (ReplicaState D)},
    Safe k R p → Safe k (R ++ reports hs p ops) (run hs p ops) := by
  induction ops with
  | nil => intro p R h; simpa [run, reports] using h
  | cons op ops ih =>
    intro p R h
    have := ih (step_safe hs h op)
    rw [List.append_assoc] at this
    exact this

omit [DecidableEq D] in
/-- A new primary with an external allowance is safe, with no report yet. -/
theorem init_safe (opts : Options) (hext : opts.useExternalCommitAllowance = true) :
    Safe k [] (init hs opts k) :=
  ⟨⟨hext, rfl, Or.inl rfl, Or.inl rfl, fun _ he => absurd he List.not_mem_nil⟩,
    fun _ _ hc => absurd hc List.not_mem_nil⟩

/-- On a primary with an external commit allowance and `syncAcks = k`, every run of exports,
commits and syncs leaves a committed id that is `0` or acknowledged by `k` distinct replicas
with accepted reports. -/
theorem committed_acknowledged (opts : Options) (hext : opts.useExternalCommitAllowance = true)
    (k : Nat) (ops : List (Op D)) :
    (run hs (init hs opts k) ops).db.st.committedTxID = 0 ∨
      Acked k (reports hs (init hs opts k) ops)
        (run hs (init hs opts k) ops).db.st.committedTxID := by
  have h := run_safe hs ops (init_safe hs opts hext (k := k))
  rw [List.nil_append] at h
  exact h.db.committed

end Runs

/-- Options of a synced store with an external allowance. -/
def syncedExternal : Options :=
  ⟨true, 1, 1, true, ⟨1, false, fun _ => Nat.one_pos⟩, Nat.one_pos, Or.inr rfl, rfl⟩

/-- A replica's report of its first transaction. -/
def firstReport : ReplicaState (List UInt8) := ⟨"r1", 0, [], 1, []⟩

/-- A commit, a replica's report of it, and a sync. -/
def exportRun : List (Op (List UInt8)) :=
  [.commit 0 [] 1 [] [], .exportBegin 1 firstReport, .exportEnd 0, .sync]

theorem committed_acknowledged_export :
    syncedExternal.useExternalCommitAllowance = true ∧
      ((run escape (init escape syncedExternal 1) exportRun).db.st.committedTxID = 0 ∨
        Acked 1 (reports escape (init escape syncedExternal 1) exportRun)
          (run escape (init escape syncedExternal 1) exportRun).db.st.committedTxID) :=
  ⟨rfl, committed_acknowledged escape syncedExternal rfl 1 exportRun⟩

end Immudb.Database
