import Immudb.Watchers.Hub

/-!
# `Immudb/Watchers/Progress.lean` — what a `WaitFor` call observes, and that it gets through

Two facts about one `WaitFor(ctx, t)` call in any interleaving, both resting on the invariant of
`Hub.lean`.

* **History.** A call that returns `nil` saw `doneUpto ≥ t` at a state of its own execution, after
  it was made and no later than its return. A blocked call is woken by its point's channel; in an
  open hub only `DoneUpto` up to `t` or beyond closes it, since the cleanup of a cancelled call
  closes a point only when that call was its last holder. `Execution.passes_through` turns this
  one-step fact into the statement about the execution.
* **Progress.** Once `doneUpto ≥ t`, the point of a blocked call is closed (`Inv.above`), and a
  closed channel stays closed, so the call's `select` stays ready; under a scheduler weakly fair
  to the call's two steps it leaves the `select` and then takes the mutex again, returning `nil`
  unless the hub has been closed by then. A cancelled context is excluded: then the `select` may
  take the context's case.
-/

set_option autoImplicit false

namespace Immudb.Watchers

open Interleaving WatchersHub

namespace Sys

variable {doneUpto : Nat} {maxWaiting : Int}

/-- A call keeps its `t` along every path. -/
theorem reachable_call_t {s₁ s₂ : Sys} (h : Reachable step s₁ s₂) {k : Nat} {c : Call}
    (hk : s₁.calls[k]? = some c) : ∃ c', s₂.calls[k]? = some c' ∧ c'.t = c.t := by
  induction h with
  | refl => exact ⟨c, hk, rfl⟩
  | tail _ hst ih =>
    obtain ⟨c', hc', hct⟩ := ih
    obtain ⟨e, he⟩ := hst
    obtain ⟨c'', hc'', hct', -⟩ := step_call he hc'
    exact ⟨c'', hc'', hct'.trans hct⟩

/-- Call `k`, for `t`, has returned `nil`, or it waits on a closed point of an open hub. -/
def Released (k t : Nat) (s : Sys) : Prop :=
  ∃ c, s.calls[k]? = some c ∧ c.t = t ∧ (c.phase = .returned (.ok ()) ∨
    (s.hub.closed = false ∧ ∃ p, c.phase.waitsOn p = true ∧ (s.hub.points p).chClosed = true))

/-- One step that leaves call `k` released started from a released call, or reached
`doneUpto ≥ t`. -/
theorem released_step {s s' : Sys} (hinv : s.Inv) {e : Event} (he : s.step e = some s')
    {k t : Nat} (hk : k < s.calls.length) (hrel : Released k t s') :
    Released k t s ∨ t ≤ s'.hub.doneUpto := by
  obtain ⟨c', hc', hct, hph⟩ := hrel
  obtain ⟨c'', hc'', hct', hcase⟩ := step_call he (List.getElem?_eq_getElem hk)
  rw [hc''] at hc'
  cases hc'
  have hmem := List.getElem_mem hk
  rcases hcase with hsame | ⟨p, b, -, hcp, hc'p, -, hhub⟩ | ⟨p, b, -, hcp, hc'p, hhub⟩
  · -- the call did not move: its point was closed already, or this step closed it
    rcases hph with hret | ⟨hopen', p, hwp, hcl'⟩
    · exact .inl ⟨_, List.getElem?_eq_getElem hk, hct'.symm.trans hct, .inl (hsame ▸ hret)⟩
    · have hopen : s.hub.closed = false := by
        cases hcl : s.hub.closed with
        | false => rfl
        | true => rw [(step_extends hinv he).closed_mono hcl] at hopen'; cases hopen'
      rw [hsame] at hwp
      cases hpc : (s.hub.points p).chClosed with
      | true => exact .inl ⟨_, List.getElem?_eq_getElem hk, hct'.symm.trans hct, .inr ⟨hopen, p, hwp, hpc⟩⟩
      | false =>
        rcases step_closes hinv he hpc hcl' hopen' with hle | hzero
        · right
          rw [(hinv.held _ hmem p hwp).2, ← hct', hct] at hle
          exact hle
        · have hpos := holders_pos hc'' (hsame ▸ hwp)
          omega
  · -- its own select leaves the hub alone
    rcases hph with hret | ⟨hopen', q, hwq, hclq⟩
    · rw [hc'p] at hret
      cases hret
    · rw [hc'p, Phase.waitsOn_woken, beq_iff_eq] at hwq
      subst hwq
      rw [hhub] at hopen' hclq
      exact .inl ⟨_, List.getElem?_eq_getElem hk, hct'.symm.trans hct,
        .inr ⟨hopen', p, by simp [hcp], hclq⟩⟩
  · -- its own relock returns `nil` only after the channel, in an open hub
    rcases hph with hret | ⟨-, q, hwq, -⟩
    · rw [hc'p, Phase.returned.injEq] at hret
      obtain ⟨hopen, rfl⟩ := waitForExit_ok _ _ _ _ hret
      exact .inl ⟨_, List.getElem?_eq_getElem hk, hct'.symm.trans hct,
        .inr ⟨hopen, p, by simp [hcp], hinv.woken _ hmem p hcp⟩⟩
    · rw [hc'p, Phase.waitsOn_returned] at hwq
      cases hwq

/-- A call that is released right after its first critical section returned `nil` there, with
`doneUpto ≥ t`: in an open hub it registers on an open point only. -/
theorem released_waitFor {s₀ s₁ : Sys} (h₀ : s₀.Inv) {t : Nat}
    (h₁ : s₀.step (.waitFor t) = some s₁) (hrel : Released s₀.calls.length t s₁) :
    t ≤ s₁.hub.doneUpto := by
  rw [step_waitFor, Option.some.injEq] at h₁
  subst h₁
  obtain ⟨c, hc, -, hph⟩ := hrel
  have hk : (s₀.calls ++ [⟨t, false, (s₀.hub.waitForEnter t).2⟩])[s₀.calls.length]? =
      some ⟨t, false, (s₀.hub.waitForEnter t).2⟩ := by simp
  rw [hk, Option.some.injEq] at hc
  subst hc
  rcases hph with hret | ⟨-, p, hwp, hcl⟩
  · rw [waitForEnter_doneUpto]
    exact waitForEnter_ok s₀.hub t hret
  · cases hph : (s₀.hub.waitForEnter t).2 with
    | blocked q =>
      rw [hph, Phase.waitsOn_blocked, beq_iff_eq] at hwp
      subst hwp
      rw [(waitForEnter_blocked s₀.hub t h₀.hub hph).2.2] at hcl
      cases hcl
    | woken q b => exact absurd hph (waitForEnter_not_woken s₀.hub t)
    | returned r =>
      rw [hph, Phase.waitsOn_returned] at hwp
      cases hwp

section Run

variable (x : Execution step)

theorem inv_at (hx : Reachable step (init doneUpto maxWaiting) (x.st 0)) (j : Nat) :
    (x.st j).Inv :=
  reachable_inv (hx.trans (x.reachable_le (Nat.zero_le j)))

/-- **History.** A `WaitFor(ctx, t)` call made at time `n` of an execution that has returned `nil`
by time `m` saw `doneUpto ≥ t` at a time of its own run, after `n` and no later than `m`. -/
theorem waitFor_ok_saw_doneUpto (hx : Reachable step (init doneUpto maxWaiting) (x.st 0))
    {n m t : Nat} (hn : x.ev n = .waitFor t) {c : Call}
    (hc : (x.st m).calls[(x.st n).calls.length]? = some c) (hok : c.phase = .returned (.ok ())) :
    ∃ i, n < i ∧ i ≤ m ∧ t ≤ (x.st i).hub.doneUpto := by
  set k := (x.st n).calls.length
  have h₁ : (x.st n).step (.waitFor t) = some (x.st (n + 1)) := hn ▸ x.next n
  have hk₁ : (x.st (n + 1)).calls[k]? = some ⟨t, false, ((x.st n).hub.waitForEnter t).2⟩ := by
    rw [step_waitFor, Option.some.injEq] at h₁
    rw [← h₁]
    simp [k]
  -- the call exists from time `n + 1` on, so it returned no earlier
  have hnm : n + 1 ≤ m := by
    by_contra hlt
    have hle : (x.st m).calls.length ≤ k := reachable_length_le (x.reachable_le (by omega))
    have := (List.getElem?_eq_some_iff.mp hc).1
    omega
  obtain ⟨c₂, hc₂, hct⟩ := reachable_call_t (x.reachable_le hnm) hk₁
  rw [hc] at hc₂
  cases hc₂
  have hlen : ∀ j, n + 1 ≤ j → k < (x.st j).calls.length := fun j hj =>
    lt_of_lt_of_le (List.getElem?_eq_some_iff.mp hk₁).1 (reachable_length_le (x.reachable_le hj))
  -- every step into a released call starts from one, or reaches `doneUpto ≥ t`
  have hstep : ∀ j, n + 1 ≤ j → j < m → Released k t (x.st (j + 1)) →
      Released k t (x.st j) ∨ t ≤ (x.st (j + 1)).hub.doneUpto := fun j hj _ hrel =>
    released_step (inv_at x hx j) (x.next j) (hlen j hj) hrel
  rcases x.passes_through (P := Released k t) (Q := fun s => t ≤ s.hub.doneUpto) hstep hnm
      ⟨c, hc, hct, .inl hok⟩ with hrel₁ | ⟨i, hi, him, hdone⟩
  · exact ⟨n + 1, Nat.lt_succ_self n, hnm, released_waitFor (inv_at x hx n) h₁ hrel₁⟩
  · exact ⟨i, by omega, him, hdone⟩

end Run

/-! ## Progress under a fair scheduler -/

/-- A blocked call whose point's channel is closed can leave its `select` by the channel. -/
theorem select_enabled {s : Sys} {k t p : Nat} {ctx : Bool}
    (hk : s.calls[k]? = some ⟨t, ctx, .blocked p⟩) (hp : (s.hub.points p).chClosed = true) :
    Enabled step s (.select k false) := by
  simp [Enabled, step, hk, hp]

/-- A call out of its `select` can take the mutex again. -/
theorem relock_enabled {s : Sys} {k t p : Nat} {ctx b : Bool}
    (hk : s.calls[k]? = some ⟨t, ctx, .woken p b⟩) : Enabled step s (.relock k) := by
  simp [Enabled, step, hk]

/-- Once `doneUpto ≥ t`, the point of a call blocked for `t` is closed: an open point is mapped
at its `t`, which is above `doneUpto`. -/
theorem Inv.blocked_closed {s : Sys} (hinv : s.Inv) {k p : Nat} {c : Call}
    (hk : s.calls[k]? = some c) (hc : c.phase = .blocked p) (hdone : c.t ≤ s.hub.doneUpto) :
    (s.hub.points p).chClosed = true := by
  obtain ⟨hpn, hpt⟩ := hinv.held c (List.mem_of_getElem? hk) p (by simp [hc])
  cases hpc : (s.hub.points p).chClosed with
  | true => rfl
  | false =>
    obtain ⟨hl, -⟩ := hinv.hub.opened p hpn hpc
    have := hinv.above _ p hl
    omega

section Fair

variable (x : Execution step)

/-- A call out of its `select` by the channel returns `nil` once it is scheduled, unless the hub
is closed by then. -/
theorem woken_returns {n k p : Nat} {c : Call} (hk : (x.st n).calls[k]? = some c)
    (hc : c.phase = .woken p false) (hfair : x.WeakFair (.relock k)) :
    ∃ j, n ≤ j ∧ ((∃ c', (x.st j).calls[k]? = some c' ∧ c'.phase = .returned (.ok ())) ∨
      (x.st j).hub.closed = true) := by
  let P : Sys → Prop := fun s => ∃ c', s.calls[k]? = some c' ∧ c'.phase = .woken p false
  -- only the call's own relock moves it out of `woken`
  have hstay : ∀ j, n ≤ j → P (x.st j) → x.ev j ≠ .relock k → P (x.st (j + 1)) := by
    rintro j - ⟨c', hc', hph⟩ hne
    obtain ⟨c'', hc'', -, hcase⟩ := step_call (x.next j) hc'
    rcases hcase with hsame | ⟨q, b, -, hq, -⟩ | ⟨q, b, hev, -⟩
    · exact ⟨c'', hc'', hsame.trans hph⟩
    · rw [hph] at hq
      cases hq
    · exact absurd hev hne
  have hen : ∀ j, n ≤ j → P (x.st j) → Enabled step (x.st j) (.relock k) := by
    rintro j - ⟨c', hc', hph⟩
    obtain ⟨t', ctx', ph'⟩ := c'
    cases hph
    exact relock_enabled hc'
  obtain ⟨j, hj, ⟨c', hc', hph⟩, hev⟩ := x.taken_of_fair hfair ⟨c, hk, hc⟩ hstay hen
  have hnext := x.next j
  rw [hev] at hnext
  obtain ⟨t', ctx', q, b, hq, hs'⟩ := step_relock hnext
  rw [hc'] at hq
  cases hq
  cases hph
  cases hcl : (x.st j).hub.closed with
  | true => exact ⟨j, hj, .inr hcl⟩
  | false =>
    -- an open hub and the channel's case: the second critical section returns `nil`
    have hok : ((x.st j).hub.waitForExit t' p false).2 = .ok () := by
      rcases waitForExit_cases (x.st j).hub t' p false with ⟨h, -⟩ | ⟨-, -, heq⟩ |
          ⟨-, h, -⟩ | ⟨-, h, -⟩ | ⟨-, h, -⟩
      · rw [hcl] at h
        cases h
      · rw [heq]
      all_goals cases h
    refine ⟨j + 1, Nat.le_succ_of_le hj, .inl ⟨⟨t', ctx', .returned (.ok ())⟩, ?_, rfl⟩⟩
    rw [hs', hok]
    simp [(List.getElem?_eq_some_iff.mp hc').1]

/-- **Progress.** A `WaitFor(ctx, t)` call that is blocked, or out of its `select` by the
channel, once `doneUpto ≥ t`, returns `nil` at some later time or the hub has been closed by
then, provided its context is never cancelled and the scheduler is weakly fair to its two
steps. -/
theorem waitFor_returns_of_fair (hx : Reachable step (init doneUpto maxWaiting) (x.st 0))
    {n k : Nat} {c : Call} (hk : (x.st n).calls[k]? = some c)
    (hwait : (∃ p, c.phase = .blocked p) ∨ ∃ p, c.phase = .woken p false)
    (hdone : c.t ≤ (x.st n).hub.doneUpto)
    (hctx : ∀ j c', (x.st j).calls[k]? = some c' → c'.ctxDone = false)
    (hsel : x.WeakFair (.select k false)) (hrel : x.WeakFair (.relock k)) :
    ∃ j, n ≤ j ∧ ((∃ c', (x.st j).calls[k]? = some c' ∧ c'.phase = .returned (.ok ())) ∨
      (x.st j).hub.closed = true) := by
  rcases hwait with ⟨p, hp⟩ | ⟨p, hp⟩
  · let P : Sys → Prop := fun s =>
      ∃ c', s.calls[k]? = some c' ∧ c'.phase = .blocked p ∧ (s.hub.points p).chClosed = true
    -- the call stays blocked on its closed point until its own select by the channel
    have hstay : ∀ j, n ≤ j → P (x.st j) → x.ev j ≠ .select k false → P (x.st (j + 1)) := by
      rintro j - ⟨c', hc', hph, hpc⟩ hne
      obtain ⟨c'', hc'', -, hcase⟩ := step_call (x.next j) hc'
      have hpn := ((inv_at x hx j).held c' (List.mem_of_getElem? hc') p (by simp [hph])).1
      have hpc' := (step_extends (inv_at x hx j) (x.next j)).chClosed_mono p hpn hpc
      rcases hcase with hsame | ⟨q, b, hev, hq, -, hready, -⟩ | ⟨q, b, -, hq, -⟩
      · exact ⟨c'', hc'', hsame.trans hph, hpc'⟩
      · -- the context's case is never ready
        cases b with
        | false => exact absurd hev hne
        | true =>
          simp only [if_true] at hready
          rw [hctx j c' hc'] at hready
          cases hready
      · rw [hph] at hq
        cases hq
    have hen : ∀ j, n ≤ j → P (x.st j) → Enabled step (x.st j) (.select k false) := by
      rintro j - ⟨c', hc', hph, hpc⟩
      obtain ⟨t', ctx', ph'⟩ := c'
      cases hph
      exact select_enabled hc' hpc
    have hP : P (x.st n) := ⟨c, hk, hp, (inv_at x hx n).blocked_closed hk hp hdone⟩
    obtain ⟨j, hj, ⟨c', hc', hph, -⟩, hev⟩ := x.taken_of_fair hsel hP hstay hen
    have hnext := x.next j
    rw [hev] at hnext
    obtain ⟨t', ctx', q, hq, -, hs'⟩ := step_select hnext
    rw [hc'] at hq
    cases hq
    cases hph
    have hk' : (x.st (j + 1)).calls[k]? = some ⟨t', ctx', .woken p false⟩ := by
      rw [hs']
      simp [(List.getElem?_eq_some_iff.mp hc').1]
    obtain ⟨j', hj', hend⟩ := woken_returns x hk' rfl hrel
    exact ⟨j', by omega, hend⟩
  · exact woken_returns x hk hp hrel

end Fair

/-! ## The hub's contract -/

/-- The watchers hub made by `New(doneUpto, maxWaiting)`, under every interleaving of `WaitFor`,
`DoneUpto`, `RecedeTo`, `Close` and cancellations: a call that returns `nil` saw `doneUpto ≥ t`
while it ran; a call waiting once `doneUpto ≥ t`, with its context never cancelled, returns `nil`
under a fair scheduler unless the hub is closed first; `waiting` is the sum of the mapped counts,
within a non-negative `maxWaiting`, and every mapped point waits above `doneUpto`; and once every
call has returned, `waiting` is zero and an open hub maps nothing. -/
theorem hub_is_progress_counter (doneUpto : Nat) (maxWaiting : Int) :
    (∀ x : Execution step, Reachable step (init doneUpto maxWaiting) (x.st 0) →
      ∀ (n m t : Nat) (c : Call), x.ev n = .waitFor t →
      (x.st m).calls[(x.st n).calls.length]? = some c → c.phase = .returned (.ok ()) →
      ∃ i, n < i ∧ i ≤ m ∧ t ≤ (x.st i).hub.doneUpto) ∧
    (∀ x : Execution step, Reachable step (init doneUpto maxWaiting) (x.st 0) →
      ∀ (n k : Nat) (c : Call), (x.st n).calls[k]? = some c →
      ((∃ p, c.phase = .blocked p) ∨ ∃ p, c.phase = .woken p false) →
      c.t ≤ (x.st n).hub.doneUpto →
      (∀ j c', (x.st j).calls[k]? = some c' → c'.ctxDone = false) →
      x.WeakFair (.select k false) → x.WeakFair (.relock k) →
      ∃ j, n ≤ j ∧ ((∃ c', (x.st j).calls[k]? = some c' ∧ c'.phase = .returned (.ok ())) ∨
        (x.st j).hub.closed = true)) ∧
    (∀ s, Reachable step (init doneUpto maxWaiting) s →
      s.hub.waiting = FiniteMap.total (fun _ p => ((s.hub.points p).count : Int)) s.hub.wpoints ∧
      (0 ≤ maxWaiting → s.hub.waiting ≤ maxWaiting) ∧
      ∀ t p, s.hub.wpoints.lookup t = some p → s.hub.doneUpto < (s.hub.points p).t) ∧
    (∀ s, Reachable step (init doneUpto maxWaiting) s →
      (∀ c ∈ s.calls, ∃ r, c.phase = .returned r) →
      s.hub.waiting = 0 ∧ (s.hub.closed = false → s.hub.wpoints.entries = [])) :=
  ⟨fun x hx _ _ _ _ hn hc hok => waitFor_ok_saw_doneUpto x hx hn hc hok,
    fun x hx _ _ _ hk hwait hdone hctx hsel hrel =>
      waitFor_returns_of_fair x hx hk hwait hdone hctx hsel hrel,
    fun _ h => reachable_waiting h,
    fun _ h hret => reachable_all_returned h hret⟩

/-- A schedule on `New(0, 1)`: `WaitFor(ctx, 1)` blocks, `DoneUpto(1)` releases it, the call
leaves its `select` by the channel and returns, and `WaitFor(ctx, 0)` calls follow for ever. -/
def releaseSchedule : Nat → Event
  | 0 => .waitFor 1
  | 1 => .doneUpto 1
  | 2 => .select 0 false
  | 3 => .relock 0
  | _ => .waitFor 0

/-- After `DoneUpto(1)` the call's point is closed, in an open hub. -/
theorem releaseSchedule_two :
    ((follow step (init 0 1) releaseSchedule 2).hub.points 0).chClosed = true ∧
      (follow step (init 0 1) releaseSchedule 2).hub.closed = false := by
  simp [follow, releaseSchedule, step, Sys.after, DoneUpto, doneUptoLoop, init, New, waitForEnter,
    pointFor, setPoint, releaseAt, closePoint, AList.lookup, AList.singleton]

/-- The call leaves its `select` by the channel. -/
theorem releaseSchedule_three : follow step (init 0 1) releaseSchedule 3 =
    ⟨(follow step (init 0 1) releaseSchedule 2).hub, [⟨1, false, .woken 0 false⟩]⟩ := by
  have h₂ : (follow step (init 0 1) releaseSchedule 2).calls = [⟨1, false, .blocked 0⟩] := rfl
  show (step (follow step (init 0 1) releaseSchedule 2) (.select 0 false)).getD _ = _
  simp [step, h₂, releaseSchedule_two.1]

theorem releaseSchedule_enabled (n : Nat) :
    Enabled step (follow step (init 0 1) releaseSchedule n) (releaseSchedule n) := by
  match n with
  | 0 | 1 => rfl
  | 2 => exact @select_enabled _ 0 1 0 false rfl releaseSchedule_two.1
  | 3 =>
    rw [releaseSchedule_three]
    exact @relock_enabled _ 0 1 0 false false rfl
  | n + 4 => simp [Enabled, releaseSchedule, step_waitFor]

/-- The schedule as an execution. -/
def releaseRun : Execution step :=
  Execution.ofSchedule (init 0 1) releaseSchedule releaseSchedule_enabled

/-- From time `4` on the first call has returned `nil`: the later calls are appended after it. -/
theorem releaseRun_returned (j : Nat) :
    (releaseRun.st (j + 4)).calls[0]? = some ⟨1, false, .returned (.ok ())⟩ := by
  induction j with
  | zero =>
    show ((step (follow step (init 0 1) releaseSchedule 3) (.relock 0)).getD _).calls[0]? = _
    rw [releaseSchedule_three]
    simp [step, waitForExit, releaseSchedule_two.2]
  | succ j ih =>
    have hnext := releaseRun.next (j + 4)
    rw [show releaseRun.ev (j + 4) = .waitFor 0 from rfl, step_waitFor, Option.some.injEq] at hnext
    rw [show j + 1 + 4 = j + 4 + 1 by omega, ← hnext, List.getElem?_append_left
      (List.getElem?_eq_some_iff.mp ih).1]
    exact ih

/-- The first call of `releaseRun` is made with a context that is never cancelled. -/
theorem releaseRun_call (j : Nat) (hj : 1 ≤ j) :
    ∃ ph, (releaseRun.st j).calls[0]? = some ⟨1, false, ph⟩ := by
  match j, hj with
  | 1, _ | 2, _ => exact ⟨_, rfl⟩
  | 3, _ =>
    refine ⟨.woken 0 false, ?_⟩
    show (follow step (init 0 1) releaseSchedule 3).calls[0]? = _
    rw [releaseSchedule_three]
    rfl
  | j + 4, _ => exact ⟨_, releaseRun_returned j⟩

/-- On `releaseRun`, the call `WaitFor(ctx, 1)` made at time `0` returns `nil` at time `4`, after
`DoneUpto(1)`; blocked at time `2` with `doneUpto = 1`, under the schedule's fairness to its two
steps, it returns `nil` or the hub is closed. -/
theorem hub_blocked_call_released :
    (∃ i, 0 < i ∧ i ≤ 4 ∧ 1 ≤ (releaseRun.st i).hub.doneUpto) ∧
    ∃ j, 2 ≤ j ∧ ((∃ c', (releaseRun.st j).calls[0]? = some c' ∧ c'.phase = .returned (.ok ())) ∨
      (releaseRun.st j).hub.closed = true) := by
  obtain ⟨ha, hb, -, -⟩ := hub_is_progress_counter 0 1
  -- the call's context is never cancelled
  have hctx : ∀ j c', (releaseRun.st j).calls[0]? = some c' → c'.ctxDone = false := by
    intro j c' hc'
    rcases Nat.eq_zero_or_pos j with rfl | hj
    · cases hc'
    · obtain ⟨ph, hph⟩ := releaseRun_call j hj
      rw [hph, Option.some.injEq] at hc'
      rw [← hc']
  -- the schedule takes the call's `select` at time `2` and its relock at time `3`; after that
  -- neither is enabled
  have hsel : releaseRun.WeakFair (.select 0 false) := by
    intro n hen
    by_cases hn : n ≤ 2
    · exact ⟨2, hn, rfl⟩
    · have := hen (n + 4) (by omega)
      simp [Enabled, step, releaseRun_returned] at this
  have hrel : releaseRun.WeakFair (.relock 0) := by
    intro n hen
    by_cases hn : n ≤ 3
    · exact ⟨3, hn, rfl⟩
    · have := hen (n + 4) (by omega)
      simp [Enabled, step, releaseRun_returned] at this
  exact ⟨ha releaseRun (Reachable.refl _) 0 4 1 _ rfl (releaseRun_returned 0) rfl,
    hb releaseRun (Reachable.refl _) 2 0 ⟨1, false, .blocked 0⟩ rfl (.inl ⟨0, rfl⟩) (by decide)
      hctx hsel hrel⟩

/-- With a negative `maxWaiting` the limit is never reached: `New(0, -1)` registers a
`WaitFor(ctx, 1)` and `waiting` exceeds `maxWaiting`. -/
theorem waitFor_registers_past_negative_limit :
    ∃ s, Reachable step (init 0 (-1)) s ∧ s.hub.maxWaiting < s.hub.waiting :=
  ⟨_, (Reachable.refl _).tail (step_waitFor _ 1), by decide⟩

end Sys

end Immudb.Watchers
