import Mathlib
import Immudb.Lib.FiniteMap
import Immudb.Lib.Interleaving

/-!
# `Immudb/Watchers/Hub.lean` — the watchers hub under concurrent calls

`embedded/watchers/watchers.go`: `WatchersHub` is a progress counter `doneUpto` with blocking
waits. `WaitFor(ctx, t)` registers on the waiting point for `t`, drops the mutex and blocks in a
`select` on the point's channel and on `ctx.Done()`; `DoneUpto(t)` releases the points up to `t`,
`RecedeTo(t)` lowers the counter and `Close()` releases everything.

**What the interleaving is.** Every method runs under `w.mutex`, so its critical section is one
atomic step. `WaitFor` has two, around its `select`, and the `select` is a third step taken when
one of its cases is ready. A run of the system is any interleaving of the events of `Event`:
new `WaitFor` calls, cancellation of a call's context, a call leaving its `select` by either case,
a call taking the mutex again, and `DoneUpto`, `RecedeTo`, `Close` calls.

**Pointers.** `wpoints` maps a value to a pointer into a heap of waiting points, and a blocked
call keeps its pointer after `DoneUpto` or another call deletes the map entry. A channel is its
`closed` flag; `close` of a closed channel never happens (`Consistent.shut` and the checks of
`closed` before every close show that).

**Invariant.** `Consistent w h` is what the hub keeps given `h p`, the number of calls holding
pointer `p`; each method is shown to keep it (section 3), and `Inv` adds what ties the calls to the
hub (section 4). Section 5 proves the safety half of the hub's contract over every reachable state,
and the history fact that a `WaitFor` that returns `nil` saw `doneUpto ≥ t` while it ran.
-/

set_option autoImplicit false

namespace Immudb.Watchers

open FiniteMap Interleaving

/-! ## 1. The hub -/

/-- The errors of the hub, and `ctx.Err()` of a cancelled context. -/
inductive WatchErr
  | ErrMaxWaitessLimitExceeded
  | ErrAlreadyClosed
  | ErrIllegalState
  | ctxErr
  deriving DecidableEq, Repr

/-- A `*waitingPoint`; its channel `ch` is modelled by whether it has been closed. -/
structure waitingPoint where
  t : Nat
  chClosed : Bool
  count : Nat
  deriving DecidableEq, Repr

/-- `WatchersHub`, with the heap its map points into: the points allocated so far are those below
`next`. -/
@[ext]
structure WatchersHub where
  wpoints : AList fun _ : Nat => Nat
  doneUpto : Nat
  maxWaiting : Int
  waiting : Int
  closed : Bool
  points : Nat → waitingPoint
  next : Nat

def New (doneUpto : Nat) (maxWaiting : Int) : WatchersHub :=
  ⟨∅, doneUpto, maxWaiting, 0, false, fun _ => ⟨0, false, 0⟩, 0⟩

namespace WatchersHub

/-- Write the waiting point at pointer `p`. -/
def setPoint (w : WatchersHub) (p : Nat) (wp : waitingPoint) : WatchersHub :=
  { w with points := Function.update w.points p wp }

/-- `close(wp.ch); w.waiting -= wp.count; wp.count = 0`, the release of a point in `DoneUpto`
and `Close`. -/
def closePoint (w : WatchersHub) (p : Nat) : WatchersHub :=
  { w with
    points := Function.update w.points p { w.points p with chClosed := true, count := 0 },
    waiting := w.waiting - (w.points p).count }

/-- One round of the loop of `DoneUpto`: release the point waiting for `i`, if there is one. -/
def releaseAt (w : WatchersHub) (i : Nat) : WatchersHub :=
  match w.wpoints.lookup i with
  | some p => { w.closePoint p with wpoints := w.wpoints.erase i }
  | none => w

/-- `for i := w.doneUpto + 1; i <= t; i++ { if w.waiting == 0 { break }; ... }` -/
def doneUptoLoop (w : WatchersHub) (i t : Nat) : WatchersHub :=
  if i ≤ t then
    if w.waiting = 0 then w
    else (w.releaseAt i).doneUptoLoop (i + 1) t
  else w
termination_by t + 1 - i

def RecedeTo (w : WatchersHub) (t : Nat) : Except WatchErr WatchersHub :=
  if w.closed then .error .ErrAlreadyClosed
  else if w.doneUpto < t then .error .ErrIllegalState
  else .ok { w with doneUpto := t }

def DoneUpto (w : WatchersHub) (t : Nat) : Except WatchErr WatchersHub :=
  if w.closed then .error .ErrAlreadyClosed
  else if t ≤ w.doneUpto then .ok w
  else .ok { w.doneUptoLoop (w.doneUpto + 1) t with doneUpto := t }

def Close (w : WatchersHub) : Except WatchErr WatchersHub :=
  if w.closed then .error .ErrAlreadyClosed
  else .ok (w.wpoints.entries.foldl (fun w e => w.closePoint e.2) { w with closed := true })

end WatchersHub

/-- Where a `WaitFor` call is: blocked in its `select` on the point at a pointer, out of the
`select` by one of its cases (before `w.mutex.Lock()`), or returned. -/
inductive Phase
  | blocked (p : Nat)
  | woken (p : Nat) (cancelled : Bool)
  | returned (r : Except WatchErr Unit)

namespace WatchersHub

/-- `wp, waiting := w.wpoints[t]`, making and mapping a new point when there is none. -/
def pointFor (w : WatchersHub) (t : Nat) : WatchersHub × Nat :=
  match w.wpoints.lookup t with
  | some p => (w, p)
  | none =>
    ({ w.setPoint w.next ⟨t, false, 0⟩ with
        wpoints := w.wpoints.insert t w.next, next := w.next + 1 }, w.next)

/-- `WaitFor` from its `w.mutex.Lock()` to the `w.mutex.Unlock()` before the `select`, or to
its return. -/
def waitForEnter (w : WatchersHub) (t : Nat) : WatchersHub × Phase :=
  if w.closed then (w, .returned (.error .ErrAlreadyClosed))
  else if t ≤ w.doneUpto then (w, .returned (.ok ()))
  else if w.waiting = w.maxWaiting then (w, .returned (.error .ErrMaxWaitessLimitExceeded))
  else
    match w.pointFor t with
    | (w, p) =>
      ({ w.setPoint p { w.points p with count := (w.points p).count + 1 } with
          waiting := w.waiting + 1 }, .blocked p)

/-- `WaitFor` from the `w.mutex.Lock()` after the `select` to its return. -/
def waitForExit (w : WatchersHub) (t p : Nat) (cancelled : Bool) :
    WatchersHub × Except WatchErr Unit :=
  if w.closed then (w, .error .ErrAlreadyClosed)
  else if cancelled then
    if 0 < (w.points p).count then
      -- `w.waiting--; wp.count--`, then the last caller closes the point and deletes its entry
      let w := { w.setPoint p { w.points p with count := (w.points p).count - 1 } with
        waiting := w.waiting - 1 }
      if (w.points p).count = 0 then
        ({ w.setPoint p { w.points p with chClosed := true } with wpoints := w.wpoints.erase t },
          .error .ctxErr)
      else (w, .error .ctxErr)
    else (w, .error .ctxErr)
  else (w, .ok ())

end WatchersHub

/-! ## 2. The calls and the interleaving -/

/-- A `WaitFor(ctx, t)` call: its `t`, whether its context is cancelled, and where it is. -/
structure Call where
  t : Nat
  ctxDone : Bool
  phase : Phase

/-- The hub and every `WaitFor` call made on it so far. -/
structure Sys where
  hub : WatchersHub
  calls : List Call

/-- The events of an interleaving. `select k c` is call `k` leaving its `select` by the context's
case if `c`, by the point's channel if not. -/
inductive Event
  | waitFor (t : Nat)
  | cancel (k : Nat)
  | select (k : Nat) (cancelled : Bool)
  | relock (k : Nat)
  | doneUpto (t : Nat)
  | recedeTo (t : Nat)
  | close

/-- The system after a hub method: an error leaves the hub as it was. -/
def Sys.after (s : Sys) : Except WatchErr WatchersHub → Sys
  | .ok w => { s with hub := w }
  | .error _ => s

def Sys.step (s : Sys) : Event → Option Sys
  | .waitFor t =>
    match s.hub.waitForEnter t with
    | (w, ph) => some ⟨w, s.calls ++ [⟨t, false, ph⟩]⟩
  | .cancel k =>
    match s.calls[k]? with
    | some c => some { s with calls := s.calls.set k { c with ctxDone := true } }
    | none => none
  | .select k cancelled =>
    match s.calls[k]? with
    | some ⟨t, ctxDone, .blocked p⟩ =>
      -- a case is ready when the context is cancelled, resp. when the point's channel is closed
      if (if cancelled then ctxDone else (s.hub.points p).chClosed) then
        some { s with calls := s.calls.set k ⟨t, ctxDone, .woken p cancelled⟩ }
      else none
    | _ => none
  | .relock k =>
    match s.calls[k]? with
    | some ⟨t, ctxDone, .woken p cancelled⟩ =>
      match s.hub.waitForExit t p cancelled with
      | (w, r) => some ⟨w, s.calls.set k ⟨t, ctxDone, .returned r⟩⟩
    | _ => none
  | .doneUpto t => some (s.after (s.hub.DoneUpto t))
  | .recedeTo t => some (s.after (s.hub.RecedeTo t))
  | .close => some (s.after s.hub.Close)

/-- A hub made by `New(doneUpto, maxWaiting)`, before any call. -/
def init (doneUpto : Nat) (maxWaiting : Int) : Sys := ⟨New doneUpto maxWaiting, []⟩

/-- Call `p`'s pointer is held by a call in this phase. -/
def Phase.waitsOn : Phase → Nat → Bool
  | .blocked q, p => q == p
  | .woken q _, p => q == p
  | .returned _, _ => false

@[simp] theorem Phase.waitsOn_blocked (q p : Nat) : (Phase.blocked q).waitsOn p = (q == p) := rfl
@[simp] theorem Phase.waitsOn_woken (q p : Nat) (b : Bool) :
    (Phase.woken q b).waitsOn p = (q == p) := rfl
@[simp] theorem Phase.waitsOn_returned (r : Except WatchErr Unit) (p : Nat) :
    (Phase.returned r).waitsOn p = false := rfl

/-- The number of calls holding pointer `p`. -/
def Sys.holders (s : Sys) (p : Nat) : Nat := s.calls.countP fun c => c.phase.waitsOn p


/-! ## 3. What each method keeps -/

namespace WatchersHub

variable {w w' : WatchersHub} {h : Nat → Nat}

section Fields

variable (w : WatchersHub) (p : Nat) (wp : waitingPoint)

@[simp] theorem setPoint_points : (w.setPoint p wp).points = Function.update w.points p wp := rfl
@[simp] theorem setPoint_wpoints : (w.setPoint p wp).wpoints = w.wpoints := rfl
@[simp] theorem setPoint_waiting : (w.setPoint p wp).waiting = w.waiting := rfl
@[simp] theorem setPoint_maxWaiting : (w.setPoint p wp).maxWaiting = w.maxWaiting := rfl
@[simp] theorem setPoint_closed : (w.setPoint p wp).closed = w.closed := rfl
@[simp] theorem setPoint_next : (w.setPoint p wp).next = w.next := rfl
@[simp] theorem setPoint_doneUpto : (w.setPoint p wp).doneUpto = w.doneUpto := rfl

@[simp] theorem closePoint_points : (w.closePoint p).points =
    Function.update w.points p { w.points p with chClosed := true, count := 0 } := rfl
@[simp] theorem closePoint_wpoints : (w.closePoint p).wpoints = w.wpoints := rfl
@[simp] theorem closePoint_waiting :
    (w.closePoint p).waiting = w.waiting - (w.points p).count := rfl
@[simp] theorem closePoint_maxWaiting : (w.closePoint p).maxWaiting = w.maxWaiting := rfl
@[simp] theorem closePoint_closed : (w.closePoint p).closed = w.closed := rfl
@[simp] theorem closePoint_next : (w.closePoint p).next = w.next := rfl
@[simp] theorem closePoint_doneUpto : (w.closePoint p).doneUpto = w.doneUpto := rfl

end Fields

/-- What no method undoes: allocated points keep their `t`, a closed channel stays closed, a
closed hub stays closed, and `maxWaiting` is the one `New` was given. -/
structure Extends (w w' : WatchersHub) : Prop where
  next_le : w.next ≤ w'.next
  t_eq : ∀ p < w.next, (w'.points p).t = (w.points p).t
  chClosed_mono : ∀ p < w.next, (w.points p).chClosed = true → (w'.points p).chClosed = true
  closed_mono : w.closed = true → w'.closed = true
  maxWaiting_eq : w'.maxWaiting = w.maxWaiting

theorem Extends.refl (w : WatchersHub) : Extends w w :=
  ⟨le_rfl, fun _ _ => rfl, fun _ _ hc => hc, id, rfl⟩

theorem Extends.trans {w₁ w₂ w₃ : WatchersHub} (h₁ : Extends w₁ w₂) (h₂ : Extends w₂ w₃) :
    Extends w₁ w₃ where
  next_le := h₁.next_le.trans h₂.next_le
  t_eq p hp := (h₂.t_eq p (lt_of_lt_of_le hp h₁.next_le)).trans (h₁.t_eq p hp)
  chClosed_mono p hp hc :=
    h₂.chClosed_mono p (lt_of_lt_of_le hp h₁.next_le) (h₁.chClosed_mono p hp hc)
  closed_mono hc := h₂.closed_mono (h₁.closed_mono hc)
  maxWaiting_eq := h₂.maxWaiting_eq.trans h₁.maxWaiting_eq

/-- A change that leaves the heap alone. -/
theorem Extends.of_points {w w' : WatchersHub} (hp : w'.points = w.points)
    (hn : w.next ≤ w'.next) (hc : w.closed = true → w'.closed = true)
    (hm : w'.maxWaiting = w.maxWaiting) : Extends w w' :=
  ⟨hn, fun p _ => by rw [hp], fun p _ hq => by rw [hp]; exact hq, hc, hm⟩

/-- Writing a point that keeps its `t` and does not reopen its channel. -/
theorem Extends.of_update {w w' : WatchersHub} {p : Nat} {wp : waitingPoint}
    (hp : w'.points = Function.update w.points p wp) (hn : w.next ≤ w'.next)
    (hcl : w.closed = true → w'.closed = true) (hm : w'.maxWaiting = w.maxWaiting)
    (ht : p < w.next → wp.t = (w.points p).t)
    (hc : p < w.next → (w.points p).chClosed = true → wp.chClosed = true) : Extends w w' where
  next_le := hn
  t_eq q hq := by
    rw [hp]
    by_cases hqp : q = p
    · subst hqp
      simp [ht hq]
    · simp [Function.update_of_ne hqp]
  chClosed_mono q hq hqc := by
    rw [hp]
    by_cases hqp : q = p
    · subst hqp
      simpa using hc hq hqc
    · simpa [Function.update_of_ne hqp] using hqc
  closed_mono := hcl
  maxWaiting_eq := hm

theorem extends_closePoint (p : Nat) : Extends w (w.closePoint p) :=
  Extends.of_update rfl le_rfl id rfl (fun _ => rfl) (fun _ _ => rfl)

/-- The sum of the counts of the points a map points to. -/
def countTotal (pts : Nat → waitingPoint) (s : AList fun _ : Nat => Nat) : Int :=
  total (fun _ p => ((pts p).count : Int)) s

/-- `waiting` as the invariant wants it: the sum of the counts of the mapped points. -/
def weight (w : WatchersHub) : Int := countTotal w.points w.wpoints

theorem countTotal_nonneg (pts : Nat → waitingPoint) (s : AList fun _ : Nat => Nat) :
    0 ≤ countTotal pts s :=
  List.sum_nonneg fun x hx => by
    obtain ⟨e, -, rfl⟩ := List.mem_map.mp hx
    exact Int.natCast_nonneg _

/-- Writing a point that no key maps to leaves the total alone. -/
theorem countTotal_update_of_unmapped (pts : Nat → waitingPoint) {s : AList fun _ : Nat => Nat}
    {p : Nat} (wp : waitingPoint) (hs : ∀ a b, s.lookup a = some b → b ≠ p) :
    countTotal (Function.update pts p wp) s = countTotal pts s :=
  total_eq_of_lookup fun a b hab => by rw [Function.update_of_ne (hs a b hab)]

/-- Erasing the key of a point subtracts its count. -/
theorem countTotal_erase (pts : Nat → waitingPoint) {s : AList fun _ : Nat => Nat} {t p : Nat}
    (ht : s.lookup t = some p) : countTotal pts (s.erase t) + (pts p).count = countTotal pts s :=
  total_erase_add ht

/-- What the hub keeps, given the number `h p` of calls holding each pointer `p`: `waiting` is
the sum of the mapped counts and within `maxWaiting`; every map entry points to an allocated point
with its key as `t`, open exactly while the hub is; every open point is mapped and counts its
holders, of which there is one at least; and a closed point counts none. -/
structure Consistent (w : WatchersHub) (h : Nat → Nat) : Prop where
  waiting_eq : w.waiting = w.weight
  bounded : 0 ≤ w.maxWaiting → w.waiting ≤ w.maxWaiting
  mapped : ∀ t p, w.wpoints.lookup t = some p →
    p < w.next ∧ (w.points p).t = t ∧ (w.points p).chClosed = w.closed
  opened : ∀ p < w.next, (w.points p).chClosed = false →
    w.wpoints.lookup (w.points p).t = some p ∧ (w.points p).count = h p ∧ 0 < h p
  shut : ∀ p, (w.points p).chClosed = true → (w.points p).count = 0

/-- Every mapped value is above `doneUpto`. -/
def Above (w : WatchersHub) : Prop := ∀ t p, w.wpoints.lookup t = some p → w.doneUpto < t

namespace Consistent

variable (hc : Consistent w h)
include hc

/-- Two keys never share a point. -/
theorem lookup_inj {a b p : Nat} (ha : w.wpoints.lookup a = some p)
    (hb : w.wpoints.lookup b = some p) : a = b :=
  (hc.mapped a p ha).2.1.symm.trans (hc.mapped b p hb).2.1

/-- Once the key of `p` is erased, no key maps to `p`. -/
theorem erase_unmapped {t p : Nat} (ht : w.wpoints.lookup t = some p) :
    ∀ a b, (w.wpoints.erase t).lookup a = some b → b ≠ p := by
  intro a b hab hbp
  subst hbp
  by_cases hat : a = t
  · subst hat
    simp at hab
  · rw [AList.lookup_erase_ne hat] at hab
    exact hat (hc.lookup_inj hab ht)

/-- Writing the point of key `t` changes the weight by the change of its count. -/
theorem weight_setPoint {t p : Nat} (ht : w.wpoints.lookup t = some p) (wp : waitingPoint) :
    (w.setPoint p wp).weight + (w.points p).count = w.weight + wp.count := by
  have hnew := countTotal_erase (Function.update w.points p wp) ht
  have hold := countTotal_erase w.points ht
  rw [countTotal_update_of_unmapped _ wp (hc.erase_unmapped ht)] at hnew
  simp only [Function.update_self] at hnew
  have hw : (w.setPoint p wp).weight = countTotal (Function.update w.points p wp) w.wpoints := rfl
  rw [hw]
  simp only [weight]
  omega

/-- In an open hub every mapped point is open and held. -/
theorem count_pos {t p : Nat} (hopen : w.closed = false) (ht : w.wpoints.lookup t = some p) :
    0 < (w.points p).count := by
  obtain ⟨hpn, -, hpc⟩ := hc.mapped t p ht
  obtain ⟨-, hcnt, hpos⟩ := hc.opened p hpn (hpc.trans hopen)
  omega

/-- `waiting == 0` in an open hub means that no point is mapped: the early exit of the loop of
`DoneUpto` skips nothing. -/
theorem lookup_eq_none {t : Nat} (hopen : w.closed = false) (hw : w.waiting = 0) :
    w.wpoints.lookup t = none := by
  cases ht : w.wpoints.lookup t with
  | none => rfl
  | some p =>
    have hpos := hc.count_pos hopen ht
    have herase := countTotal_erase w.points ht
    have hrest := countTotal_nonneg w.points (w.wpoints.erase t)
    have hweight := hc.waiting_eq
    simp only [weight] at hweight
    omega

/-- In a closed hub every allocated point is closed. -/
theorem chClosed_of_closed (hcl : w.closed = true) {p : Nat} (hp : p < w.next) :
    (w.points p).chClosed = true := by
  cases hpc : (w.points p).chClosed with
  | true => rfl
  | false =>
    obtain ⟨hl, -⟩ := hc.opened p hp hpc
    have := (hc.mapped _ p hl).2.2
    rw [hpc, hcl] at this
    exact absurd this Bool.false_ne_true

/-- The invariant only reads the holder counts of open points. -/
theorem congr {h' : Nat → Nat} (hh : ∀ p < w.next, (w.points p).chClosed = false → h' p = h p) :
    Consistent w h' where
  waiting_eq := hc.waiting_eq
  bounded := hc.bounded
  mapped := hc.mapped
  opened p hp hpc := by
    rw [hh p hp hpc]
    exact hc.opened p hp hpc
  shut := hc.shut

end Consistent

/-! ### `DoneUpto`, `RecedeTo` and `Close` -/

theorem releaseAt_of_none {i : Nat} (hi : w.wpoints.lookup i = none) : w.releaseAt i = w := by
  simp [releaseAt, hi]

theorem releaseAt_of_some {i p : Nat} (hi : w.wpoints.lookup i = some p) :
    w.releaseAt i = { w.closePoint p with wpoints := w.wpoints.erase i } := by
  simp [releaseAt, hi]

@[simp] theorem releaseAt_closed (i : Nat) : (w.releaseAt i).closed = w.closed := by
  unfold releaseAt; split <;> rfl

theorem releaseAt_extends (i : Nat) : Extends w (w.releaseAt i) := by
  cases hi : w.wpoints.lookup i with
  | none => rw [releaseAt_of_none hi]; exact Extends.refl w
  | some p =>
    rw [releaseAt_of_some hi]
    have hx := extends_closePoint (w := w) p
    exact ⟨hx.next_le, hx.t_eq, hx.chClosed_mono, hx.closed_mono, hx.maxWaiting_eq⟩

/-- One round of the loop keeps the invariant. -/
theorem releaseAt_consistent (hc : Consistent w h) (i : Nat) :
    Consistent (w.releaseAt i) h := by
  cases hi : w.wpoints.lookup i with
  | none => rwa [releaseAt_of_none hi]
  | some p =>
    rw [releaseAt_of_some hi]
    have hun := hc.erase_unmapped hi
    constructor
    · -- the released count leaves `waiting` and the map together
      have herase := countTotal_erase w.points hi
      have hweight := hc.waiting_eq
      simp only [weight] at hweight ⊢
      simp only [closePoint_waiting, closePoint_points]
      rw [countTotal_update_of_unmapped _ _ hun]
      omega
    · intro hm
      have := hc.bounded hm
      simp only [closePoint_waiting, closePoint_maxWaiting]
      omega
    · intro a q haq
      have hqp := hun a q haq
      have hai : a ≠ i := by
        rintro rfl
        simp at haq
      rw [AList.lookup_erase_ne hai] at haq
      obtain ⟨hqn, hqt, hqc⟩ := hc.mapped a q haq
      simpa [Function.update_of_ne hqp] using ⟨hqn, hqt, hqc⟩
    · intro q hq hqc
      have hqp : q ≠ p := by
        rintro rfl
        simp at hqc
      have hpq : ({ w.closePoint p with wpoints := w.wpoints.erase i }.points q) = w.points q := by
        simp [Function.update_of_ne hqp]
      rw [hpq] at hqc ⊢
      obtain ⟨hl, hcnt, hpos⟩ := hc.opened q hq hqc
      have hti : (w.points q).t ≠ i := by
        intro hti
        rw [hti, hi] at hl
        exact hqp (Option.some.inj hl).symm
      exact ⟨by rw [AList.lookup_erase_ne hti]; exact hl, hcnt, hpos⟩
    · intro q hq
      by_cases hqp : q = p
      · subst hqp
        simp
      · simp only [closePoint_points, Function.update_of_ne hqp] at hq ⊢
        exact hc.shut q hq

/-- One round of the loop at `i` closes only the point whose `t` is `i`. -/
theorem releaseAt_closes (hc : Consistent w h) {i q : Nat} (hq : (w.points q).chClosed = false)
    (hq' : ((w.releaseAt i).points q).chClosed = true) : (w.points q).t = i := by
  cases hi : w.wpoints.lookup i with
  | none =>
    rw [releaseAt_of_none hi, hq] at hq'
    exact absurd hq' Bool.false_ne_true
  | some p =>
    rw [releaseAt_of_some hi] at hq'
    by_cases hqp : q = p
    · subst hqp
      exact (hc.mapped i q hi).2.1
    · simp only [closePoint_points, Function.update_of_ne hqp, hq] at hq'
      exact absurd hq' Bool.false_ne_true

@[simp] theorem doneUptoLoop_closed (i t : Nat) : (w.doneUptoLoop i t).closed = w.closed := by
  fun_induction w.doneUptoLoop i t with
  | case1 => rfl
  | case2 w i _ _ ih => rw [ih, releaseAt_closed]
  | case3 => rfl

theorem doneUptoLoop_extends (i t : Nat) : Extends w (w.doneUptoLoop i t) := by
  fun_induction w.doneUptoLoop i t with
  | case1 w => exact Extends.refl w
  | case2 w i _ _ ih => exact (releaseAt_extends i).trans ih
  | case3 w => exact Extends.refl w

/-- The loop of `DoneUpto` keeps the invariant. -/
theorem doneUptoLoop_consistent (i t : Nat) :
    Consistent w h → Consistent (w.doneUptoLoop i t) h := by
  fun_induction w.doneUptoLoop i t with
  | case1 => exact id
  | case2 w i _ _ ih => exact fun hc => ih (releaseAt_consistent hc i)
  | case3 => exact id

/-- After the loop from `i` to `t`, over keys that were all at least `i`, every key is above
`t`: the rounds erase the keys up to `t`, and an early exit happens on an empty map. -/
theorem doneUptoLoop_above (i t : Nat) :
    Consistent w h → w.closed = false → (∀ a p, w.wpoints.lookup a = some p → i ≤ a) →
      ∀ a p, (w.doneUptoLoop i t).wpoints.lookup a = some p → t < a := by
  fun_induction w.doneUptoLoop i t with
  | case1 w i _ hw =>
    intro hc hopen _ a p ha
    rw [hc.lookup_eq_none hopen hw] at ha
    exact absurd ha (Option.some_ne_none p).symm
  | case2 w i _ _ ih =>
    intro hc hopen hkeys
    refine ih (releaseAt_consistent hc i) (by rw [releaseAt_closed]; exact hopen) ?_
    intro a p ha
    cases hi : w.wpoints.lookup i with
    | none =>
      rw [releaseAt_of_none hi] at ha
      have hai : a ≠ i := by
        rintro rfl
        rw [hi] at ha
        exact absurd ha (Option.some_ne_none p).symm
      have := hkeys a p ha
      omega
    | some q =>
      rw [releaseAt_of_some hi] at ha
      have hai : a ≠ i := by
        rintro rfl
        simp at ha
      rw [AList.lookup_erase_ne hai] at ha
      have := hkeys a p ha
      omega
  | case3 w i hit =>
    intro _ _ hkeys a p ha
    have := hkeys a p ha
    omega

/-- The loop up to `t` closes only points whose `t` is at most `t`. -/
theorem doneUptoLoop_closes (i t : Nat) :
    Consistent w h → ∀ q, (w.points q).chClosed = false →
      ((w.doneUptoLoop i t).points q).chClosed = true → (w.points q).t ≤ t := by
  fun_induction w.doneUptoLoop i t with
  | case1 w =>
    intro _ q hq hq'
    rw [hq] at hq'
    exact absurd hq' Bool.false_ne_true
  | case2 w i hit _ ih =>
    intro hc q hq hq'
    cases hr : ((w.releaseAt i).points q).chClosed with
    | true => exact (releaseAt_closes hc hq hr).le.trans hit
    | false =>
      have hle := ih (releaseAt_consistent hc i) q hr hq'
      -- the round did not touch the point, so its `t` is the one it had
      by_cases hqn : q < w.next
      · rwa [(releaseAt_extends i).t_eq q hqn] at hle
      · cases hi : w.wpoints.lookup i with
        | none => rwa [releaseAt_of_none hi] at hle
        | some p =>
          have hqp : q ≠ p := fun hqp => hqn (hqp ▸ (hc.mapped i p hi).1)
          rw [releaseAt_of_some hi] at hle
          simpa [Function.update_of_ne hqp] using hle
  | case3 w =>
    intro _ q hq hq'
    rw [hq] at hq'
    exact absurd hq' Bool.false_ne_true

/-- The invariant does not read `doneUpto`. -/
theorem Consistent.with_doneUpto (hc : Consistent w h) (t : Nat) :
    Consistent { w with doneUpto := t } h :=
  ⟨hc.waiting_eq, hc.bounded, hc.mapped, hc.opened, hc.shut⟩

/-- A successful `DoneUpto(t)` on an open hub: nothing below the counter, or the loop and the
new counter. -/
theorem DoneUpto_ok {t : Nat} (hd : w.DoneUpto t = .ok w') :
    w.closed = false ∧ ((t ≤ w.doneUpto ∧ w' = w) ∨
      (w.doneUpto < t ∧ w' = { w.doneUptoLoop (w.doneUpto + 1) t with doneUpto := t })) := by
  unfold DoneUpto at hd
  split at hd
  · cases hd
  · rename_i hopen
    split at hd
    · exact ⟨by simpa using hopen, .inl ⟨by assumption, (Except.ok.inj hd).symm⟩⟩
    · exact ⟨by simpa using hopen, .inr ⟨by omega, (Except.ok.inj hd).symm⟩⟩

theorem DoneUpto_consistent {t : Nat} (hc : Consistent w h) (ha : Above w)
    (hd : w.DoneUpto t = .ok w') : Consistent w' h ∧ Above w' ∧ Extends w w' := by
  obtain ⟨hopen, ⟨-, rfl⟩ | ⟨-, rfl⟩⟩ := DoneUpto_ok hd
  · exact ⟨hc, ha, Extends.refl _⟩
  · have hx := doneUptoLoop_extends (w := w) (w.doneUpto + 1) t
    refine ⟨(doneUptoLoop_consistent _ t hc).with_doneUpto t, ?_,
      ⟨hx.next_le, hx.t_eq, hx.chClosed_mono, hx.closed_mono, hx.maxWaiting_eq⟩⟩
    exact doneUptoLoop_above _ t hc hopen fun a p hap => ha a p hap

/-- `DoneUpto` closes only points at or below the counter it leaves. -/
theorem DoneUpto_closes {t q : Nat} (hc : Consistent w h) (hd : w.DoneUpto t = .ok w')
    (hq : (w.points q).chClosed = false) (hq' : (w'.points q).chClosed = true) :
    (w.points q).t ≤ w'.doneUpto := by
  obtain ⟨-, ⟨-, rfl⟩ | ⟨-, rfl⟩⟩ := DoneUpto_ok hd
  · rw [hq] at hq'
    exact absurd hq' Bool.false_ne_true
  · exact doneUptoLoop_closes _ t hc q hq hq'

theorem RecedeTo_ok {t : Nat} (hr : w.RecedeTo t = .ok w') :
    w.closed = false ∧ t ≤ w.doneUpto ∧ w' = { w with doneUpto := t } := by
  unfold RecedeTo at hr
  split at hr
  · cases hr
  · rename_i hopen
    split at hr
    · cases hr
    · exact ⟨by simpa using hopen, by omega, (Except.ok.inj hr).symm⟩

theorem RecedeTo_consistent {t : Nat} (hc : Consistent w h) (ha : Above w)
    (hr : w.RecedeTo t = .ok w') : Consistent w' h ∧ Above w' ∧ Extends w w' := by
  obtain ⟨-, hle, rfl⟩ := RecedeTo_ok hr
  refine ⟨hc.with_doneUpto t, fun a p hap => ?_, Extends.of_points rfl le_rfl id rfl⟩
  have := ha a p hap
  simp only
  omega

/-- No two entries share a point, so the loop of `Close` visits each mapped point once. -/
theorem Consistent.nodup_pointers (hc : Consistent w h) :
    (w.wpoints.entries.map Sigma.snd).Nodup := by
  refine List.Nodup.map_on ?_ w.wpoints.nodupKeys.nodup
  intro x hx y hy hxy
  have hx' : w.wpoints.lookup x.1 = some x.2 := AList.mem_lookup_iff.mpr hx
  have hy' : w.wpoints.lookup y.1 = some y.2 := AList.mem_lookup_iff.mpr hy
  rw [hxy] at hx'
  exact Sigma.ext (hc.lookup_inj hx' hy') (heq_of_eq hxy)

/-- The loop of `Close` over distinct points closes each and subtracts its count. -/
theorem foldl_closePoint (l : List (Σ _ : Nat, Nat)) (w₀ : WatchersHub)
    (hl : (l.map Sigma.snd).Nodup) :
    l.foldl (fun w e => w.closePoint e.2) w₀ =
      { w₀ with
        points := fun q => if q ∈ l.map Sigma.snd then
          { w₀.points q with chClosed := true, count := 0 } else w₀.points q,
        waiting := w₀.waiting - (l.map fun e => ((w₀.points e.2).count : Int)).sum } := by
  induction l generalizing w₀ with
  | nil =>
    ext <;> simp
  | cons e l ih =>
    simp only [List.map_cons, List.nodup_cons] at hl
    rw [List.foldl_cons, ih _ hl.2]
    -- the later pointers are not `e.2`, so they see the points of `w₀`
    have hsame : ∀ q ∈ l.map Sigma.snd, (w₀.closePoint e.2).points q = w₀.points q := by
      intro q hq
      have hqe : q ≠ e.2 := fun hqe => hl.1 (hqe ▸ hq)
      simp [Function.update_of_ne hqe]
    have hsum : (l.map fun e' => (((w₀.closePoint e.2).points e'.2).count : Int)).sum =
        (l.map fun e' => ((w₀.points e'.2).count : Int)).sum := by
      refine congrArg List.sum (List.map_congr_left fun e' he' => ?_)
      rw [hsame e'.2 (List.mem_map_of_mem he')]
    ext q
    · rfl
    · rfl
    · rfl
    · simp only [closePoint_waiting, List.map_cons, List.sum_cons, hsum]
      omega
    · rfl
    · by_cases hq : q ∈ l.map Sigma.snd
      · simp [hq, hsame q hq]
      · by_cases hqe : q = e.2
        · subst hqe
          simp [hq]
        · simp [hq, hqe]
    · rfl

theorem Close_ok (hcl : w.Close = .ok w') : w.closed = false ∧
    w' = w.wpoints.entries.foldl (fun w e => w.closePoint e.2) { w with closed := true } := by
  unfold Close at hcl
  split at hcl
  · cases hcl
  · rename_i hopen
    exact ⟨by simpa using hopen, (Except.ok.inj hcl).symm⟩

/-- `Close` leaves a closed hub whose points are all closed and whose `waiting` is zero. -/
theorem Close_consistent (hc : Consistent w h) (ha : Above w) (hcl : w.Close = .ok w') :
    Consistent w' h ∧ Above w' ∧ Extends w w' ∧ w'.closed = true := by
  obtain ⟨hopen, rfl⟩ := Close_ok hcl
  rw [foldl_closePoint _ _ hc.nodup_pointers]
  set L := w.wpoints.entries.map Sigma.snd with hL
  have hmem : ∀ t p, w.wpoints.lookup t = some p → p ∈ L := fun t p hp =>
    List.mem_map.mpr ⟨⟨t, p⟩, AList.mem_lookup_iff.mp hp, rfl⟩
  refine ⟨⟨?_, ?_, ?_, ?_, ?_⟩, ha, ?_, rfl⟩
  · -- the loop subtracted every mapped count, and every mapped count is now zero
    have hzero : countTotal (fun q => if q ∈ L then
        { w.points q with chClosed := true, count := 0 } else w.points q) w.wpoints = 0 := by
      refine List.sum_eq_zero fun x hx => ?_
      obtain ⟨e, he, rfl⟩ := List.mem_map.mp hx
      simp [List.mem_map_of_mem (f := Sigma.snd) he, hL]
    have hw := hc.waiting_eq
    simp only [weight] at hw ⊢
    rw [hzero, hw]
    exact sub_self _
  · intro hm
    have hw := hc.waiting_eq
    simp only [weight] at hw
    simp only [hw]
    exact (sub_self _).le.trans hm
  · intro t p hp
    obtain ⟨hpn, hpt, -⟩ := hc.mapped t p hp
    simp [hmem t p hp, hpn, hpt]
  · intro q hq hqc
    by_cases hqL : q ∈ L
    · simp [hqL] at hqc
    · simp only [hqL, if_false] at hqc
      obtain ⟨hl, -⟩ := hc.opened q hq hqc
      exact absurd (hmem _ q hl) hqL
  · intro q hq
    by_cases hqL : q ∈ L
    · simp [hqL]
    · simp only [hqL, if_false] at hq ⊢
      exact hc.shut q hq
  · refine ⟨le_rfl, fun q _ => ?_, fun q _ hq => ?_, fun _ => rfl, rfl⟩
    · by_cases hqL : q ∈ L <;> simp [hqL]
    · by_cases hqL : q ∈ L
      · simp [hqL]
      · simpa [hqL] using hq

/-! ### The two critical sections of `WaitFor` -/

/-- Give the mapped point of key `t` of an open hub a new count `n` of holders, one at least,
and set `waiting` to match. -/
theorem Consistent.recount (hc : Consistent w h) (hopen : w.closed = false) {t p n : Nat}
    {v : Int} (hl : w.wpoints.lookup t = some p) (hn : 0 < n)
    (hv : v = w.waiting + n - (w.points p).count) (hb : 0 ≤ w.maxWaiting → v ≤ w.maxWaiting)
    {h' : Nat → Nat} (hh : h' p = n) (hq : ∀ q, q ≠ p → h' q = h q) :
    Consistent
      { w with
        points := Function.update w.points p { w.points p with count := n }
        waiting := v } h' := by
  obtain ⟨hpn, hpt, hpc⟩ := hc.mapped t p hl
  have hset := hc.weight_setPoint hl { w.points p with count := n }
  constructor
  · have hw := hc.waiting_eq
    simp only [weight, setPoint_points, setPoint_wpoints] at hset hw ⊢
    omega
  · exact hb
  · intro a q haq
    obtain ⟨hqn, hqt, hqc⟩ := hc.mapped a q haq
    by_cases hqp : q = p
    · subst hqp
      simpa using ⟨hqn, hqt, hqc⟩
    · simpa [Function.update_of_ne hqp] using ⟨hqn, hqt, hqc⟩
  · intro q hqn hqc
    dsimp only at hqn hqc ⊢
    by_cases hqp : q = p
    · subst hqp
      rw [Function.update_self]
      exact ⟨hpt ▸ hl, hh.symm, hh ▸ hn⟩
    · rw [Function.update_of_ne hqp] at hqc ⊢
      rw [hq q hqp]
      exact hc.opened q hqn hqc
  · intro q hqc
    by_cases hqp : q = p
    · -- the point is mapped in an open hub, so its channel is open
      subst hqp
      simp only [Function.update_self] at hqc
      rw [hpc, hopen] at hqc
      exact absurd hqc Bool.false_ne_true
    · simp only [Function.update_of_ne hqp] at hqc ⊢
      exact hc.shut q hqc

/-- Map a new point for `t` in an open hub, with its one holder. -/
theorem Consistent.allocate (hc : Consistent w h) (hopen : w.closed = false) {t : Nat}
    (hl : w.wpoints.lookup t = none) (hb : 0 ≤ w.maxWaiting → w.waiting + 1 ≤ w.maxWaiting)
    {h' : Nat → Nat} (hh : h' w.next = 1) (hq : ∀ q, q ≠ w.next → h' q = h q) :
    Consistent
      { w with
        wpoints := w.wpoints.insert t w.next
        points := Function.update w.points w.next ⟨t, false, 1⟩
        waiting := w.waiting + 1
        next := w.next + 1 } h' := by
  -- no key maps to the new pointer yet
  have hfree : ∀ a b, w.wpoints.lookup a = some b → b ≠ w.next := fun a b hab hb =>
    (Nat.lt_irrefl _) (hb ▸ (hc.mapped a b hab).1)
  constructor
  · have hw := hc.waiting_eq
    have hnot : t ∉ w.wpoints := AList.lookup_eq_none.mp hl
    simp only [weight, countTotal] at hw ⊢
    rw [total_insert_of_notMem hnot]
    have hrest := countTotal_update_of_unmapped w.points ⟨t, false, 1⟩ hfree
    simp only [countTotal] at hrest
    simp only [Function.update_self, hrest, hw]
    omega
  · exact hb
  · intro a q haq
    dsimp only at haq ⊢
    by_cases hat : a = t
    · subst hat
      rw [AList.lookup_insert] at haq
      cases haq
      rw [Function.update_self]
      exact ⟨Nat.lt_succ_self _, rfl, hopen.symm⟩
    · rw [AList.lookup_insert_ne hat] at haq
      obtain ⟨hqn, hqt, hqc⟩ := hc.mapped a q haq
      rw [Function.update_of_ne (hfree a q haq)]
      exact ⟨Nat.lt_succ_of_lt hqn, hqt, hqc⟩
  · intro q hqn hqc
    dsimp only at hqn hqc ⊢
    by_cases hqp : q = w.next
    · subst hqp
      rw [Function.update_self, AList.lookup_insert]
      exact ⟨rfl, hh.symm, hh ▸ Nat.one_pos⟩
    · rw [Function.update_of_ne hqp] at hqc ⊢
      have hqn' : q < w.next := by omega
      obtain ⟨hql, hcnt, hpos⟩ := hc.opened q hqn' hqc
      have hqt : (w.points q).t ≠ t := by
        intro hqt
        rw [hqt, hl] at hql
        exact absurd hql (Option.some_ne_none q).symm
      rw [AList.lookup_insert_ne hqt, hq q hqp]
      exact ⟨hql, hcnt, hpos⟩
  · intro q hqc
    dsimp only at hqc ⊢
    by_cases hqp : q = w.next
    · subst hqp
      rw [Function.update_self] at hqc
      exact absurd hqc Bool.false_ne_true
    · rw [Function.update_of_ne hqp] at hqc ⊢
      exact hc.shut q hqc

/-- What the first critical section of `WaitFor(t)` can do: return with the hub untouched (with
`nil` only when `t` is done), or register on the mapped point for `t`, or on a new one. -/
theorem waitForEnter_cases (w : WatchersHub) (t : Nat) :
    (∃ r, w.waitForEnter t = (w, .returned r) ∧ (r = .ok () → t ≤ w.doneUpto)) ∨
    (w.closed = false ∧ w.doneUpto < t ∧ w.waiting ≠ w.maxWaiting ∧ ∃ p,
      w.wpoints.lookup t = some p ∧
      w.waitForEnter t =
        ({ w with
            points := Function.update w.points p
              { w.points p with count := (w.points p).count + 1 }
            waiting := w.waiting + 1 }, .blocked p)) ∨
    (w.closed = false ∧ w.doneUpto < t ∧ w.waiting ≠ w.maxWaiting ∧
      w.wpoints.lookup t = none ∧
      w.waitForEnter t =
        ({ w with
            wpoints := w.wpoints.insert t w.next
            points := Function.update w.points w.next ⟨t, false, 1⟩
            waiting := w.waiting + 1
            next := w.next + 1 }, .blocked w.next)) := by
  by_cases hcl : w.closed = true
  · exact .inl ⟨.error .ErrAlreadyClosed, by simp [waitForEnter, hcl], fun h => by cases h⟩
  have hopen : w.closed = false := by simpa using hcl
  by_cases hle : t ≤ w.doneUpto
  · exact .inl ⟨.ok (), by simp [waitForEnter, hopen, hle], fun _ => hle⟩
  by_cases hfull : w.waiting = w.maxWaiting
  · exact .inl ⟨.error .ErrMaxWaitessLimitExceeded, by simp [waitForEnter, hopen, hle, hfull],
      fun h => by cases h⟩
  refine .inr ?_
  cases hl : w.wpoints.lookup t with
  | some p =>
    refine .inl ⟨hopen, by omega, hfull, p, rfl, ?_⟩
    simp [waitForEnter, pointFor, hopen, hle, hfull, hl, setPoint]
  | none =>
    refine .inr ⟨hopen, by omega, hfull, rfl, ?_⟩
    simp only [waitForEnter, pointFor, hopen, hle, hfull, hl, setPoint, Bool.false_eq_true,
      if_false, Prod.mk.injEq, and_true]
    ext q <;> simp [Function.update_idem]

/-- What the second critical section of `WaitFor` can do: fail on a closed hub, return `nil`
after the point's channel, return `ctx.Err()` after the context (leaving the point alone when
`DoneUpto` already released it), take itself off the point's count, or, as the last holder,
release the point the way `DoneUpto` does. -/
theorem waitForExit_cases (w : WatchersHub) (t p : Nat) (c : Bool) :
    (w.closed = true ∧ w.waitForExit t p c = (w, .error .ErrAlreadyClosed)) ∨
    (w.closed = false ∧ c = false ∧ w.waitForExit t p c = (w, .ok ())) ∨
    (w.closed = false ∧ c = true ∧ (w.points p).count = 0 ∧
      w.waitForExit t p c = (w, .error .ctxErr)) ∨
    (w.closed = false ∧ c = true ∧ 1 < (w.points p).count ∧
      w.waitForExit t p c =
        ({ w with
            points := Function.update w.points p
              { w.points p with count := (w.points p).count - 1 }
            waiting := w.waiting - 1 }, .error .ctxErr)) ∨
    (w.closed = false ∧ c = true ∧ (w.points p).count = 1 ∧
      w.waitForExit t p c =
        ({ w with
            wpoints := w.wpoints.erase t
            points := Function.update w.points p
              { w.points p with chClosed := true, count := 0 }
            waiting := w.waiting - 1 }, .error .ctxErr)) := by
  by_cases hcl : w.closed = true
  · exact .inl ⟨hcl, by simp [waitForExit, hcl]⟩
  have hopen : w.closed = false := by simpa using hcl
  cases c with
  | false => exact .inr (.inl ⟨hopen, rfl, by simp [waitForExit, hopen]⟩)
  | true =>
    refine .inr (.inr ?_)
    rcases Nat.lt_trichotomy (w.points p).count 1 with h0 | h1 | h2
    · have hz : (w.points p).count = 0 := by omega
      exact .inl ⟨hopen, rfl, hz, by simp [waitForExit, hopen, hz]⟩
    · refine .inr (.inr ⟨hopen, rfl, h1, ?_⟩)
      simp only [waitForExit, hopen, h1, setPoint, Bool.false_eq_true, if_false, if_true,
        Nat.zero_lt_one, Function.update_self, Nat.sub_self, Prod.mk.injEq, and_true]
      ext q <;> simp [Function.update_idem]
    · refine .inr (.inl ⟨hopen, rfl, h2, ?_⟩)
      have hpos : 0 < (w.points p).count := by omega
      have hne : (w.points p).count - 1 ≠ 0 := by omega
      simp [waitForExit, hopen, hpos, hne, setPoint]

/-- The last holder's cleanup is the release `DoneUpto` makes of the point's key. -/
theorem releaseAt_eq_of_last {t p : Nat} (hl : w.wpoints.lookup t = some p)
    (h1 : (w.points p).count = 1) :
    { w with
      wpoints := w.wpoints.erase t
      points := Function.update w.points p { w.points p with chClosed := true, count := 0 }
      waiting := w.waiting - 1 } = w.releaseAt t := by
  rw [releaseAt_of_some hl]
  ext <;> simp [h1]

/-- The second critical section keeps the invariant, the returning call no longer holding its
point. -/
theorem waitForExit_consistent (hc : Consistent w h) {t p : Nat} {c : Bool} (hpn : p < w.next)
    (hpt : (w.points p).t = t) (hh : 0 < h p) (hwoken : c = false → (w.points p).chClosed = true) :
    Consistent (w.waitForExit t p c).1 (Function.update h p (h p - 1)) := by
  -- where the hub is left alone, only the holder count of `p` moves, and `p` is closed
  have hkeep : (w.points p).chClosed = true → Consistent w (Function.update h p (h p - 1)) :=
    fun hpc => hc.congr fun q _ hqc => by
      have hqp : q ≠ p := fun hqp => by rw [hqp, hpc] at hqc; exact Bool.false_ne_true hqc.symm
      exact Function.update_of_ne hqp _ _
  rcases waitForExit_cases w t p c with ⟨hcl, heq⟩ | ⟨-, hc0, heq⟩ | ⟨-, -, h0, heq⟩ |
      ⟨hopen, -, h2, heq⟩ | ⟨hopen, -, h1, heq⟩ <;> rw [heq]
  · exact hkeep (hc.chClosed_of_closed hcl hpn)
  · exact hkeep (hwoken hc0)
  · -- a count of zero is a point `DoneUpto` released
    refine hkeep ?_
    cases hpc : (w.points p).chClosed with
    | true => rfl
    | false =>
      obtain ⟨-, hcnt, hpos⟩ := hc.opened p hpn hpc
      omega
  · have hpc : (w.points p).chClosed = false := by
      cases hpc : (w.points p).chClosed with
      | true => rw [hc.shut p hpc] at h2; omega
      | false => rfl
    obtain ⟨hl, hcnt, -⟩ := hc.opened p hpn hpc
    refine hc.recount hopen hl (by omega) (by omega) (fun hm => ?_) (by simp [hcnt])
      (fun q hqp => Function.update_of_ne hqp _ _)
    have := hc.bounded hm
    omega
  · have hpc : (w.points p).chClosed = false := by
      cases hpc : (w.points p).chClosed with
      | true => rw [hc.shut p hpc] at h1; omega
      | false => rfl
    obtain ⟨hl, hcnt, -⟩ := hc.opened p hpn hpc
    rw [hpt] at hl
    dsimp only
    rw [releaseAt_eq_of_last hl h1]
    refine (releaseAt_consistent hc t).congr fun q hq hqc => ?_
    -- the released point is closed; every other holder count is unchanged
    have hqp : q ≠ p := by
      rintro rfl
      rw [releaseAt_of_some hl] at hqc
      simp at hqc
    exact Function.update_of_ne hqp _ _

section Enter

variable (w) (t : Nat)

/-- The first critical section keeps the invariant, the new call holding the point it
registered on; no call held the pointer about to be allocated. -/
theorem waitForEnter_consistent (hc : Consistent w h) (hfresh : h w.next = 0) :
    Consistent (w.waitForEnter t).1 (fun q => h q + if (w.waitForEnter t).2.waitsOn q then 1 else 0) := by
  rcases waitForEnter_cases w t with ⟨r, heq, -⟩ | ⟨hopen, -, hfree, p, hl, heq⟩ |
      ⟨hopen, -, hfree, hl, heq⟩ <;> rw [heq] <;> dsimp only
  · exact hc.congr fun q _ _ => by simp [Phase.waitsOn]
  · obtain ⟨hpn, -, hpc⟩ := hc.mapped t p hl
    obtain ⟨-, hcnt, -⟩ := hc.opened p hpn (hpc.trans hopen)
    refine hc.recount hopen hl (Nat.succ_pos _) (by push_cast; omega) (fun hm => ?_)
      (by simp [Phase.waitsOn, hcnt]) (fun q hqp => by simp [Phase.waitsOn, Ne.symm hqp])
    have := hc.bounded hm
    omega
  · refine hc.allocate hopen hl (fun hm => ?_) (by simp [Phase.waitsOn, hfresh])
      (fun q hqp => by simp [Phase.waitsOn, Ne.symm hqp])
    have := hc.bounded hm
    omega

theorem waitForEnter_above (ha : Above w) : Above (w.waitForEnter t).1 := by
  rcases waitForEnter_cases w t with ⟨r, heq, -⟩ | ⟨-, -, -, p, -, heq⟩ |
      ⟨-, hlt, -, -, heq⟩ <;> rw [heq]
  · exact ha
  · exact ha
  · intro a q haq
    by_cases hat : a = t
    · exact hat ▸ hlt
    · exact ha a q (by simpa [AList.lookup_insert_ne hat] using haq)

theorem waitForEnter_extends : Extends w (w.waitForEnter t).1 := by
  rcases waitForEnter_cases w t with ⟨r, heq, -⟩ | ⟨-, -, -, p, -, heq⟩ |
      ⟨-, -, -, -, heq⟩ <;> rw [heq]
  · exact Extends.refl w
  · exact Extends.of_update rfl le_rfl id rfl (fun _ => rfl) (fun _ h => h)
  · exact Extends.of_update rfl (Nat.le_succ _) id rfl (fun h => absurd h (Nat.lt_irrefl _))
      (fun h => absurd h (Nat.lt_irrefl _))

@[simp] theorem waitForEnter_closed : (w.waitForEnter t).1.closed = w.closed := by
  rcases waitForEnter_cases w t with ⟨r, heq, -⟩ | ⟨-, -, -, p, -, heq⟩ |
      ⟨-, -, -, -, heq⟩ <;> rw [heq]

/-- The first critical section closes no channel. -/
theorem waitForEnter_chClosed (q : Nat) (hq : (w.points q).chClosed = false) :
    ((w.waitForEnter t).1.points q).chClosed = false := by
  rcases waitForEnter_cases w t with ⟨r, heq, -⟩ | ⟨-, -, -, p, -, heq⟩ |
      ⟨-, -, -, -, heq⟩ <;> rw [heq] <;> dsimp only
  · exact hq
  · by_cases hqp : q = p
    · subst hqp
      simpa using hq
    · simpa [Function.update_of_ne hqp] using hq
  · by_cases hqp : q = w.next
    · subst hqp
      simp
    · simpa [Function.update_of_ne hqp] using hq

/-- A registered call holds an allocated, open point for its own `t`. -/
theorem waitForEnter_blocked (hc : Consistent w h) {p : Nat}
    (hp : (w.waitForEnter t).2 = .blocked p) :
    p < (w.waitForEnter t).1.next ∧ ((w.waitForEnter t).1.points p).t = t ∧
      ((w.waitForEnter t).1.points p).chClosed = false := by
  rcases waitForEnter_cases w t with ⟨r, heq, -⟩ | ⟨hopen, -, -, p', hl, heq⟩ |
      ⟨-, -, -, -, heq⟩ <;> rw [heq] at hp ⊢ <;> cases hp
  · obtain ⟨hpn, hpt, hpc⟩ := hc.mapped t p hl
    simpa using ⟨hpn, hpt, hpc.trans hopen⟩
  · simp

@[simp] theorem waitForEnter_doneUpto : (w.waitForEnter t).1.doneUpto = w.doneUpto := by
  rcases waitForEnter_cases w t with ⟨r, heq, -⟩ | ⟨-, -, -, p, -, heq⟩ |
      ⟨-, -, -, -, heq⟩ <;> rw [heq]

/-- `WaitFor` returns `nil` from its first critical section only when `t` is done. -/
theorem waitForEnter_ok (hr : (w.waitForEnter t).2 = .returned (.ok ())) : t ≤ w.doneUpto := by
  rcases waitForEnter_cases w t with ⟨r, heq, hok⟩ | ⟨-, -, -, p', -, heq⟩ |
      ⟨-, -, -, -, heq⟩ <;> rw [heq] at hr <;> cases hr
  exact hok rfl

/-- The first critical section never leaves a call out of its `select`. -/
theorem waitForEnter_not_woken {p : Nat} {b : Bool} : (w.waitForEnter t).2 ≠ .woken p b := by
  rcases waitForEnter_cases w t with ⟨r, heq, -⟩ | ⟨-, -, -, p', -, heq⟩ |
      ⟨-, -, -, -, heq⟩ <;> rw [heq] <;> exact fun h => by cases h

end Enter

section Exit

variable (w) (t p : Nat) (c : Bool)

theorem waitForExit_above (ha : Above w) : Above (w.waitForExit t p c).1 := by
  rcases waitForExit_cases w t p c with ⟨-, heq⟩ | ⟨-, -, heq⟩ | ⟨-, -, -, heq⟩ |
      ⟨-, -, -, heq⟩ | ⟨-, -, -, heq⟩ <;> rw [heq]
  · exact ha
  · exact ha
  · exact ha
  · exact ha
  · intro a q haq
    have hat : a ≠ t := by
      rintro rfl
      simp at haq
    exact ha a q (by simpa [AList.lookup_erase_ne hat] using haq)

theorem waitForExit_extends : Extends w (w.waitForExit t p c).1 := by
  rcases waitForExit_cases w t p c with ⟨-, heq⟩ | ⟨-, -, heq⟩ | ⟨-, -, -, heq⟩ |
      ⟨-, -, -, heq⟩ | ⟨-, -, -, heq⟩ <;> rw [heq]
  · exact Extends.refl w
  · exact Extends.refl w
  · exact Extends.refl w
  · exact Extends.of_update rfl le_rfl id rfl (fun _ => rfl) (fun _ h => h)
  · exact Extends.of_update rfl le_rfl id rfl (fun _ => rfl) (fun _ _ => rfl)

@[simp] theorem waitForExit_closed : (w.waitForExit t p c).1.closed = w.closed := by
  rcases waitForExit_cases w t p c with ⟨-, heq⟩ | ⟨-, -, heq⟩ | ⟨-, -, -, heq⟩ |
      ⟨-, -, -, heq⟩ | ⟨-, -, -, heq⟩ <;> rw [heq]

/-- `WaitFor` returns `nil` from its second critical section only on an open hub, after the
point's channel. -/
theorem waitForExit_ok (hr : (w.waitForExit t p c).2 = .ok ()) : w.closed = false ∧ c = false := by
  rcases waitForExit_cases w t p c with ⟨-, heq⟩ | ⟨hopen, hc0, heq⟩ | ⟨-, -, -, heq⟩ |
      ⟨-, -, -, heq⟩ | ⟨-, -, -, heq⟩ <;> rw [heq] at hr <;> cases hr
  exact ⟨hopen, hc0⟩

/-- The second critical section closes only its own point, and only as its last holder. -/
theorem waitForExit_closes (hc : Consistent w h) (hpn : p < w.next) (q : Nat)
    (hq : (w.points q).chClosed = false) (hq' : ((w.waitForExit t p c).1.points q).chClosed = true) :
    q = p ∧ h p = 1 := by
  rcases waitForExit_cases w t p c with ⟨-, heq⟩ | ⟨-, -, heq⟩ | ⟨-, -, -, heq⟩ |
      ⟨-, -, -, heq⟩ | ⟨-, -, h1, heq⟩ <;> rw [heq] at hq' <;> dsimp only at hq'
  · rw [hq] at hq'; exact absurd hq' Bool.false_ne_true
  · rw [hq] at hq'; exact absurd hq' Bool.false_ne_true
  · rw [hq] at hq'; exact absurd hq' Bool.false_ne_true
  · by_cases hqp : q = p
    · subst hqp
      simp [hq] at hq'
    · simp [Function.update_of_ne hqp, hq] at hq'
  · by_cases hqp : q = p
    · subst hqp
      obtain ⟨-, hcnt, -⟩ := hc.opened q hpn hq
      exact ⟨rfl, hcnt ▸ h1⟩
    · simp [Function.update_of_ne hqp, hq] at hq'

end Exit

end WatchersHub

/-! ## 4. The invariant of the interleaving -/

namespace Sys

open WatchersHub

variable {s s' : Sys}

/-! ### What each event does -/

theorem step_waitFor (s : Sys) (t : Nat) : s.step (.waitFor t) =
    some ⟨(s.hub.waitForEnter t).1, s.calls ++ [⟨t, false, (s.hub.waitForEnter t).2⟩]⟩ := rfl

theorem step_cancel {k : Nat} (h : s.step (.cancel k) = some s') :
    ∃ c, s.calls[k]? = some c ∧ s' = { s with calls := s.calls.set k { c with ctxDone := true } } := by
  simp only [step] at h
  split at h
  · exact ⟨_, ‹_›, (Option.some.inj h).symm⟩
  · cases h

theorem step_select {k : Nat} {b : Bool} (h : s.step (.select k b) = some s') :
    ∃ t ctx p, s.calls[k]? = some ⟨t, ctx, .blocked p⟩ ∧
      (if b then ctx else (s.hub.points p).chClosed) = true ∧
      s' = { s with calls := s.calls.set k ⟨t, ctx, .woken p b⟩ } := by
  simp only [step] at h
  split at h
  · rename_i t ctx p hk
    by_cases hg : (if b then ctx else (s.hub.points p).chClosed) = true
    · rw [if_pos hg] at h
      exact ⟨t, ctx, p, hk, hg, (Option.some.inj h).symm⟩
    · rw [if_neg hg] at h
      cases h
  · cases h

theorem step_relock {k : Nat} (h : s.step (.relock k) = some s') :
    ∃ t ctx p b, s.calls[k]? = some ⟨t, ctx, .woken p b⟩ ∧
      s' = ⟨(s.hub.waitForExit t p b).1, s.calls.set k ⟨t, ctx, .returned (s.hub.waitForExit t p b).2⟩⟩ := by
  simp only [step] at h
  split at h
  · exact ⟨_, _, _, _, ‹_›, (Option.some.inj h).symm⟩
  · cases h

/-! ### Holders -/

theorem holders_append (w : WatchersHub) (c : Call) :
    (⟨w, s.calls ++ [c]⟩ : Sys).holders = fun q => s.holders q + if c.phase.waitsOn q then 1 else 0 := by
  funext q
  simp [holders, List.countP_append]

/-- Changing call `k` moves the holder counts by what the two phases hold. -/
theorem holders_set {k : Nat} {c : Call} (hk : s.calls[k]? = some c) (w : WatchersHub) (c' : Call)
    (q : Nat) : (⟨w, s.calls.set k c'⟩ : Sys).holders q =
      s.holders q - (if c.phase.waitsOn q then 1 else 0) + if c'.phase.waitsOn q then 1 else 0 := by
  obtain ⟨hlt, hget⟩ := List.getElem?_eq_some_iff.mp hk
  simp only [holders]
  rw [List.countP_set hlt, hget]

/-- A call that keeps what it holds keeps every holder count. -/
theorem holders_set_same {k : Nat} {c : Call} (hk : s.calls[k]? = some c) (w : WatchersHub)
    (c' : Call) (hsame : c'.phase.waitsOn = c.phase.waitsOn) :
    (⟨w, s.calls.set k c'⟩ : Sys).holders = s.holders := by
  funext q
  rw [holders_set hk, hsame]
  -- the call is one of those counted when it holds `q`
  by_cases hq : c.phase.waitsOn q = true
  · have : 0 < s.holders q :=
      List.countP_pos_iff.mpr ⟨c, List.mem_of_getElem? hk, hq⟩
    simp only [hq, if_true]
    omega
  · simp [hq]

/-- A call that returns stops holding its point. -/
theorem holders_set_returned {k t p : Nat} {ctx : Bool} {ph : Phase}
    (hk : s.calls[k]? = some ⟨t, ctx, ph⟩) (hph : ph.waitsOn p = true)
    (hhold : ∀ q, ph.waitsOn q = true → q = p) (w : WatchersHub) (r : Except WatchErr Unit) :
    (⟨w, s.calls.set k ⟨t, ctx, .returned r⟩⟩ : Sys).holders =
      Function.update s.holders p (s.holders p - 1) := by
  funext q
  rw [holders_set hk]
  by_cases hqp : q = p
  · subst hqp
    simp [hph]
  · have hq : ph.waitsOn q = false := by
      cases h : ph.waitsOn q with
      | true => exact absurd (hhold q h) hqp
      | false => rfl
    simp [hq, Function.update_of_ne hqp]

/-- A call that holds a point is counted among its holders. -/
theorem holders_pos {k : Nat} {c : Call} (hk : s.calls[k]? = some c) {p : Nat}
    (hp : c.phase.waitsOn p = true) : 0 < s.holders p :=
  List.countP_pos_iff.mpr ⟨c, List.mem_of_getElem? hk, hp⟩

/-! ### The invariant -/

/-- What ties the calls to the hub: the hub is consistent with the number of calls holding each
point, every mapped value is above `doneUpto`, a call holds an allocated point for its own `t`,
and a call that left its `select` by the channel holds a closed point. -/
structure Inv (s : Sys) : Prop where
  hub : s.hub.Consistent s.holders
  above : s.hub.Above
  held : ∀ c ∈ s.calls, ∀ p, c.phase.waitsOn p = true → p < s.hub.next ∧ (s.hub.points p).t = c.t
  woken : ∀ c ∈ s.calls, ∀ p, c.phase = .woken p false → (s.hub.points p).chClosed = true

theorem init_inv (doneUpto : Nat) (maxWaiting : Int) : (init doneUpto maxWaiting).Inv where
  hub := ⟨rfl, fun _ => by simpa [init, New] using ‹0 ≤ maxWaiting›, fun _ _ h => by simp [init, New] at h,
    fun _ h => by simp [init, New] at h, fun _ h => by simp [init, New] at h⟩
  above _ _ h := by simp [init, New] at h
  held _ h := by simp [init] at h
  woken _ h := by simp [init] at h

namespace Inv

variable (hinv : s.Inv)
include hinv

/-- No call holds the pointer the hub allocates next. -/
theorem holders_next : s.holders s.hub.next = 0 :=
  List.countP_eq_zero.mpr fun c hc hp => Nat.lt_irrefl _ (hinv.held c hc _ hp).1

/-- The calls keep what they hold across a change of the hub that undoes nothing. -/
theorem held_of_extends {w' : WatchersHub} (hx : Extends s.hub w') {c : Call} (hc : c ∈ s.calls)
    {p : Nat} (hp : c.phase.waitsOn p = true) : p < w'.next ∧ (w'.points p).t = c.t := by
  obtain ⟨hpn, hpt⟩ := hinv.held c hc p hp
  exact ⟨lt_of_lt_of_le hpn hx.next_le, (hx.t_eq p hpn).trans hpt⟩

theorem woken_of_extends {w' : WatchersHub} (hx : Extends s.hub w') {c : Call} (hc : c ∈ s.calls)
    {p : Nat} (hp : c.phase = .woken p false) : (w'.points p).chClosed = true :=
  hx.chClosed_mono p (hinv.held c hc p (by simp [hp])).1 (hinv.woken c hc p hp)

/-- A hub method that keeps the hub's invariant and undoes nothing keeps `Inv`. -/
theorem with_hub {w' : WatchersHub} (hc : Consistent w' s.holders) (ha : Above w')
    (hx : Extends s.hub w') : Inv { s with hub := w' } where
  hub := hc
  above := ha
  held _ hcm _ hp := hinv.held_of_extends hx hcm hp
  woken _ hcm _ hp := hinv.woken_of_extends hx hcm hp

theorem after (r : Except WatchErr WatchersHub)
    (hr : ∀ w', r = .ok w' → Consistent w' s.holders ∧ Above w' ∧ Extends s.hub w') :
    (s.after r).Inv := by
  cases r with
  | error => exact hinv
  | ok w' =>
    obtain ⟨hc, ha, hx⟩ := hr w' rfl
    exact hinv.with_hub hc ha hx

theorem waitFor {t : Nat} (hs : s.step (.waitFor t) = some s') : s'.Inv := by
  rw [step_waitFor, Option.some.injEq] at hs
  subst hs
  have hx := waitForEnter_extends s.hub t
  refine ⟨?_, waitForEnter_above s.hub t hinv.above, ?_, ?_⟩
  · rw [holders_append]
    exact waitForEnter_consistent s.hub t hinv.hub hinv.holders_next
  · intro c hc p hp
    rcases List.mem_append.mp hc with hc | hc
    · exact hinv.held_of_extends hx hc hp
    · rw [List.mem_singleton] at hc
      subst hc
      cases hph : (s.hub.waitForEnter t).2 with
      | blocked q =>
        rw [hph, Phase.waitsOn_blocked, beq_iff_eq] at hp
        subst hp
        exact (waitForEnter_blocked s.hub t hinv.hub hph).imp_right And.left
      | woken q b => exact absurd hph (waitForEnter_not_woken s.hub t)
      | returned r => rw [hph, Phase.waitsOn_returned] at hp; cases hp
  · intro c hc p hp
    rcases List.mem_append.mp hc with hc | hc
    · exact hinv.woken_of_extends hx hc hp
    · rw [List.mem_singleton] at hc
      subst hc
      exact absurd hp (waitForEnter_not_woken s.hub t)

theorem cancel {k : Nat} (hs : s.step (.cancel k) = some s') : s'.Inv := by
  obtain ⟨c, hk, rfl⟩ := step_cancel hs
  have hh := holders_set_same hk s.hub { c with ctxDone := true } rfl
  refine ⟨hh ▸ hinv.hub, hinv.above, ?_, ?_⟩
  · intro c' hc' p hp
    rcases List.mem_or_eq_of_mem_set hc' with hc' | rfl
    · exact hinv.held c' hc' p hp
    · exact hinv.held c (List.mem_of_getElem? hk) p hp
  · intro c' hc' p hp
    rcases List.mem_or_eq_of_mem_set hc' with hc' | rfl
    · exact hinv.woken c' hc' p hp
    · exact hinv.woken c (List.mem_of_getElem? hk) p hp

theorem select {k : Nat} {b : Bool} (hs : s.step (.select k b) = some s') : s'.Inv := by
  obtain ⟨t, ctx, p, hk, hready, rfl⟩ := step_select hs
  have hh := holders_set_same hk s.hub ⟨t, ctx, .woken p b⟩ (by funext q; simp)
  have hmem := List.mem_of_getElem? hk
  refine ⟨hh ▸ hinv.hub, hinv.above, ?_, ?_⟩
  · intro c' hc' q hq
    rcases List.mem_or_eq_of_mem_set hc' with hc' | rfl
    · exact hinv.held c' hc' q hq
    · exact hinv.held _ hmem q (by simpa using hq)
  · intro c' hc' q hq
    rcases List.mem_or_eq_of_mem_set hc' with hc' | rfl
    · exact hinv.woken c' hc' q hq
    · -- by the channel's case: the guard was that the channel is closed
      cases hq
      simpa using hready

theorem relock {k : Nat} (hs : s.step (.relock k) = some s') : s'.Inv := by
  obtain ⟨t, ctx, p, b, hk, rfl⟩ := step_relock hs
  have hmem := List.mem_of_getElem? hk
  obtain ⟨hpn, hpt⟩ := hinv.held _ hmem p (by simp)
  have hx := waitForExit_extends s.hub t p b
  refine ⟨?_, waitForExit_above s.hub t p b hinv.above, ?_, ?_⟩
  · have hhold : ∀ q, (Phase.woken p b).waitsOn q = true → q = p := fun q hq => by
      simp only [Phase.waitsOn_woken, beq_iff_eq] at hq
      exact hq.symm
    rw [holders_set_returned (p := p) hk (by simp) hhold]
    exact waitForExit_consistent hinv.hub hpn hpt (holders_pos hk (by simp))
      (fun hb => hinv.woken _ hmem p (by rw [hb]))
  · intro c' hc' q hq
    rcases List.mem_or_eq_of_mem_set hc' with hc' | rfl
    · exact hinv.held_of_extends hx hc' hq
    · simp at hq
  · intro c' hc' q hq
    rcases List.mem_or_eq_of_mem_set hc' with hc' | rfl
    · exact hinv.woken_of_extends hx hc' hq
    · cases hq

end Inv

/-- Every event keeps the invariant. -/
theorem Inv.step (hinv : s.Inv) {e : Event} (hs : s.step e = some s') : s'.Inv := by
  cases e with
  | waitFor t => exact hinv.waitFor hs
  | cancel k => exact hinv.cancel hs
  | select k b => exact hinv.select hs
  | relock k => exact hinv.relock hs
  | doneUpto t =>
    cases hs
    exact hinv.after _ fun w' hd => DoneUpto_consistent hinv.hub hinv.above hd
  | recedeTo t =>
    cases hs
    exact hinv.after _ fun w' hr => RecedeTo_consistent hinv.hub hinv.above hr
  | close =>
    cases hs
    refine hinv.after _ fun w' hcl => ?_
    obtain ⟨hc, ha, hx, -⟩ := Close_consistent hinv.hub hinv.above hcl
    exact ⟨hc, ha, hx⟩

/-- The invariant holds in every state an interleaving reaches from a new hub. -/
theorem reachable_inv {doneUpto : Nat} {maxWaiting : Int}
    (h : Reachable step (init doneUpto maxWaiting) s) : s.Inv :=
  Reachable.invariant Inv (init_inv doneUpto maxWaiting) (fun _ _ _ hinv hs => hinv.step hs) h

/-! ### What a step does to the hub and to one call -/

@[simp] theorem after_calls (r : Except WatchErr WatchersHub) : (s.after r).calls = s.calls := by
  cases r <;> rfl

/-- No event undoes what `Extends` keeps. -/
theorem step_extends (hinv : s.Inv) {e : Event} (hs : s.step e = some s') :
    Extends s.hub s'.hub := by
  cases e with
  | waitFor t =>
    rw [step_waitFor, Option.some.injEq] at hs
    subst hs
    exact waitForEnter_extends s.hub t
  | cancel k =>
    obtain ⟨c, -, rfl⟩ := step_cancel hs
    exact Extends.refl _
  | select k b =>
    obtain ⟨t, ctx, p, -, -, rfl⟩ := step_select hs
    exact Extends.refl _
  | relock k =>
    obtain ⟨t, ctx, p, b, -, rfl⟩ := step_relock hs
    exact waitForExit_extends s.hub t p b
  | doneUpto t =>
    cases hs
    cases hd : s.hub.DoneUpto t with
    | error => exact Extends.refl _
    | ok w' => exact (DoneUpto_consistent hinv.hub hinv.above hd).2.2
  | recedeTo t =>
    cases hs
    cases hr : s.hub.RecedeTo t with
    | error => exact Extends.refl _
    | ok w' => exact (RecedeTo_consistent hinv.hub hinv.above hr).2.2
  | close =>
    cases hs
    cases hcl : s.hub.Close with
    | error => exact Extends.refl _
    | ok w' => exact (Close_consistent hinv.hub hinv.above hcl).2.2.1

/-- Calls are only ever added. -/
theorem step_length_le {e : Event} (hs : s.step e = some s') :
    s.calls.length ≤ s'.calls.length := by
  cases e with
  | waitFor t =>
    rw [step_waitFor, Option.some.injEq] at hs
    subst hs
    simp
  | cancel k =>
    obtain ⟨c, -, rfl⟩ := step_cancel hs
    simp
  | select k b =>
    obtain ⟨t, ctx, p, -, -, rfl⟩ := step_select hs
    simp
  | relock k =>
    obtain ⟨t, ctx, p, b, -, rfl⟩ := step_relock hs
    simp
  | doneUpto t => cases hs; simp
  | recedeTo t => cases hs; simp
  | close => cases hs; simp

theorem reachable_length_le {s₁ s₂ : Sys} (h : Reachable step s₁ s₂) :
    s₁.calls.length ≤ s₂.calls.length := by
  induction h with
  | refl => exact le_rfl
  | tail _ hst ih =>
    obtain ⟨e, he⟩ := hst
    exact ih.trans (step_length_le he)

/-- What an event does to call `k`: it keeps its `t`, and its phase changes only when the event
is its own `select` (from blocked, with the chosen case ready) or its own relock (from woken, to
what the second critical section returns). -/
theorem step_call {e : Event} (hs : s.step e = some s') {k : Nat} {c : Call}
    (hk : s.calls[k]? = some c) :
    ∃ c', s'.calls[k]? = some c' ∧ c'.t = c.t ∧
      (c'.phase = c.phase ∨
        (∃ p b, e = .select k b ∧ c.phase = .blocked p ∧ c'.phase = .woken p b ∧
          (if b then c.ctxDone else (s.hub.points p).chClosed) = true ∧ s'.hub = s.hub) ∨
        (∃ p b, e = .relock k ∧ c.phase = .woken p b ∧
          c'.phase = .returned (s.hub.waitForExit c.t p b).2 ∧
          s'.hub = (s.hub.waitForExit c.t p b).1)) := by
  have hlt : k < s.calls.length := (List.getElem?_eq_some_iff.mp hk).1
  cases e with
  | waitFor t =>
    rw [step_waitFor, Option.some.injEq] at hs
    subst hs
    exact ⟨c, by rw [List.getElem?_append_left hlt, hk], rfl, .inl rfl⟩
  | cancel j =>
    obtain ⟨c₀, hj, rfl⟩ := step_cancel hs
    by_cases hjk : j = k
    · subst hjk
      rw [hj] at hk
      cases hk
      exact ⟨{ c with ctxDone := true }, by simp [hlt], rfl, .inl rfl⟩
    · exact ⟨c, by rw [List.getElem?_set_ne hjk, hk], rfl, .inl rfl⟩
  | select j b =>
    obtain ⟨t, ctx, p, hj, hready, rfl⟩ := step_select hs
    by_cases hjk : j = k
    · subst hjk
      rw [hj] at hk
      cases hk
      exact ⟨⟨t, ctx, .woken p b⟩, by simp [hlt], rfl,
        .inr (.inl ⟨p, b, rfl, rfl, rfl, hready, rfl⟩)⟩
    · exact ⟨c, by rw [List.getElem?_set_ne hjk, hk], rfl, .inl rfl⟩
  | relock j =>
    obtain ⟨t, ctx, p, b, hj, rfl⟩ := step_relock hs
    by_cases hjk : j = k
    · subst hjk
      rw [hj] at hk
      cases hk
      exact ⟨⟨t, ctx, .returned (s.hub.waitForExit t p b).2⟩, by simp [hlt], rfl,
        .inr (.inr ⟨p, b, rfl, rfl, rfl, rfl⟩)⟩
    · exact ⟨c, by rw [List.getElem?_set_ne hjk, hk], rfl, .inl rfl⟩
  | doneUpto t => cases hs; exact ⟨c, by simpa using hk, rfl, .inl rfl⟩
  | recedeTo t => cases hs; exact ⟨c, by simpa using hk, rfl, .inl rfl⟩
  | close => cases hs; exact ⟨c, by simpa using hk, rfl, .inl rfl⟩

/-- What closes a channel in an open hub: `DoneUpto` up to the point's `t` or beyond, or the
cleanup of the last holder. -/
theorem step_closes (hinv : s.Inv) {e : Event} (hs : s.step e = some s') {p : Nat}
    (hp : (s.hub.points p).chClosed = false) (hp' : (s'.hub.points p).chClosed = true)
    (hopen : s'.hub.closed = false) :
    (s.hub.points p).t ≤ s'.hub.doneUpto ∨ s'.holders p = 0 := by
  cases e with
  | waitFor t =>
    rw [step_waitFor, Option.some.injEq] at hs
    subst hs
    rw [waitForEnter_chClosed s.hub t p hp] at hp'
    exact absurd hp' Bool.false_ne_true
  | cancel k =>
    obtain ⟨c, -, rfl⟩ := step_cancel hs
    rw [hp] at hp'
    exact absurd hp' Bool.false_ne_true
  | select k b =>
    obtain ⟨t, ctx, q, -, -, rfl⟩ := step_select hs
    rw [hp] at hp'
    exact absurd hp' Bool.false_ne_true
  | relock k =>
    obtain ⟨t, ctx, q, b, hk, rfl⟩ := step_relock hs
    have hmem := List.mem_of_getElem? hk
    obtain ⟨hqn, -⟩ := hinv.held _ hmem q (by simp)
    obtain ⟨hpq, h1⟩ := waitForExit_closes s.hub t q b hinv.hub hqn p hp hp'
    subst hpq
    have hhold : ∀ q, (Phase.woken p b).waitsOn q = true → q = p := fun q hq => by
      simp only [Phase.waitsOn_woken, beq_iff_eq] at hq
      exact hq.symm
    right
    show (⟨_, s.calls.set k _⟩ : Sys).holders p = 0
    rw [holders_set_returned (p := p) hk (by simp) hhold]
    simp [h1]
  | doneUpto t =>
    cases hs
    cases hd : s.hub.DoneUpto t with
    | error =>
      simp only [hd, after, hp] at hp'
      exact absurd hp' Bool.false_ne_true
    | ok w' =>
      simp only [hd, after] at hp' ⊢
      exact .inl (DoneUpto_closes hinv.hub hd hp hp')
  | recedeTo t =>
    cases hs
    cases hr : s.hub.RecedeTo t with
    | error =>
      simp only [hr, after, hp] at hp'
      exact absurd hp' Bool.false_ne_true
    | ok w' =>
      obtain ⟨-, -, rfl⟩ := RecedeTo_ok hr
      simp only [hr, after, hp] at hp'
      exact absurd hp' Bool.false_ne_true
  | close =>
    cases hs
    cases hcl : s.hub.Close with
    | error =>
      simp only [hcl, after, hp] at hp'
      exact absurd hp' Bool.false_ne_true
    | ok w' =>
      simp only [hcl, after] at hopen
      rw [(Close_consistent hinv.hub hinv.above hcl).2.2.2] at hopen
      exact absurd hopen (by decide)

/-! ## 5. Safety over every interleaving -/

variable {doneUpto : Nat} {maxWaiting : Int}

/-- `maxWaiting` stays the one `New` was given. -/
theorem reachable_maxWaiting (h : Reachable step (init doneUpto maxWaiting) s) :
    s.hub.maxWaiting = maxWaiting := by
  induction h with
  | refl => rfl
  | @tail b c hb hst ih =>
    obtain ⟨e, he⟩ := hst
    exact (step_extends (reachable_inv hb) he).maxWaiting_eq.trans ih

/-- In every reachable state, `waiting` is the sum of the counts of the mapped points; it is
within `maxWaiting` when that is not negative; and every mapped point waits for a value above
`doneUpto`. -/
theorem reachable_waiting (h : Reachable step (init doneUpto maxWaiting) s) :
    s.hub.waiting = total (fun _ p => ((s.hub.points p).count : Int)) s.hub.wpoints ∧
      (0 ≤ maxWaiting → s.hub.waiting ≤ maxWaiting) ∧
      ∀ t p, s.hub.wpoints.lookup t = some p → s.hub.doneUpto < (s.hub.points p).t := by
  have hinv := reachable_inv h
  refine ⟨hinv.hub.waiting_eq, fun hm => ?_, fun t p hl => ?_⟩
  · rw [← reachable_maxWaiting h] at hm ⊢
    exact hinv.hub.bounded hm
  · rw [(hinv.hub.mapped t p hl).2.1]
    exact hinv.above t p hl

/-- Once every call has returned, `waiting` is zero and, unless the hub was closed, no point is
mapped. -/
theorem reachable_all_returned (h : Reachable step (init doneUpto maxWaiting) s)
    (hret : ∀ c ∈ s.calls, ∃ r, c.phase = .returned r) :
    s.hub.waiting = 0 ∧ (s.hub.closed = false → s.hub.wpoints.entries = []) := by
  have hinv := reachable_inv h
  have hnone : ∀ p, s.holders p = 0 := fun p => List.countP_eq_zero.mpr fun c hc hp => by
    obtain ⟨r, hr⟩ := hret c hc
    rw [hr, Phase.waitsOn_returned] at hp
    exact Bool.false_ne_true hp
  -- an open hub maps no point: a mapped point would be open and held
  have hunmapped : s.hub.closed = false → ∀ t p, s.hub.wpoints.lookup t ≠ some p := by
    intro hopen t p hl
    obtain ⟨hpn, -, hpc⟩ := hinv.hub.mapped t p hl
    obtain ⟨-, -, hpos⟩ := hinv.hub.opened p hpn (hpc.trans hopen)
    rw [hnone p] at hpos
    exact Nat.lt_irrefl 0 hpos
  -- a closed hub maps only closed points, which count nothing
  have hzero : ∀ t p, s.hub.wpoints.lookup t = some p → (s.hub.points p).count = 0 := by
    intro t p hl
    cases hcl : s.hub.closed with
    | false => exact absurd hl (hunmapped hcl t p)
    | true => exact hinv.hub.shut p ((hinv.hub.mapped t p hl).2.2.trans hcl)
  refine ⟨?_, fun hopen => ?_⟩
  · rw [hinv.hub.waiting_eq, weight, countTotal,
      total_eq_of_lookup (g := fun _ _ => (0 : Int)) fun t p hl => by simp [hzero t p hl]]
    simp [total]
  · refine List.eq_nil_iff_forall_not_mem.mpr fun e he => ?_
    exact hunmapped hopen e.1 e.2 (AList.mem_lookup_iff.mpr he)

end Sys

end Immudb.Watchers
