import Mathlib.Logic.Relation
import Mathlib.Data.Nat.Init

/-!
# `Immudb/Lib/Interleaving.lean` — systems that take one enabled event after another

A concurrent component whose critical sections run one at a time is a step function
`step : σ → α → Option σ`: an event `a` either is not enabled in `s` (`none`) or takes `s` to
one next state. Every interleaving of the threads is then a sequence of events, and the facts
about it come in three kinds, each with its rule here.

* **Safety**: an invariant that holds at the start and that every enabled event keeps holds in
  every reachable state (`Reachable.invariant`).
* **History**: "while this call was running, at some instant `Q` held" is a statement about
  the states of one execution, not about one state. `Execution.passes_through` turns it into a
  fact about single steps: if a step can only produce `P` from a state that had `P` or into a
  state that has `Q`, then an execution that has `P` at time `m` had `P` at time `n` or went
  through `Q` in between.
* **Liveness**: along an infinite execution whose scheduler is weakly fair to an event (an event
  that stays enabled is eventually taken), `taken_of_fair` shows the event is taken while a
  condition that keeps it enabled persists.

A schedule of events whose every event is enabled when it comes is an execution
(`Execution.ofSchedule`).
-/

set_option autoImplicit false

namespace Interleaving

variable {σ α : Type} {step : σ → α → Option σ}

/-- `s'` follows `s` by one enabled event. -/
def Step (step : σ → α → Option σ) (s s' : σ) : Prop := ∃ a, step s a = some s'

/-- The states reached from `s₀` by any interleaving of events. -/
def Reachable (step : σ → α → Option σ) (s₀ s : σ) : Prop :=
  Relation.ReflTransGen (Step step) s₀ s

theorem Reachable.refl (s : σ) : Reachable step s s := Relation.ReflTransGen.refl

theorem Reachable.tail {s₀ s s' : σ} {a : α} (h : Reachable step s₀ s)
    (ha : step s a = some s') : Reachable step s₀ s' :=
  Relation.ReflTransGen.tail h ⟨a, ha⟩

/-- An invariant that every enabled event keeps holds in every reachable state. -/
theorem Reachable.invariant (I : σ → Prop) {s₀ s : σ} (h0 : I s₀)
    (hstep : ∀ s a s', I s → step s a = some s' → I s') (h : Reachable step s₀ s) : I s := by
  induction h with
  | refl => exact h0
  | tail _ hst ih =>
    obtain ⟨a, ha⟩ := hst
    exact hstep _ a _ ih ha

/-! ## Infinite executions and fairness -/

/-- An infinite interleaving: the state at each time and the event taken from it. -/
structure Execution (step : σ → α → Option σ) where
  st : ℕ → σ
  ev : ℕ → α
  next : ∀ n, step (st n) (ev n) = some (st (n + 1))

/-- Event `a` can be taken in `s`. -/
def Enabled (step : σ → α → Option σ) (s : σ) (a : α) : Prop := (step s a).isSome

namespace Execution

variable (x : Execution step)

/-- The scheduler is weakly fair to `a`: if `a` is enabled at every time from `n` on, it is
taken at some time from `n` on. -/
def WeakFair (a : α) : Prop :=
  ∀ n, (∀ j, n ≤ j → Enabled step (x.st j) a) → ∃ j, n ≤ j ∧ x.ev j = a

/-- Every state of an execution is reached from every earlier one. -/
theorem reachable_le {m n : ℕ} (h : m ≤ n) : Reachable step (x.st m) (x.st n) := by
  induction n, h using Nat.le_induction with
  | base => exact Reachable.refl _
  | succ n _ ih => exact ih.tail (x.next n)

/-- A condition that nothing but `a` ends persists from `n` while `a` is not taken. -/
theorem persists {a : α} {P : σ → Prop} {n : ℕ} (hP : P (x.st n))
    (hstay : ∀ j, n ≤ j → P (x.st j) → x.ev j ≠ a → P (x.st (j + 1)))
    (hnot : ∀ j, n ≤ j → P (x.st j) → x.ev j ≠ a) : ∀ j, n ≤ j → P (x.st j) := by
  intro j hj
  induction j, hj using Nat.le_induction with
  | base => exact hP
  | succ j hj ih => exact hstay j hj ih (hnot j hj ih)

/-- **History rule, along an execution.** If every step between times `n` and `m` that ends in
`P` starts in `P` or ends in `Q`, and `P` holds at `m`, then `P` held at `n` or `Q` held at some
time after `n` and up to `m`. -/
theorem passes_through {P Q : σ → Prop} {n m : ℕ}
    (hstep : ∀ j, n ≤ j → j < m → P (x.st (j + 1)) → P (x.st j) ∨ Q (x.st (j + 1)))
    (hnm : n ≤ m) (hP : P (x.st m)) : P (x.st n) ∨ ∃ i, n < i ∧ i ≤ m ∧ Q (x.st i) := by
  induction m, hnm using Nat.le_induction with
  | base => exact .inl hP
  | succ m hnm ih =>
    rcases hstep m hnm (Nat.lt_succ_self m) hP with hPm | hQ
    · rcases ih (fun j hj hjm => hstep j hj (Nat.lt_succ_of_lt hjm)) hPm with hPn | ⟨i, hi, him, hQ⟩
      · exact .inl hPn
      · exact .inr ⟨i, hi, Nat.le_succ_of_le him, hQ⟩
    · exact .inr ⟨m + 1, Nat.lt_succ_of_le hnm, Nat.le_refl _, hQ⟩

/-- **Progress rule.** Under weak fairness to `a`, a condition that keeps `a` enabled and that
only `a` ends leads to `a` being taken in a state where the condition holds. -/
theorem taken_of_fair {a : α} (hfair : x.WeakFair a) {P : σ → Prop} {n : ℕ} (hP : P (x.st n))
    (hstay : ∀ j, n ≤ j → P (x.st j) → x.ev j ≠ a → P (x.st (j + 1)))
    (hen : ∀ j, n ≤ j → P (x.st j) → Enabled step (x.st j) a) :
    ∃ j, n ≤ j ∧ P (x.st j) ∧ x.ev j = a := by
  apply Classical.byContradiction
  intro hno
  have hnot : ∀ j, n ≤ j → P (x.st j) → x.ev j ≠ a := fun j hj hPj ha => hno ⟨j, hj, hPj, ha⟩
  have hall := x.persists hP hstay hnot
  obtain ⟨j, hj, ha⟩ := hfair n fun j hj => hen j hj (hall j hj)
  exact hnot j hj (hall j hj) ha

end Execution

/-- The states a schedule of events visits from `s₀`; an event that is not enabled leaves the
state as it is. -/
def follow (step : σ → α → Option σ) (s₀ : σ) (ev : ℕ → α) : ℕ → σ
  | 0 => s₀
  | n + 1 => (step (follow step s₀ ev n) (ev n)).getD (follow step s₀ ev n)

/-- A schedule whose every event is enabled when it comes is an execution. -/
def Execution.ofSchedule (s₀ : σ) (ev : ℕ → α)
    (hen : ∀ n, Enabled step (follow step s₀ ev n) (ev n)) : Execution step where
  st := follow step s₀ ev
  ev := ev
  next n := by
    obtain ⟨s', hs'⟩ := Option.isSome_iff_exists.mp (hen n)
    simp [follow, hs']

end Interleaving
