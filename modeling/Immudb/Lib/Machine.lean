import Mathlib.Data.List.Basic

/-!
# `Immudb/Lib/Machine.lean` — programs that may fail midway, and runs of steps

Two general tools, naming nothing of the program they are used on.

**Programs over a state that may fail.** A method that mutates its receiver in place and can
return an error after part of its work is an `EStateM ε σ α`: both results carry the state. The
rules below sequence such programs once the first part's outcome is known, so that a proof
about a long method peels it one call at a time with the callee's own spec lemma, and never
unfolds the callee.

**What a program may do to its state.** `Keeps R x s` says that `x`, run from `s`, ends (with a
result or an error) in a state `R` relates to `s`. For a reflexive and transitive `R`, a frame
condition or a monotone quantity, it is proved by rules that follow the program's own shape:
`pure` and `throw` keep every such relation, `set` and `modifyGet` need the one change they make
related, and `bind`, `tryCatch` and `if` compose.

**Runs.** A system that takes one operation after another is a step function folded over a
list of operations. `foldl_simulation` is the one induction over runs: a relation between two
machines that every step preserves holds after any run of both; `foldl_invariant` is the case
of one machine, and `foldlM_invariant` that of a machine that may stop. A step that may be
refused is taken by `answerStep`, which logs the answers; `answerStep_simulation` is the
refinement of one such machine by another.
-/

set_option autoImplicit false

namespace Machine

/-! ## 1. Sequencing programs that may fail -/

section Programs

variable {ε σ α β : Type} {x : EStateM ε σ α} {f : α → EStateM ε σ β} {s s' : σ}

/-- A program that reads the state first runs on the state it read. -/
theorem run_get_bind {k : σ → EStateM ε σ β} : (get >>= k).run s = (k s).run s := rfl

theorem run_bind_ok {a : α} (h : x.run s = .ok a s') : (x >>= f).run s = (f a).run s' := by
  rw [EStateM.run_bind, h]

theorem run_bind_error {e : ε} (h : x.run s = .error e s') : (x >>= f).run s = .error e s' := by
  rw [EStateM.run_bind, h]

/-- A handler is not run when its body succeeds. -/
theorem run_tryCatch_ok {a : α} {handle : ε → EStateM ε σ α} (h : x.run s = .ok a s') :
    (tryCatch x handle).run s = .ok a s' := by
  show EStateM.tryCatch x handle s = _
  unfold EStateM.tryCatch
  simp only [EStateM.run] at h
  rw [h]

/-- A handler is run on the state its body failed in. -/
theorem run_tryCatch_error {e : ε} {handle : ε → EStateM ε σ α} (h : x.run s = .error e s') :
    (tryCatch x handle).run s = (handle e).run s' := by
  show EStateM.tryCatch x handle s = _
  unfold EStateM.tryCatch
  simp only [EStateM.run] at h
  rw [h]
  rfl

end Programs

/-! ## 2. What a program may do to its state -/

section Changes

variable {ε σ α β : Type}

/-- The state a run ends in, with a result or an error. -/
def endState : EStateM.Result ε σ α → σ
  | .ok _ s => s
  | .error _ s => s

/-- Run from `s`, `x` ends in a state that `R` relates to `s`. -/
def Keeps (R : σ → σ → Prop) (x : EStateM ε σ α) (s : σ) : Prop :=
  R s (endState (x.run s))

variable {R : σ → σ → Prop} {x : EStateM ε σ α} {f : α → EStateM ε σ β} {s s' : σ}

/-- The relation of a program that keeps the invariant `I`. -/
def Preserves (I : σ → Prop) (s s' : σ) : Prop := I s → I s'

instance (I : σ → Prop) : Std.Refl (Preserves I) := ⟨fun _ h => h⟩

instance (I : σ → Prop) : IsTrans σ (Preserves I) := ⟨fun _ _ _ h₁ h₂ h => h₂ (h₁ h)⟩

theorem Keeps.ok_rel {a : α} (hx : Keeps R x s) (h : x.run s = .ok a s') : R s s' := by
  unfold Keeps at hx
  rw [h] at hx
  exact hx

theorem Keeps.error_rel {e : ε} (hx : Keeps R x s) (h : x.run s = .error e s') : R s s' := by
  unfold Keeps at hx
  rw [h] at hx
  exact hx

theorem Keeps.pure [Std.Refl R] (a : α) : Keeps R (pure a : EStateM ε σ α) s := Std.Refl.refl s

theorem Keeps.throw [Std.Refl R] (e : ε) : Keeps R (throw e : EStateM ε σ α) s :=
  Std.Refl.refl s

theorem Keeps.set (h : R s s') : Keeps R (set s' : EStateM ε σ PUnit) s := h

theorem Keeps.modifyGet {g : σ → α × σ} (h : R s (g s).2) :
    Keeps R (modifyGet g : EStateM ε σ α) s := h

/-- A program that reads the state first is kept from that state. -/
theorem Keeps.get_bind {k : σ → EStateM ε σ β} (h : Keeps R (k s) s) :
    Keeps R (get >>= k) s := h

/-- Sequencing: the second part is kept from every state the first part succeeds in, which the
first part has related to the start. -/
theorem Keeps.bind [IsTrans σ R] (hx : Keeps R x s)
    (hf : ∀ a s', x.run s = .ok a s' → R s s' → Keeps R (f a) s') : Keeps R (x >>= f) s := by
  unfold Keeps
  cases hrun : x.run s with
  | ok a s₁ =>
    rw [run_bind_ok hrun]
    exact trans_of R (hx.ok_rel hrun) (hf a s₁ hrun (hx.ok_rel hrun))
  | error e s₁ =>
    rw [run_bind_error hrun]
    exact hx.error_rel hrun

/-- A handler is kept from every state its body fails in. -/
theorem Keeps.tryCatch [IsTrans σ R] {handle : ε → EStateM ε σ α} (hx : Keeps R x s)
    (hh : ∀ e s', x.run s = .error e s' → R s s' → Keeps R (handle e) s') :
    Keeps R (tryCatch x handle) s := by
  unfold Keeps
  cases hrun : x.run s with
  | ok a s₁ =>
    rw [run_tryCatch_ok hrun]
    exact hx.ok_rel hrun
  | error e s₁ =>
    rw [run_tryCatch_error hrun]
    exact trans_of R (hx.error_rel hrun) (hh e s₁ hrun (hx.error_rel hrun))

theorem Keeps.ite {c : Prop} [Decidable c] {y : EStateM ε σ α} (h₁ : c → Keeps R x s)
    (h₂ : ¬ c → Keeps R y s) : Keeps R (if c then x else y) s := by
  by_cases hc : c
  · rw [if_pos hc]; exact h₁ hc
  · rw [if_neg hc]; exact h₂ hc


end Changes

/-! ## 3. Runs of a step function -/

section Runs

variable {σ τ op : Type}

/-- **Forward simulation.** A relation that each step of both machines preserves holds after
every run. -/
theorem foldl_simulation (R : σ → τ → Prop) (f : σ → op → σ) (g : τ → op → τ)
    (hstep : ∀ s t o, R s t → R (f s o) (g t o)) :
    ∀ (ops : List op) {s : σ} {t : τ}, R s t → R (ops.foldl f s) (ops.foldl g t)
  | [], _, _, h => h
  | o :: ops, _, _, h => foldl_simulation R f g hstep ops (hstep _ _ o h)

/-- An invariant that each step preserves holds after every run. -/
theorem foldl_invariant (I : σ → Prop) (f : σ → op → σ) (hstep : ∀ s o, I s → I (f s o))
    (ops : List op) {s : σ} (h : I s) : I (ops.foldl f s) :=
  foldl_simulation (fun s (_ : Unit) => I s) f (fun _ _ => ()) (fun s _ o hs => hstep s o hs)
    ops (t := ()) h

/-- An invariant that each step preserves holds after every run of a machine that may stop,
a step giving `none`, with every operation of the run satisfying `P`. -/
theorem foldlM_invariant (I : σ → Prop) (P : op → Prop) (f : σ → op → Option σ)
    (hstep : ∀ s o s', I s → P o → f s o = some s' → I s') :
    ∀ (ops : List op) {s s' : σ}, I s → (∀ o ∈ ops, P o) → ops.foldlM f s = some s' → I s'
  | [], _, _, h, _, hrun => by
    cases hrun
    exact h
  | o :: ops, s, _, h, hops, hrun => by
    rw [List.foldlM_cons] at hrun
    cases hf : f s o with
    | none =>
      rw [hf] at hrun
      cases hrun
    | some s₁ =>
      rw [hf] at hrun
      exact foldlM_invariant I P f hstep ops (hstep s o s₁ h (hops o List.mem_cons_self) hf)
        (fun o' ho' => hops o' (List.mem_cons_of_mem o ho')) hrun

/-- A step that may be refused, taken by a machine that logs each answer: a refused step leaves
the state as it was. -/
def answerStep {ε ω : Type} (f : σ → op → Except ε (σ × ω)) (s : σ × List (Except ε ω))
    (o : op) : σ × List (Except ε ω) :=
  match f s.1 o with
  | .ok (s', a) => (s', s.2 ++ [.ok a])
  | .error e => (s.1, s.2 ++ [.error e])

/-- Two answers to one step agree: the same refusal, or the same output and related states. -/
def Agrees {ε ω : Type} (R : σ → τ → Prop) : Except ε (σ × ω) → Except ε (τ × ω) → Prop
  | .ok (s, a), .ok (t, b) => R s t ∧ a = b
  | .error e, .error e' => e = e'
  | _, _ => False

/-- **Refinement of a machine that answers.** When related states agree on every step, runs
from related states give the same answers and end related. -/
theorem answerStep_simulation {ε ω : Type} (R : σ → τ → Prop) (f : σ → op → Except ε (σ × ω))
    (g : τ → op → Except ε (τ × ω)) (hstep : ∀ s t o, R s t → Agrees R (f s o) (g t o))
    (ops : List op) {s : σ} {t : τ} (h : R s t) (log : List (Except ε ω)) :
    R (ops.foldl (answerStep f) (s, log)).1 (ops.foldl (answerStep g) (t, log)).1 ∧
      (ops.foldl (answerStep f) (s, log)).2 = (ops.foldl (answerStep g) (t, log)).2 := by
  refine foldl_simulation
    (fun (x : σ × List (Except ε ω)) (y : τ × List (Except ε ω)) => R x.1 y.1 ∧ x.2 = y.2)
    _ _ ?_ ops ⟨h, rfl⟩
  rintro ⟨s, ls⟩ ⟨t, lt⟩ o ⟨hst, rfl⟩
  have hag := hstep s t o hst
  unfold answerStep
  -- the two answers are of one kind
  split <;> split <;> simp_all [Agrees]

end Runs

end Machine
