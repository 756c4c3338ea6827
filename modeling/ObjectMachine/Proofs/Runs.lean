/-
  ObjectMachine/Proofs/Runs.lean
  ==============================
  **Runs, step by step** — an operation that consists of several goes on from where the
  first has left off, or ends where the first has failed.

  The decoder, the stack, the memory and the machine all run in the same kind of monad, so
  these are the only facts about sequencing that their proofs need.
-/

namespace ObjectMachine

variable {ε σ α β : Type} {x : EStateM ε σ α} {f : α → EStateM ε σ β} {s s' : σ}

theorem run_bind_ok {a : α} (h : x s = .ok a s') : (x >>= f) s = f a s' := by
  change EStateM.bind x f s = _
  unfold EStateM.bind
  rw [h]

theorem run_bind_error {e : ε} (h : x s = .error e s') : (x >>= f) s = .error e s' := by
  change EStateM.bind x f s = _
  unfold EStateM.bind
  rw [h]

theorem run_bind_congr {y : EStateM ε σ α} (h : x s = y s') : (x >>= f) s = (y >>= f) s' := by
  cases result : y s' with
  | ok a t => rw [run_bind_ok result, run_bind_ok (h.trans result)]
  | error e t => rw [run_bind_error result, run_bind_error (h.trans result)]

theorem run_get_bind (f : σ → EStateM ε σ β) : ((get : EStateM ε σ σ) >>= f) s = f s s := rfl

/-- A run that gives an answer has gone through an answer of its first part. -/
theorem exists_of_run_ok {b : β} (h : (x >>= f) s = .ok b s') :
    ∃ a s₁, x s = .ok a s₁ ∧ f a s₁ = .ok b s' := by
  cases first : x s with
  | ok a s₁ =>
    rw [run_bind_ok first] at h
    exact ⟨a, s₁, rfl, h⟩
  | error e s₁ =>
    rw [run_bind_error first] at h
    cases h

/-- Answers have no state. -/
theorem ok_bind (a : α) (f : α → Except ε β) : (Except.ok a >>= f) = f a := rfl

theorem exists_of_bind_eq_ok {x : Except ε α} {f : α → Except ε β} {b : β}
    (h : x >>= f = .ok b) : ∃ a, x = .ok a ∧ f a = .ok b := by
  cases x with
  | error e => cases h
  | ok a => exact ⟨a, rfl, h⟩

/-! ### What every end of a run has -/

/-- The state in which a run ends, with an answer or with an error. -/
def endState : EStateM.Result ε σ α → σ
  | .ok _ s => s
  | .error _ s => s

theorem endState_ignored (x : EStateM ε σ α) (s : σ) :
    endState ((do let _ ← x) s) = endState (x s) := by
  cases run : x s with
  | ok a s' => exact congrArg endState (run_bind_ok run)
  | error e s' => exact congrArg endState (run_bind_error run)

/-- If `P` holds where a run starts, it holds where the run ends. -/
def Preserves (P : σ → Prop) (x : EStateM ε σ α) : Prop := ∀ s, P s → P (endState (x s))

namespace Preserves

variable {P : σ → Prop}

theorem pure (a : α) : Preserves P (Pure.pure a : EStateM ε σ α) := fun _ holds => holds

theorem throw (e : ε) : Preserves P (MonadExcept.throw e : EStateM ε σ α) := fun _ holds => holds

theorem bind (hx : Preserves P x) (hf : ∀ a, Preserves P (f a)) : Preserves P (x >>= f) := by
  intro s holds
  have mid := hx s holds
  cases run : x s with
  | ok a s' =>
    rw [run] at mid
    rw [run_bind_ok run]
    exact hf a s' mid
  | error e s' =>
    rw [run] at mid
    rw [run_bind_error run]
    exact mid

theorem get_bind {f : σ → EStateM ε σ β} (hf : ∀ a, Preserves P (f a)) :
    Preserves P ((get : EStateM ε σ σ) >>= f) := fun s holds => hf s s holds

end Preserves

/-- Every answer of a run has a property. -/
def Gives (P : α → Prop) (x : EStateM ε σ α) : Prop := ∀ s a s', x s = .ok a s' → P a

theorem gives_pure {P : α → Prop} {a : α} (h : P a) : Gives P (pure a : EStateM ε σ α) := by
  intro s b s' run
  cases run
  exact h

theorem gives_bind {P : β → Prop} (h : ∀ a, Gives P (f a)) : Gives P (x >>= f) := by
  intro s b s' run
  obtain ⟨a, s₁, -, rest⟩ := exists_of_run_ok run
  exact h a s₁ b s' rest

end ObjectMachine
