/-!
Work that acts on a state and ends in a value, in an error of its own kind, or in a crash. A
crash is not an error the worker knows about: it passes every handler, and only whoever runs the
work as a task catches it.
-/

namespace PartitionedTable

/-- How a piece of work ends. -/
inductive Outcome (ε α : Type) where
  | done (value : α)
  | failed (error : ε)
  | crashed
deriving DecidableEq, Repr

namespace Outcome

/-- The same end, with the error described in other words. -/
def mapError {ε δ α : Type} (describe : ε → δ) : Outcome ε α → Outcome δ α
  | done value => done value
  | failed error => failed (describe error)
  | crashed => crashed

end Outcome

/-- Work on a state of type `σ` that ends in an `α`, in an error `ε` or in a crash. What it did to
the state stays done, however it ends. -/
def Work (σ ε α : Type) : Type := σ → Outcome ε α × σ

namespace Work

variable {σ ε δ α β : Type}

/-- Does nothing and ends in `value`. -/
def done (value : α) : Work σ ε α := fun state => (.done value, state)

/-- Does nothing and fails. -/
def fail (error : ε) : Work σ ε α := fun state => (.failed error, state)

/-- Goes on with the value, if there is one. -/
def andThen (first : Work σ ε α) (next : α → Work σ ε β) : Work σ ε β := fun state =>
  match first state with
  | (.done value, state) => next value state
  | (.failed error, state) => (.failed error, state)
  | (.crashed, state) => (.crashed, state)

instance : Monad (Work σ ε) where
  pure := done
  bind := andThen

/-- Changes the state. -/
def modify (change : σ → σ) : Work σ ε Unit := fun state => (.done (), change state)

/-- The same work, with its errors described in other words. -/
def mapError (describe : ε → δ) (work : Work σ ε α) : Work σ δ α := fun state =>
  let (outcome, state) := work state
  (outcome.mapError describe, state)

/-- Turns an error into a value to look at. A crash stays a crash. -/
def attempt (work : Work σ ε α) : Work σ δ (Except ε α) := fun state =>
  match work state with
  | (.done value, state) => (.done (.ok value), state)
  | (.failed error, state) => (.done (.error error), state)
  | (.crashed, state) => (.crashed, state)

@[simp] theorem pure_apply (value : α) (state : σ) :
    (pure value : Work σ ε α) state = (.done value, state) := rfl

@[simp] theorem fail_apply (error : ε) (state : σ) :
    (fail error : Work σ ε α) state = (.failed error, state) := rfl

@[simp] theorem modify_apply (change : σ → σ) (state : σ) :
    (modify change : Work σ ε Unit) state = (.done (), change state) := rfl

theorem bind_apply (first : Work σ ε α) (next : α → Work σ ε β) (state : σ) :
    (first >>= next) state = match first state with
      | (.done value, state) => next value state
      | (.failed error, state) => (.failed error, state)
      | (.crashed, state) => (.crashed, state) := rfl

/-- Work that ends well hands its value and its state to what follows. -/
theorem bind_apply_of_done {first : Work σ ε α} {next : α → Work σ ε β} {state after : σ}
    {value : α} (ended : first state = (.done value, after)) :
    (first >>= next) state = next value after := by
  rw [bind_apply, ended]

private theorem id_map_work (work : Work σ ε α) : id <$> work = work := by
  funext state
  change andThen work done state = work state
  unfold andThen done
  split <;> simp_all

private theorem bind_assoc_work {γ : Type} (work : Work σ ε α) (next : α → Work σ ε β)
    (last : β → Work σ ε γ) : (work >>= next) >>= last = work >>= fun value => next value >>= last := by
  funext state
  simp only [bind_apply]
  generalize work state = ended
  rcases ended with ⟨_ | _ | _, _⟩ <;> rfl

instance : LawfulMonad (Work σ ε) :=
  LawfulMonad.mk' _ id_map_work (fun _ _ => rfl) bind_assoc_work

end Work

end PartitionedTable
