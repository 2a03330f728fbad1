import PartitionedTable.Proofs.InTurn

/-!
A batch on one slot is a plain loop over its items. `Engine.Sequential` describes that loop without any
mention of running and pending tasks: each task starts from the state that the one before it left, the
first that does not end in a value ends the loop, and nothing behind it is started. One task done before
a loop makes a longer loop (`Engine.Sequential.cons`), so what one slot makes of a batch is the loop,
whatever the order of completion (`Engine.run_sequential`).
-/

namespace PartitionedTable

namespace Engine

variable {σ ε ι ο : Type}

/-- The tasks of some items end in `values`, one after another, from a state to a state. -/
inductive Passes (task : ι → Work σ ε ο) : (items : List ι) → (before : σ) → (values : List ο) →
    (after : σ) → Prop where
  | nil (state : σ) : Passes task [] state [] state
  | cons {item : ι} {items : List ι} {before between after : σ} {value : ο} {values : List ο}
      (first : task item before = (.done value, between))
      (others : Passes task items between values after) :
      Passes task (item :: items) before (value :: values) after

/-- The record of tasks each of which is started when the one before it has finished. -/
def oneByOne (items : List ι) : List (Event ι) :=
  items.flatMap fun item => [.started item, .finished item]

/-- The loop over `items` that stops at the first task that does not end in a value: its record, its end
and the state it leaves. `assembled` makes the result out of the tasks' values. -/
inductive Sequential {α β : Type} (crash : ε) (task : ι → Work σ ε α) (assembled : List α → β)
    (items : List ι) (before : σ) : List (Event ι) → Outcome ε β × σ → Prop where
  | complete {values : List α} {after : σ} (passed : Passes task items before values after) :
      Sequential crash task assembled items before (oneByOne items) (.done (assembled values), after)
  | stopped {front rest : List ι} {item : ι} {values : List α} {between after : σ}
      {outcome : Outcome ε α} {halt : Halt ε} (cut : items = front ++ item :: rest)
      (passed : Passes task front before values between)
      (ended : task item between = (outcome, after)) (blamed : outcome.halt? = some halt) :
      Sequential crash task assembled items before (oneByOne (front ++ [item]))
        (.failed (halt.error crash), after)

section Loop

variable {crash : ε} {task : ι → Work σ ε ο} {items : List ι} {events : List (Event ι)}

/-- A task that ends in a value, done before a loop. -/
theorem Sequential.cons {item : ι} {before between after : σ} {value : ο}
    {outcome : Outcome ε (List ο)} (first : task item before = (.done value, between))
    (others : Sequential crash task id items between events (outcome, after)) :
    Sequential crash task id (item :: items) before (.started item :: .finished item :: events)
      (outcome.map (value :: ·), after) := by
  cases others with
  | complete passed => exact .complete (.cons first passed)
  | @stopped front rest culprit _ _ _ _ _ cut passed ended blamed =>
      have longer : item :: items = (item :: front) ++ culprit :: rest := by rw [cut, List.cons_append]
      exact .stopped longer (.cons first passed) ended blamed

/-- A task that does not end in a value is all of a loop. -/
theorem Sequential.of_halt {item : ι} {before after : σ} {outcome : Outcome ε ο} {halt : Halt ε}
    (ended : task item before = (outcome, after)) (blamed : outcome.halt? = some halt) :
    Sequential crash task id (item :: items) before [.started item, .finished item]
      (.failed (halt.error crash), after) :=
  .stopped (List.nil_append _).symm (.nil before) ended blamed

/-- Making something of the result changes nothing else. -/
theorem Sequential.map {α β γ : Type} {task : ι → Work σ ε α} {assembled : List α → β} {before after : σ}
    {outcome : Outcome ε β}
    (loop : Sequential crash task assembled items before events (outcome, after)) (change : β → γ) :
    Sequential crash task (change ∘ assembled) items before events (outcome.map change, after) := by
  cases loop with
  | complete passed => exact .complete passed
  | stopped cut passed ended blamed => exact .stopped cut passed ended blamed

/-- With one task alive what is left of a batch is a loop; the induction is on the items. -/
theorem drain_sequential (crash : ε) (task : ι → Work σ ε ο) (order : Order) (wait : Nat)
    (items : List ι) (before : σ) :
    let drained := drain task order wait (items.take 1) (items.drop 1) before
    Sequential crash task id items before ((items.take 1).map .started ++ drained.1.events)
      (drained.1.seen crash, drained.2) := by
  induction items generalizing wait before with
  | nil =>
      rw [List.take_nil, List.drop_nil, drain]
      exact .complete (.nil before)
  | cons item items ih =>
      change Sequential _ _ _ _ _ (.started item :: (drain task order wait [item] items before).1.events)
        ((drain task order wait [item] items before).1.seen crash,
          (drain task order wait [item] items before).2)
      rw [drain_single]
      cases reached : task item before with
      | mk outcome after =>
          cases outcome with
          | done value =>
              have later := (ih (wait + 1) after).cons reached
              dsimp only at later ⊢
              unfold Report.seen at later ⊢
              generalize drain task order (wait + 1) (items.take 1) (items.drop 1) after = drained
                at later ⊢
              obtain ⟨⟨outcome, events⟩, last⟩ := drained
              cases outcome <;> exact later
          | failed error => exact .of_halt reached rfl
          | crashed => exact .of_halt reached rfl

/-- On one slot a batch is a loop. -/
theorem run_sequential (crash : ε) (task : ι → Work σ ε ο) (order : Order) {parallelism : Nat}
    (single : slots parallelism = 1) (items : List ι) (before : σ) :
    Sequential crash task id items before (run task order parallelism items before).1.events
      (map crash task order parallelism items before) := by
  rw [map_eq_drain, run, single]
  exact drain_sequential crash task order 0 items before

end Loop

theorem flatMap_eq_map (crash : ε) (task : ι → Work σ ε (List ο)) (order : Order) (parallelism : Nat)
    (items : List ι) (state : σ) :
    flatMap crash task order parallelism items state
      = ((map crash task order parallelism items state).1.map List.flatten,
        (map crash task order parallelism items state).2) := by
  rw [flatMap, map_eq_pure_bind, Work.bind_apply]
  generalize map crash task order parallelism items state = ended
  obtain ⟨outcome, after⟩ := ended
  cases outcome <;> rfl

/-- With one slot the engine is a plain loop over the items, whatever the order of completion. If all
tasks end in values, each is started when the one before it has finished, and the values come in the
order of the items. Otherwise the batch fails as the first task that does not end in a value, a crash
being told as `crash`, and the tasks started are those up to that one, again one by one. So it is where
each task has many outputs: they come item by item. -/
theorem one_slot_runs_in_sequence (crash : ε) (one : ι → Work σ ε ο) (many : ι → Work σ ε (List ο))
    (order : Order) {parallelism : Nat} (single : parallelism ≤ 1) (items : List ι) (state : σ) :
    Sequential crash one id items state (run one order parallelism items state).1.events
        (map crash one order parallelism items state)
      ∧ Sequential crash many List.flatten items state (run many order parallelism items state).1.events
        (flatMap crash many order parallelism items state) := by
  have slot : slots parallelism = 1 := Nat.max_eq_right single
  refine ⟨run_sequential crash one order slot items state, ?_⟩
  rw [flatMap_eq_map]
  exact (run_sequential crash many order slot items state).map List.flatten

/-- Three tasks on no slot at all. All of them end in values; of their likes with two outputs the second
crashes, and the third is not started. -/
theorem one_slot_runs_in_sequence_crash_second :
    let one : Nat → Work (List Nat) String Nat := fun item seen => (.done item, seen ++ [item])
    let many : Nat → Work (List Nat) String (List Nat) := fun item seen =>
      (if item = 2 then .crashed else .done [item, item], seen ++ [item])
    let order : Order := fun wait => 7 * wait
    Sequential "crash" one id [1, 2, 3] []
        [.started 1, .finished 1, .started 2, .finished 2, .started 3, .finished 3]
        (.done [1, 2, 3], [1, 2, 3])
      ∧ Sequential "crash" many List.flatten [1, 2, 3] [] (run many order 0 [1, 2, 3] []).1.events
        (.failed "crash", [1, 2])
      ∧ (run many order 0 [1, 2, 3] []).1.events = [.started 1, .finished 1, .started 2, .finished 2] := by
  intro one many order
  have loops := one_slot_runs_in_sequence "crash" one many order (Nat.zero_le 1) [1, 2, 3] []
  have complete : map "crash" one order 0 [1, 2, 3] [] = (.done [1, 2, 3], [1, 2, 3]) := by
    decide +kernel
  have events : (run one order 0 [1, 2, 3] []).1.events
      = [.started 1, .finished 1, .started 2, .finished 2, .started 3, .finished 3] := by
    decide +kernel
  have stopped : flatMap "crash" many order 0 [1, 2, 3] [] = (.failed "crash", [1, 2]) := by
    decide +kernel
  rw [complete, events, stopped] at loops
  exact ⟨loops.1, loops.2, by decide +kernel⟩

end Engine

end PartitionedTable
