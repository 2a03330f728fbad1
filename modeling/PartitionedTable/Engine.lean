import PartitionedTable.Work

/-!
Running many tasks with a bound on how many are alive at once. The first tasks are started
together, as many as the bound allows; then the engine waits for one of the running tasks to
finish and starts the next pending one, until none runs any more. The first task that fails ends
everything; a crash is caught and counts as a failure of the task.

Which running task finishes next is up to the world. An `Order` names it, wait by wait, and every
statement about the engine holds for all orders.

A task runs whole at the wait that finds it finished, on the state that the tasks found before it have
left. How the steps of tasks alive at the same time interleave is not told. Nor is what a task does
that was started but never waited for, because another one failed before: neither its calls nor
anything else it does is part of the state in which the batch ends.
-/

namespace PartitionedTable

namespace Engine

variable {σ ε ι ο : Type}

/-- Which of the running tasks finishes at each wait, as a position among them, oldest first. A
position past the last starts over at the oldest. -/
abbrev Order := Nat → Nat

/-- Tasks finish in the order in which they were started. -/
def oldestFirst : Order := fun _ => 0

/-- Why a batch of tasks ended early. -/
inductive Halt (ε : Type) where
  | rejected (error : ε)
  | taskFailed
deriving DecidableEq, Repr

/-- What happens to a task: it is started, and later it is found to have finished. -/
inductive Event (ι : Type) where
  | started (item : ι)
  | finished (item : ι)
deriving DecidableEq, Repr

/-- How a batch of tasks went: the outputs in the order in which the tasks finished, or why it
ended early, and what happened to the tasks. -/
structure Report (ε ι ο : Type) where
  outcome : Except (Halt ε) (List ο)
  events : List (Event ι)

/-- How many tasks may be alive at once; always at least one. -/
def slots (parallelism : Nat) : Nat := max parallelism 1

/-- Waits for the running tasks until none is left, starting a pending one after each; `wait`
counts the waits. The task waited for runs here, and a failure leaves the other running ones undone. -/
def drain (task : ι → Work σ ε ο) (order : Order) (wait : Nat) (running pending : List ι)
    (state : σ) : Report ε ι ο × σ :=
  match running with
  | [] => (⟨.ok [], []⟩, state)
  | oldest :: younger =>
    let position := order wait % (oldest :: younger).length
    let item := (oldest :: younger).get ⟨position, Nat.mod_lt _ (Nat.succ_pos _)⟩
    match task item state with
    | (.done value, state) =>
      let (report, state) :=
        drain task order (wait + 1)
          ((oldest :: younger).eraseIdx position ++ pending.take 1) (pending.drop 1) state
      (⟨report.outcome.map (value :: ·),
        .finished item :: (pending.take 1).map .started ++ report.events⟩, state)
    | (.failed error, state) => (⟨.error (.rejected error), [.finished item]⟩, state)
    | (.crashed, state) => (⟨.error .taskFailed, [.finished item]⟩, state)
termination_by running.length + pending.length
decreasing_by
  have inside : order wait % (oldest :: younger).length < (oldest :: younger).length :=
    Nat.mod_lt _ (Nat.succ_pos _)
  rw [List.length_append, List.length_eraseIdx_of_lt inside, List.length_take, List.length_drop]
  simp only [List.length_cons]
  omega

/-- Runs a task for every item, at most `slots parallelism` of them alive at once. -/
def run (task : ι → Work σ ε ο) (order : Order) (parallelism : Nat) (items : List ι) (state : σ) :
    Report ε ι ο × σ :=
  let first := items.take (slots parallelism)
  let (report, state) := drain task order 0 first (items.drop (slots parallelism)) state
  ({ report with events := first.map .started ++ report.events }, state)

namespace Report

/-- The items whose tasks were started, in that order. -/
def started (report : Report ε ι ο) : List ι :=
  report.events.filterMap fun
    | .started item => some item
    | .finished _ => none

/-- The items whose tasks were found to have finished, in that order. -/
def finished (report : Report ε ι ο) : List ι :=
  report.events.filterMap fun
    | .started _ => none
    | .finished item => some item

/-- How many tasks are alive at each wait of `events`, if `alive` were before them. -/
def aliveFrom (alive : Nat) : List (Event ι) → List Nat
  | [] => []
  | .started _ :: rest => aliveFrom (alive + 1) rest
  | .finished _ :: rest => alive :: aliveFrom (alive - 1) rest

/-- How many tasks were alive at each wait. -/
def alive (report : Report ε ι ο) : List Nat := aliveFrom 0 report.events

/-- Whether never more than `slots parallelism` tasks were alive. -/
def withinLimit (report : Report ε ι ο) (parallelism : Nat) : Bool :=
  report.alive.all (· ≤ slots parallelism)

end Report

/-- The outputs of the tasks of all items; `crash` is the error that stands for a crashed task. -/
def map (crash : ε) (task : ι → Work σ ε ο) (order : Order) (parallelism : Nat) (items : List ι) :
    Work σ ε (List ο) := fun state =>
  match run task order parallelism items state with
  | (⟨.ok outputs, _⟩, state) => (.done outputs, state)
  | (⟨.error (.rejected error), _⟩, state) => (.failed error, state)
  | (⟨.error .taskFailed, _⟩, state) => (.failed crash, state)

/-- The outputs of the tasks of all items, where every task has many outputs. -/
def flatMap (crash : ε) (task : ι → Work σ ε (List ο)) (order : Order) (parallelism : Nat)
    (items : List ι) : Work σ ε (List ο) :=
  List.flatten <$> map crash task order parallelism items

end Engine

end PartitionedTable
