import PartitionedTable.Proofs.InTurn
import PartitionedTable.Table.Discovery

/-!
How many tasks of a batch are alive. A task is alive from when it is started until it is found to have
finished. A batch fills its slots: none of them is free while an item waits to be started
(`Engine.Filled`). One wait keeps that, so at every wait exactly as many tasks are alive as there are
slots, or items left if these are fewer (`Engine.drain_alive`), and no moment sees more
(`Engine.drain_everAlive`).
-/

namespace PartitionedTable

namespace Engine

variable {σ ε ι ο : Type}

/-- How many tasks are alive after an event, if `alive` were before it. -/
def Event.aliveAfter (alive : Nat) : Event ι → Nat
  | .started _ => alive + 1
  | .finished _ => alive - 1

/-- How many tasks are alive before the first of `events` and after each of them, if `alive` were
before. -/
def everAliveFrom (alive : Nat) (events : List (Event ι)) : List Nat :=
  events.scanl Event.aliveAfter alive

/-- How many tasks were alive at each moment of a batch, from its beginning to its end. -/
def Report.everAlive (report : Report ε ι ο) : List Nat := everAliveFrom 0 report.events

theorem everAliveFrom_cons (alive : Nat) (event : Event ι) (events : List (Event ι)) :
    everAliveFrom alive (event :: events)
      = alive :: everAliveFrom (event.aliveAfter alive) events :=
  List.scanl_cons

namespace Report

theorem aliveFrom_started (alive : Nat) (items : List ι) (events : List (Event ι)) :
    aliveFrom alive (items.map .started ++ events) = aliveFrom (alive + items.length) events := by
  induction items generalizing alive with
  | nil => rfl
  | cons item items ih =>
      change aliveFrom (alive + 1) (items.map .started ++ events) = _
      rw [ih, List.length_cons, Nat.add_right_comm, Nat.add_assoc]

end Report

/-- While tasks are only started, the last of them sees the most alive. -/
theorem le_of_mem_everAliveFrom_started {limit alive : Nat} {items : List ι} {events : List (Event ι)}
    (room : alive + items.length ≤ limit)
    (later : ∀ moment ∈ everAliveFrom (alive + items.length) events, moment ≤ limit) :
    ∀ moment ∈ everAliveFrom alive (items.map .started ++ events), moment ≤ limit := by
  induction items generalizing alive with
  | nil => exact later
  | cons item items ih =>
      rw [List.length_cons, Nat.add_comm items.length, ← Nat.add_assoc] at room later
      rw [List.map_cons, List.cons_append, everAliveFrom_cons]
      intro moment member
      rcases List.mem_cons.mp member with rfl | member
      · omega
      · exact ih room later moment member

/-- With so many tasks running and pending, no slot is free while a task is pending, and no more tasks
run than there are slots. -/
def Filled (limit running pending : Nat) : Prop := running = min limit (running + pending)

theorem filled_take_drop (limit : Nat) (items : List ι) :
    Filled limit (items.take limit).length (items.drop limit).length := by
  unfold Filled
  rw [List.length_take, List.length_drop]
  omega

/-- When a task finishes and a pending one takes its place, the slots are filled again. -/
theorem Filled.refilled {limit : Nat} {others pending : List ι}
    (filled : Filled limit (others.length + 1) pending.length) :
    Filled limit (others ++ pending.take 1).length (pending.drop 1).length := by
  unfold Filled at filled ⊢
  rw [List.length_append, List.length_take, List.length_drop]
  omega

theorem length_refilled (others pending : List ι) :
    (others ++ pending.take 1).length + (pending.drop 1).length = others.length + pending.length := by
  rw [List.length_append, List.length_take, List.length_drop]
  omega

theorem Filled.le {limit running pending : Nat} (filled : Filled limit running pending) :
    running ≤ limit := by
  unfold Filled at filled
  omega

section Waits

variable (task : ι → Work σ ε ο) (order : Order) {limit : Nat}

/-- At every wait for what is left of a batch the slots are filled, or as many tasks are alive as there
are items left. -/
theorem drain_alive (wait : Nat) {running pending : List ι}
    (filled : Filled limit running.length pending.length) (state : σ) :
    let report := (drain task order wait running pending state).1
    Report.aliveFrom running.length report.events
      = (List.range report.finished.length).map fun joined =>
        min limit (running.length + pending.length - joined) := by
  induction wait, running, pending using drain_induction order generalizing state with
  | idle wait pending =>
      rw [drain]
      rfl
  | next wait running pending item others here ih =>
      have all : running.length = min limit (running.length + pending.length) := filled
      rw [here.step]
      have lengths : running.length = others.length + 1 := here.chosen.length_eq
      split
      · rename_i value after reached
        rw [lengths] at filled
        have rest := ih filled.refilled after
        rw [length_refilled] at rest
        dsimp only at rest ⊢
        generalize (drain task order (wait + 1) (others ++ pending.take 1) (pending.drop 1)
          after).1 = report at rest ⊢
        simp only [List.cons_append, Report.finished_finished,
          Report.finished_append _ report.outcome, List.length_cons, Report.aliveFrom,
          Report.aliveFrom_started]
        rw [List.range_succ_eq_map, List.map_cons, List.map_map, Nat.sub_zero, ← all, lengths,
          Nat.add_sub_cancel, ← List.length_append, rest]
        refine congrArg _ (List.map_congr_left fun joined _ => ?_)
        rw [Function.comp_apply]
        omega
      · exact congrArg (fun alive => [alive]) all
      · exact congrArg (fun alive => [alive]) all

/-- At no moment are more tasks alive than there are slots. -/
theorem drain_everAlive (wait : Nat) {running pending : List ι}
    (filled : Filled limit running.length pending.length) (state : σ) :
    ∀ moment ∈ everAliveFrom running.length (drain task order wait running pending state).1.events,
      moment ≤ limit := by
  induction wait, running, pending using drain_induction order generalizing state with
  | idle wait pending =>
      rw [drain]
      intro moment member
      rw [List.mem_singleton.mp member]
      exact filled.le
  | next wait running pending item others here ih =>
      have lengths : running.length = others.length + 1 := here.chosen.length_eq
      rw [lengths] at filled ⊢
      have room := filled.le
      have ended : ∀ moment ∈ everAliveFrom (others.length + 1) [Event.finished item],
          moment ≤ limit := by
        intro moment member
        rcases List.mem_pair.mp member with rfl | rfl
        · exact room
        · exact Nat.le_of_succ_le room
      rw [here.step]
      split
      · rename_i value after reached
        have room' := filled.refilled.le
        have rest := ih filled.refilled after
        rw [List.length_append] at rest room'
        dsimp only
        rw [List.cons_append, everAliveFrom_cons]
        intro moment member
        rcases List.mem_cons.mp member with rfl | member
        · exact room
        · exact le_of_mem_everAliveFrom_started room' rest moment member
      · exact ended
      · exact ended

end Waits

section Batches

variable (task : ι → Work σ ε ο) (order : Order) (parallelism : Nat) (items : List ι) (state : σ)

/-- At every wait of a batch exactly as many tasks are alive as there are slots, or items that are not
joined yet if these are fewer. -/
theorem run_alive :
    let report := (run task order parallelism items state).1
    report.alive = (List.range report.finished.length).map fun joined =>
      min (slots parallelism) (items.length - joined) := by
  have filled := filled_take_drop (slots parallelism) items
  have drained := drain_alive task order 0 filled state
  have all : (items.take (slots parallelism)).length + (items.drop (slots parallelism)).length
      = items.length := by
    rw [← List.length_append, List.take_append_drop]
  rw [all] at drained
  unfold run Report.alive
  dsimp only at drained ⊢
  generalize (drain task order 0 (items.take (slots parallelism)) (items.drop (slots parallelism))
    state).1 = report at drained ⊢
  rw [Report.aliveFrom_started, Report.finished_append _ report.outcome, Nat.zero_add]
  exact drained

/-- At no moment of a batch are more tasks alive than there are slots. -/
theorem run_everAlive :
    ∀ moment ∈ (run task order parallelism items state).1.everAlive, moment ≤ slots parallelism := by
  have filled := filled_take_drop (slots parallelism) items
  have drained := drain_everAlive task order 0 filled state
  have room := filled.le
  rw [← Nat.zero_add (items.take _).length] at drained room
  exact le_of_mem_everAliveFrom_started room drained

theorem run_withinLimit : (run task order parallelism items state).1.withinLimit parallelism = true := by
  unfold Report.withinLimit
  rw [run_alive, List.all_eq_true]
  intro alive member
  obtain ⟨joined, -, rfl⟩ := List.mem_map.mp member
  exact decide_eq_true (Nat.min_le_left _ _)

end Batches

end Engine

namespace Table

variable {μ ι ο : Type} (table : Table μ) (number : Nat) (frontier : List ι) (world : World μ)

/-- What happens to the tasks of one round of a table's work, one task for each item of `frontier`. -/
def roundReport (task : ι → Job μ ο) : Engine.Report TableError ι ο :=
  (Engine.run task (table.order number) (table.options.budget frontier.length) frontier world).1

theorem batch_seen (task : ι → Job μ ο) :
    (table.batch number task frontier world).1
      = (table.roundReport number frontier world task).seen .taskFailed :=
  Engine.map_apply _ _ _ _ _ _

theorem batchFlat_eq (task : ι → Job μ (List ο)) :
    table.batchFlat number task frontier = List.flatten <$> table.batch number task frontier := rfl

theorem roundReport_everAlive (task : ι → Job μ ο) :
    ∀ moment ∈ (table.roundReport number frontier world task).everAlive,
      moment ≤ max 1 (min table.options.parallelism frontier.length) := by
  intro moment member
  have bound := Engine.run_everAlive task (table.order number) (table.options.budget frontier.length)
    frontier world moment member
  unfold Engine.slots ListingOptions.budget at bound
  omega

section Bounds

variable {σ ε α β : Type}

/-- The bound on parallel tasks is kept and fully used, whatever the order in which tasks finish. At the
wait before which `joined` tasks were joined, exactly as many are alive as there are slots, or as items
not joined yet if these are fewer; at no moment are there more than slots, so the check of a report
against the bound succeeds. In every round of a table's work, then, be it the check of the seeds, a round
of one of the searches or the listing of several partitions, at most the smaller of the cap and the length
of the frontier are ever alive, and at least one. -/
theorem parallelism_kept_and_used (task : ι → Work σ ε ο) (order : Engine.Order) (parallelism : Nat)
    (items : List ι) (state : σ) (table : Table μ) (number : Nat) (step : α → Job μ β)
    (frontier : List α) (world : World μ) :
    let report := (Engine.run task order parallelism items state).1
    let round := table.roundReport number frontier world step
    report.alive = (List.range report.finished.length).map (fun joined =>
        min (max parallelism 1) (items.length - joined))
      ∧ (∀ moment ∈ report.everAlive, moment ≤ max parallelism 1)
      ∧ report.withinLimit parallelism = true
      ∧ (table.batch number step frontier world).1 = round.seen .taskFailed
      ∧ (∀ steps : α → Job μ (List β),
        table.batchFlat number steps frontier = List.flatten <$> table.batch number steps frontier)
      ∧ ∀ moment ∈ round.everAlive,
        moment ≤ max 1 (min table.options.parallelism frontier.length) :=
  ⟨Engine.run_alive task order parallelism items state,
    Engine.run_everAlive task order parallelism items state,
    Engine.run_withinLimit task order parallelism items state,
    table.batch_seen number frontier world step, table.batchFlat_eq number frontier,
    table.roundReport_everAlive number frontier world step⟩

/-- Three tasks on two slots, of which the younger finishes first, and a round over two directories with
a cap of one. -/
theorem parallelism_kept_and_used_three_on_two :
    let task : Nat → Work Nat String Nat := fun item seen => (.done item, seen + 1)
    let report := (Engine.run task (fun _ => 1) 2 [1, 2, 3] 0).1
    let table : Table Unit :=
      { store := Store.stateless (fun _ => .done ()) (fun _ => .crashed), rounds := 1
        options := { parallelism := 1 } }
    let visit : Visit := { directory := Path.top, spelling := "" }
    let round := table.roundReport 1 [visit, visit] { memory := () } table.classify
    report.alive = [2, 2, 1] ∧ (2 ∈ report.everAlive ∧ 2 ≤ max 2 1)
      ∧ report.withinLimit 2 = true
      ∧ round.everAlive = [0, 1, 0, 1, 0] ∧ (1 ∈ round.everAlive ∧ 1 ≤ max 1 (min 1 2)) := by
  intro task report table visit round
  obtain ⟨alive, kept, within, -, -, kept'⟩ := parallelism_kept_and_used task (fun _ => 1) 2 [1, 2, 3] 0 table
    1 table.classify [visit, visit] { memory := () }
  have waits : report.finished.length = 3 := by decide +kernel
  have here : 2 ∈ report.everAlive := by decide +kernel
  have moments : round.everAlive = [0, 1, 0, 1, 0] := by decide +kernel
  have here' : 1 ∈ round.everAlive := by
    rw [moments]
    decide
  refine ⟨?_, ⟨here, kept 2 here⟩, within, moments, here', kept' 1 here'⟩
  rw [alive, waits]
  rfl

end Bounds

end Table

end PartitionedTable
