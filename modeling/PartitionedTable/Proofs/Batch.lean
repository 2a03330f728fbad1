import Mathlib.Data.List.Perm.Basic
import PartitionedTable.Engine
import PartitionedTable.Proofs.Ending

/-!
What a batch of tasks comes to, for every order in which running tasks finish. `Engine.Settles`
says it in one of two ways: all tasks were started and finished and their values are the outputs,
or one of the tasks started ended badly and decides the outcome. One wait keeps it
(`drain_settles`), so every batch has it (`run_settles`). All this is about items whose tasks end in one
way whatever was done before; tasks that look at what others did are followed by `Engine.map_in_turn`.
-/

namespace PartitionedTable

namespace Outcome

variable {ε ο : Type}

/-- Why a batch ends early when one of its tasks ends like this. -/
def halt? : Outcome ε ο → Option (Engine.Halt ε)
  | done _ => none
  | failed error => some (.rejected error)
  | crashed => some .taskFailed

theorem halt?_eq_none_iff {outcome : Outcome ε ο} : outcome.halt? = none ↔ outcome.Succeeds := by
  cases outcome with
  | done value => simp [halt?, Succeeds]
  | failed error => simp [halt?, Succeeds]
  | crashed => simp [halt?, Succeeds]

theorem halt?_eq_some_iff {outcome : Outcome ε ο} {halt : Engine.Halt ε} :
    outcome.halt? = some halt ↔ (∃ error, outcome = failed error ∧ halt = .rejected error)
      ∨ (outcome = crashed ∧ halt = .taskFailed) := by
  cases outcome with
  | done value => simp [halt?]
  | failed error => simp [halt?, eq_comm]
  | crashed => simp [halt?, eq_comm]

theorem done_injective (ε ο : Type) : Function.Injective (done : ο → Outcome ε ο) := by
  intro value value' equal
  cases equal
  rfl

end Outcome

namespace Engine

variable {σ ε ι ο : Type}

/-- The error that a caller sees for a batch that ended early. -/
def Halt.error (crash : ε) : Halt ε → ε
  | rejected error => error
  | taskFailed => crash

namespace Report

@[simp] theorem started_finished (outcome : Except (Halt ε) (List ο)) (item : ι)
    (events : List (Event ι)) :
    (⟨outcome, .finished item :: events⟩ : Report ε ι ο).started
      = (⟨outcome, events⟩ : Report ε ι ο).started := rfl

@[simp] theorem finished_finished (outcome : Except (Halt ε) (List ο)) (item : ι)
    (events : List (Event ι)) :
    (⟨outcome, .finished item :: events⟩ : Report ε ι ο).finished
      = item :: (⟨outcome, events⟩ : Report ε ι ο).finished := rfl

/-- What was started follows the record, whatever the outcome. -/
@[simp] theorem started_append (outcome other : Except (Halt ε) (List ο)) (items : List ι)
    (events : List (Event ι)) :
    (⟨outcome, items.map .started ++ events⟩ : Report ε ι ο).started
      = items ++ (⟨other, events⟩ : Report ε ι ο).started := by
  induction items with
  | nil => rfl
  | cons item items ih =>
      change item :: (⟨outcome, items.map .started ++ events⟩ : Report ε ι ο).started = _
      rw [ih]
      rfl

@[simp] theorem finished_append (outcome other : Except (Halt ε) (List ο)) (items : List ι)
    (events : List (Event ι)) :
    (⟨outcome, items.map .started ++ events⟩ : Report ε ι ο).finished
      = (⟨other, events⟩ : Report ε ι ο).finished := by
  induction items with
  | nil => rfl
  | cons item items ih =>
      change (⟨outcome, items.map .started ++ events⟩ : Report ε ι ο).finished = _
      exact ih

end Report

/-- One wait of a batch: of the tasks `running` that of `item` finishes, and if it ends in a value, the
next pending one takes its place. Which task it is does not depend on what the tasks do. -/
structure Wait (order : Order) (wait : Nat) (running : List ι) (item : ι) (others : List ι) : Prop where
  chosen : running.Perm (item :: others)
  step : ∀ {σ ε ο : Type} (task : ι → Work σ ε ο) (pending : List ι) (state : σ),
    drain task order wait running pending state = match task item state with
      | (.done value, after) =>
          let rest := drain task order (wait + 1) (others ++ pending.take 1) (pending.drop 1) after
          (⟨rest.1.outcome.map (value :: ·),
            .finished item :: (pending.take 1).map .started ++ rest.1.events⟩, rest.2)
      | (.failed error, after) => (⟨.error (.rejected error), [.finished item]⟩, after)
      | (.crashed, after) => (⟨.error .taskFailed, [.finished item]⟩, after)

/-- As long as a task runs there is something to wait for. -/
theorem drain_cons (order : Order) (wait : Nat) (oldest : ι) (younger : List ι) :
    ∃ item others, Wait order wait (oldest :: younger) item others := by
  have inside : order wait % (oldest :: younger).length < (oldest :: younger).length :=
    Nat.mod_lt _ (Nat.succ_pos _)
  refine ⟨(oldest :: younger)[order wait % (oldest :: younger).length],
    (oldest :: younger).eraseIdx (order wait % (oldest :: younger).length), ?_, ?_⟩
  · exact (List.getElem_cons_eraseIdx_perm inside).symm
  · intro σ ε ο task pending state
    rw [drain]
    rfl

theorem Wait.front {order : Order} {wait : Nat} {running others : List ι} {item : ι}
    (next : Wait order wait running item others) (pending : List ι) :
    (item :: (others ++ pending)).Perm (running ++ pending) :=
  next.chosen.symm.append_right pending

/-- Induction along the waits of a batch, on how many tasks are left. -/
theorem drain_induction (order : Order) {motive : Nat → List ι → List ι → Prop}
    (idle : ∀ wait pending, motive wait [] pending)
    (next : ∀ wait running pending item others, Wait order wait running item others →
      motive (wait + 1) (others ++ pending.take 1) (pending.drop 1) → motive wait running pending)
    (wait : Nat) (running pending : List ι) : motive wait running pending := by
  induction left : running.length + pending.length using Nat.strongRecOn
    generalizing wait running pending with
  | _ size ih =>
    cases running with
    | nil => exact idle wait pending
    | cons oldest younger =>
        obtain ⟨item, others, here⟩ := drain_cons order wait oldest younger
        have lengths := here.chosen.length_eq
        refine next wait _ pending item others here (ih _ ?_ _ _ _ rfl)
        simp only [← left, List.length_cons, List.length_append, List.length_take,
          List.length_drop] at lengths ⊢
        omega

/-- If nothing runs after a wait, nothing is pending either. -/
theorem fed_after_wait (others : List ι) {pending : List ι} (idle : others ++ pending.take 1 = []) :
    pending.drop 1 = [] := by
  rcases List.take_eq_nil_iff.mp (List.append_eq_nil_iff.mp idle).2 with zero | none
  · cases zero
  · rw [none, List.drop_nil]

/-- What a batch with `running` tasks alive and `pending` ones not yet started comes to, where the
task of each item ends as `ending` says. -/
inductive Settles (ending : ι → Outcome ε ο) (running pending : List ι) (report : Report ε ι ο) :
    Prop where
  | complete (outputs : List ο) (outcome : report.outcome = .ok outputs)
      (started : report.started = pending) (finished : report.finished.Perm (running ++ pending))
      (values : outputs.map .done = report.finished.map ending)
  | halted (item : ι) (halt : Halt ε) (outcome : report.outcome = .error halt)
      (started : report.started <+: pending) (begun : item ∈ running ++ report.started)
      (blamed : (ending item).halt? = some halt)

/-- A wait that ends in a value leaves a batch that settles where the smaller one does. -/
theorem Settles.after_done {ending : ι → Outcome ε ο} {running others pending : List ι} {item : ι}
    {value : ο} {rest : Report ε ι ο} (chosen : running.Perm (item :: others))
    (ended : ending item = .done value)
    (settled : Settles ending (others ++ pending.take 1) (pending.drop 1) rest) :
    Settles ending running pending ⟨rest.outcome.map (value :: ·),
      .finished item :: (pending.take 1).map .started ++ rest.events⟩ := by
  have cut : pending.take 1 ++ pending.drop 1 = pending := List.take_append_drop 1 pending
  cases settled with
  | complete outputs outcome started finished values =>
      refine .complete (value :: outputs) ?_ ?_ ?_ ?_
      · simp only [outcome]
        rfl
      · simp only [List.cons_append, Report.started_finished,
          Report.started_append _ rest.outcome]
        rw [show (⟨rest.outcome, rest.events⟩ : Report ε ι ο) = rest from rfl, started, cut]
      · simp only [List.cons_append, Report.finished_finished,
          Report.finished_append _ rest.outcome]
        rw [List.append_assoc, cut] at finished
        exact (finished.cons item).trans (chosen.symm.append_right pending)
      · simp only [List.cons_append, Report.finished_finished,
          Report.finished_append _ rest.outcome, List.map_cons, ended]
        rw [values]
  | halted culprit halt outcome started begun blamed =>
      have resumed : (⟨rest.outcome.map (value :: ·),
          .finished item :: (pending.take 1).map .started ++ rest.events⟩ : Report ε ι ο).started
            = pending.take 1 ++ rest.started := by
        simp only [List.cons_append, Report.started_finished,
          Report.started_append _ rest.outcome]
      refine .halted culprit halt ?_ ?_ ?_ blamed
      · simp only [outcome]
        rfl
      · rw [resumed]
        have longer := (List.prefix_append_right_inj (pending.take 1)).mpr started
        rwa [cut] at longer
      · rw [resumed]
        rw [List.append_assoc, List.mem_append] at begun
        rcases begun with earlier | later
        · exact List.mem_append_left _ (chosen.symm.subset (List.mem_cons_of_mem _ earlier))
        · exact List.mem_append_right _ later

/-- Every order settles what is left of a batch. Nothing may be pending once nothing runs, since the
waiting ends there; one wait keeps that. -/
theorem drain_settles {task : ι → Work σ ε ο} {ending : ι → Outcome ε ο} (order : Order)
    {running pending : List ι} (wait : Nat) (state : σ) (fed : running = [] → pending = [])
    (answers : ∀ item ∈ running ++ pending, (task item).EndsIn (ending item)) :
    Settles ending running pending (drain task order wait running pending state).1 := by
  induction wait, running, pending using drain_induction order generalizing state with
  | idle wait pending =>
      rw [fed rfl, drain]
      exact .complete [] rfl rfl (.refl _) rfl
  | next wait running pending item others here ih =>
      have begun : item ∈ running := here.chosen.symm.subset List.mem_cons_self
      have answered : (task item state).1 = ending item :=
        answers item (List.mem_append_left _ begun) state
      rw [here.step]
      split
      · rename_i value after equal
        have ended : ending item = .done value := by rw [← answered, equal]
        refine Settles.after_done here.chosen ended (ih after (fed_after_wait others) ?_)
        intro other member
        rw [List.append_assoc, List.take_append_drop] at member
        exact answers other ((here.front pending).subset (List.mem_cons_of_mem _ member))
      · rename_i error after equal
        have ended : ending item = .failed error := by rw [← answered, equal]
        exact .halted item (.rejected error) rfl List.nil_prefix (List.mem_append_left _ begun)
          (by rw [ended]; rfl)
      · rename_i after equal
        have ended : ending item = .crashed := by rw [← answered, equal]
        exact .halted item .taskFailed rfl List.nil_prefix (List.mem_append_left _ begun)
          (by rw [ended]; rfl)

/-- With a single task alive, it is the one that finishes. -/
theorem drain_single (task : ι → Work σ ε ο) (order : Order) (wait : Nat) (item : ι)
    (pending : List ι) (state : σ) :
    drain task order wait [item] pending state = match task item state with
      | (.done value, after) =>
          let rest := drain task order (wait + 1) (pending.take 1) (pending.drop 1) after
          (⟨rest.1.outcome.map (value :: ·),
            .finished item :: (pending.take 1).map .started ++ rest.1.events⟩, rest.2)
      | (.failed error, after) => (⟨.error (.rejected error), [.finished item]⟩, after)
      | (.crashed, after) => (⟨.error .taskFailed, [.finished item]⟩, after) := by
  obtain ⟨chosen, others, same, step⟩ := drain_cons order wait item []
  obtain ⟨rfl, rfl⟩ := List.cons.inj (List.singleton_perm.mp same)
  exact step task pending state

theorem slots_pos (parallelism : Nat) : 0 < slots parallelism :=
  Nat.lt_of_lt_of_le Nat.zero_lt_one (Nat.le_max_right _ _)

/-- Every batch settles, with no task alive before it. -/
theorem run_settles {task : ι → Work σ ε ο} {ending : ι → Outcome ε ο} (order : Order)
    (parallelism : Nat) {items : List ι} (state : σ)
    (answers : ∀ item ∈ items, (task item).EndsIn (ending item)) :
    Settles ending [] items (run task order parallelism items state).1 := by
  have cut : items.take (slots parallelism) ++ items.drop (slots parallelism) = items :=
    List.take_append_drop _ _
  have settled : Settles ending (items.take (slots parallelism)) (items.drop (slots parallelism))
      (drain task order 0 (items.take (slots parallelism)) (items.drop (slots parallelism)) state).1 := by
    refine drain_settles order 0 state ?_ (by rwa [cut])
    intro empty
    have positive := slots_pos parallelism
    rcases List.take_eq_nil_iff.mp empty with zero | none
    · omega
    · rw [none, List.drop_nil]
  rw [run]
  revert settled
  generalize drain task order 0 (items.take (slots parallelism)) (items.drop (slots parallelism))
    state = drained
  obtain ⟨report, after⟩ := drained
  intro settled
  cases settled with
  | complete outputs outcome started finished values =>
      refine .complete outputs outcome ?_ ?_ ?_
      · rw [Report.started_append _ report.outcome]
        exact started ▸ cut
      · rw [Report.finished_append _ report.outcome]
        exact cut ▸ finished
      · rw [Report.finished_append _ report.outcome]
        exact values
  | halted item halt outcome started begun blamed =>
      refine .halted item halt outcome ?_ ?_ blamed
      · rw [Report.started_append _ report.outcome]
        have longer := (List.prefix_append_right_inj (items.take (slots parallelism))).mpr started
        rwa [cut] at longer
      · rw [Report.started_append _ report.outcome]
        exact begun

section Callers

variable {task : ι → Work σ ε ο} {ending : ι → Outcome ε ο} {items : List ι}

theorem map_apply (crash : ε) (task : ι → Work σ ε ο) (order : Order) (parallelism : Nat)
    (items : List ι) (state : σ) :
    (map crash task order parallelism items state).1
      = match (run task order parallelism items state).1.outcome with
        | .ok outputs => .done outputs
        | .error halt => .failed (halt.error crash) := by
  unfold map
  generalize run task order parallelism items state = ran
  obtain ⟨⟨outcome, events⟩, after⟩ := ran
  cases outcome with
  | ok outputs => rfl
  | error halt => cases halt <;> rfl

theorem flatMap_apply (crash : ε) (task : ι → Work σ ε (List ο)) (order : Order)
    (parallelism : Nat) (items : List ι) (state : σ) :
    (flatMap crash task order parallelism items state).1
      = (map crash task order parallelism items state).1.map List.flatten := by
  rw [flatMap, map_eq_pure_bind]
  exact Work.bind_pure_fst _ _ state

/-- If every task succeeds, so does the batch: each item was started once, and the outputs are
the values of the items in some order. -/
theorem map_done (crash : ε) (order : Order) (parallelism : Nat) (state : σ)
    (answers : ∀ item ∈ items, (task item).EndsIn (ending item))
    (good : ∀ item ∈ items, (ending item).Succeeds) :
    ∃ (outputs : List ο) (finished : List ι),
      (map crash task order parallelism items state).1 = .done outputs
      ∧ (run task order parallelism items state).1.started = items
      ∧ finished.Perm items ∧ outputs.map .done = finished.map ending := by
  cases run_settles order parallelism state answers with
  | complete outputs outcome started finished values =>
      refine ⟨outputs, _, ?_, started, finished, values⟩
      rw [map_apply, outcome]
  | halted item halt outcome started begun blamed =>
      have member : item ∈ items := started.subset begun
      rw [Outcome.halt?_eq_none_iff.mpr (good item member)] at blamed
      cases blamed

/-- If a task does not succeed, the batch fails as one of the tasks started does, and no item was
started twice. -/
theorem map_failed (crash : ε) (order : Order) (parallelism : Nat) (state : σ)
    (answers : ∀ item ∈ items, (task item).EndsIn (ending item))
    (bad : ∃ item ∈ items, ¬ (ending item).Succeeds) :
    ∃ item halt, item ∈ (run task order parallelism items state).1.started
      ∧ (ending item).halt? = some halt
      ∧ (map crash task order parallelism items state).1 = .failed (halt.error crash)
      ∧ (run task order parallelism items state).1.started <+: items := by
  cases run_settles order parallelism state answers with
  | complete outputs outcome started finished values =>
      obtain ⟨item, member, fails⟩ := bad
      have found : ending item ∈ outputs.map .done := by
        rw [values]
        exact List.mem_map_of_mem (finished.symm.subset member)
      obtain ⟨value, _, equal⟩ := List.mem_map.mp found
      exact absurd ⟨value, equal.symm⟩ fails
  | halted item halt outcome started begun blamed =>
      refine ⟨item, halt, begun, blamed, ?_, started⟩
      rw [map_apply, outcome]

/-- The outputs in terms of a value for each item. -/
theorem map_values (crash : ε) (order : Order) (parallelism : Nat) (state : σ) (value : ι → ο)
    (answers : ∀ item ∈ items, (task item).EndsIn (.done (value item))) :
    ∃ outputs, (map crash task order parallelism items state).1 = .done outputs
      ∧ outputs.Perm (items.map value) := by
  obtain ⟨outputs, finished, outcome, _, chosen, values⟩ :=
    map_done crash order parallelism state answers fun item _ => Outcome.succeeds_done (value item)
  have same : outputs = finished.map value := by
    apply (Outcome.done_injective ε ο).list_map
    rw [values, List.map_map]
    rfl
  exact ⟨outputs, outcome, same ▸ chosen.map value⟩

theorem flatMap_values (crash : ε) {task : ι → Work σ ε (List ο)} (order : Order)
    (parallelism : Nat) (state : σ) (values : ι → List ο)
    (answers : ∀ item ∈ items, (task item).EndsIn (.done (values item))) :
    ∃ outputs, (flatMap crash task order parallelism items state).1 = .done outputs
      ∧ outputs.Perm (items.flatMap values) := by
  obtain ⟨lists, outcome, chosen⟩ := map_values crash order parallelism state values answers
  refine ⟨lists.flatten, ?_, ?_⟩
  · rw [flatMap_apply, outcome]
    rfl
  · rw [List.flatMap_def]
    exact chosen.flatten

/-- What a caller can count on when the items' tasks end as `ending` says: `assembled` makes the
result out of the tasks' values, `started` are the items whose tasks were started. -/
structure Accounts {α β : Type} (crash : ε) (ending : ι → Outcome ε α) (assembled : List α → β)
    (items started : List ι) (outcome : Outcome ε β) : Prop where
  succeeds_iff : outcome.Succeeds ↔ ∀ item ∈ items, (ending item).Succeeds
  complete : ∀ result, outcome = .done result → started = items
    ∧ ∃ values : List α, (values.map .done).Perm (items.map ending) ∧ result = assembled values
  blames : ¬ outcome.Succeeds → started <+: items ∧ ∃ item ∈ started,
    (∃ error, ending item = .failed error ∧ outcome = .failed error)
      ∨ (ending item = .crashed ∧ outcome = .failed crash)

theorem map_accounts (crash : ε) (order : Order) (parallelism : Nat) (state : σ)
    (answers : ∀ item ∈ items, (task item).EndsIn (ending item)) :
    Accounts crash ending id items (run task order parallelism items state).1.started
      (map crash task order parallelism items state).1 := by
  by_cases good : ∀ item ∈ items, (ending item).Succeeds
  · obtain ⟨outputs, finished, outcome, started, chosen, values⟩ :=
      map_done crash order parallelism state answers good
    have succeeds : (map crash task order parallelism items state).1.Succeeds := ⟨outputs, outcome⟩
    refine ⟨⟨fun _ => good, fun _ => succeeds⟩, ?_, fun fails => absurd succeeds fails⟩
    intro result equal
    rw [outcome] at equal
    cases equal
    refine ⟨started, outputs, ?_, rfl⟩
    rw [values]
    exact chosen.map ending
  · have bad : ∃ item ∈ items, ¬ (ending item).Succeeds := by
      simpa only [not_forall, exists_prop] using good
    obtain ⟨item, halt, begun, blamed, outcome, started⟩ :=
      map_failed crash order parallelism state answers bad
    have fails : ¬ (map crash task order parallelism items state).1.Succeeds := by
      rw [outcome]
      exact Outcome.not_succeeds_failed _
    refine ⟨⟨fun succeeds => absurd succeeds fails, fun all => absurd all good⟩, ?_, ?_⟩
    · intro result equal
      exact absurd ⟨result, equal⟩ fails
    · refine fun _ => ⟨started, item, begun, ?_⟩
      rcases Outcome.halt?_eq_some_iff.mp blamed with ⟨error, ended, rfl⟩ | ⟨ended, rfl⟩
      · exact .inl ⟨error, ended, outcome⟩
      · exact .inr ⟨ended, outcome⟩

/-- Making something of the result changes neither when there is one nor who is to blame. -/
theorem Accounts.map {α β γ : Type} {crash : ε} {ending : ι → Outcome ε α}
    {assembled : List α → β} {started : List ι} {outcome : Outcome ε β}
    (accounts : Accounts crash ending assembled items started outcome) (change : β → γ) :
    Accounts crash ending (change ∘ assembled) items started (outcome.map change) := by
  refine ⟨Outcome.succeeds_map_iff.trans accounts.succeeds_iff, ?_, ?_⟩
  · intro result equal
    obtain ⟨earlier, outcome, rfl⟩ := Outcome.map_eq_done_iff.mp equal
    obtain ⟨all, values, chosen, rfl⟩ := accounts.complete earlier outcome
    exact ⟨all, values, chosen, rfl⟩
  · intro fails
    rw [Outcome.succeeds_map_iff] at fails
    obtain ⟨begun, item, member, blamed⟩ := accounts.blames fails
    refine ⟨begun, item, member, ?_⟩
    rcases blamed with ⟨error, ended, rfl⟩ | ⟨ended, rfl⟩
    · exact .inl ⟨error, ended, rfl⟩
    · exact .inr ⟨ended, rfl⟩

/-- A batch loses, repeats and invents nothing, whatever the order in which its tasks finish. It
succeeds exactly if every task does; then each item was started once and the outputs are the values
of the items in some order. Otherwise it fails as one of the tasks started did, and no item was
started twice. With many outputs for each task, those of one item stay together and in order. What the
tasks of other items would do does not matter. -/
theorem batch_exact (crash : ε) {one : ι → Work σ ε ο} {ending : ι → Outcome ε ο}
    {many : ι → Work σ ε (List ο)} {endings : ι → Outcome ε (List ο)} {items : List ι}
    (answers : ∀ item ∈ items, (one item).EndsIn (ending item))
    (manyAnswers : ∀ item ∈ items, (many item).EndsIn (endings item))
    (order : Order) (parallelism : Nat) (state : σ) :
    Accounts crash ending id items (run one order parallelism items state).1.started
        (map crash one order parallelism items state).1
      ∧ Accounts crash endings List.flatten items (run many order parallelism items state).1.started
        (flatMap crash many order parallelism items state).1 := by
  refine ⟨map_accounts crash order parallelism state answers, ?_⟩
  rw [flatMap_apply]
  exact (map_accounts crash order parallelism state manyAnswers).map List.flatten

/-- Three items on two slots, of which the younger task always finishes first. The task of an item
that is not among them would crash. -/
theorem batch_exact_on_two_slots :
    let one : Nat → Work Nat String Nat := fun item seen =>
      (if item = 0 then .crashed else .done (2 * item), seen + 1)
    let many : Nat → Work Nat String (List Nat) := fun item seen =>
      (if item = 2 then .crashed else .done [item, item], seen + 1)
    let items := [1, 2, 3]
    (∀ item ∈ items, (one item).EndsIn (.done (2 * item)))
      ∧ (∀ item ∈ items, (many item).EndsIn (if item = 2 then .crashed else .done [item, item]))
      ∧ (∃ outputs, (map "crash" one (fun _ => 1) 2 items 0).1 = .done outputs)
      ∧ (flatMap "crash" many (fun _ => 1) 2 items 0).1 = .failed "crash" := by
  intro one many items
  have answers : ∀ item ∈ items, (one item).EndsIn (.done (2 * item)) := by
    intro item member state
    have known : item ≠ 0 := fun zero => absurd (zero ▸ member) (by decide)
    exact if_neg known
  have manyAnswers : ∀ item ∈ items,
      (many item).EndsIn (if item = 2 then .crashed else .done [item, item]) := fun _ _ _ => rfl
  obtain ⟨single, multiple⟩ := batch_exact "crash" answers manyAnswers (fun _ => 1) 2 0
  refine ⟨answers, manyAnswers, ?_, ?_⟩
  · exact single.succeeds_iff.mpr fun item _ => Outcome.succeeds_done _
  · have fails : ¬ (flatMap "crash" many (fun _ => 1) 2 items 0).1.Succeeds := by
      intro succeeds
      exact Outcome.not_succeeds_crashed (multiple.succeeds_iff.mp succeeds 2 (by decide))
    obtain ⟨_, item, _, ⟨error, ended, _⟩ | ⟨_, outcome⟩⟩ := multiple.blames fails
    · split at ended <;> cases ended
    · exact outcome

end Callers

end Engine

end PartitionedTable
