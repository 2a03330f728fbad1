import PartitionedTable.Proofs.Batch

/-!
A batch of tasks is its tasks run one after another. Under every schedule there is an order of the
items in which this holds, the one in which their tasks finish (`Engine.map_in_turn`); on one slot it
is the order of the items themselves (`Engine.map_in_turn_of_single`). So whatever is closed under
doing one thing after another holds of every batch whose tasks have it.
-/

namespace PartitionedTable

namespace Work

variable {σ ε α : Type}

/-- The work as whoever runs it for a task sees it: a crash is the error `crash`. -/
def catching (crash : ε) (work : Work σ ε α) : Work σ ε α := fun state =>
  match work state with
  | (.done value, state) => (.done value, state)
  | (.failed error, state) => (.failed error, state)
  | (.crashed, state) => (.failed crash, state)

theorem catching_of_done {work : Work σ ε α} {state after : σ} {value : α}
    (ended : work state = (.done value, after)) (crash : ε) :
    work.catching crash state = (.done value, after) := by
  rw [catching, ended]

theorem catching_of_failed {work : Work σ ε α} {state after : σ} {error : ε}
    (ended : work state = (.failed error, after)) (crash : ε) :
    work.catching crash state = (.failed error, after) := by
  rw [catching, ended]

theorem catching_of_crashed {work : Work σ ε α} {state after : σ}
    (ended : work state = (.crashed, after)) (crash : ε) :
    work.catching crash state = (.failed crash, after) := by
  rw [catching, ended]

theorem Gives.catching {holds : α → Prop} {work : Work σ ε α} (gives : work.Gives holds)
    (crash : ε) : (work.catching crash).Gives holds := by
  intro state value ended
  apply gives state value
  unfold Work.catching at ended
  split at ended
  · rename_i reached
    cases ended
    rw [reached]
  · cases ended
  · cases ended

/-- Work that ends badly is seen to fail. -/
theorem catching_endsIn_of_halt {work : Work σ ε α} {outcome : Outcome ε α} {halt : Engine.Halt ε}
    (ended : work.EndsIn outcome) (blamed : outcome.halt? = some halt) (crash : ε) :
    (work.catching crash).EndsIn (.failed (halt.error crash)) := by
  intro state
  have reached : work state = (outcome, (work state).2) := by rw [← ended state]
  rcases Outcome.halt?_eq_some_iff.mp blamed with ⟨error, rfl, rfl⟩ | ⟨rfl, rfl⟩
  · rw [catching_of_failed reached]
    rfl
  · rw [catching_of_crashed reached]
    rfl

theorem EndsIn.catching_of_done {work : Work σ ε α} {value : α} (ended : work.EndsIn (.done value))
    (crash : ε) : (work.catching crash).EndsIn (.done value) := by
  intro state
  have reached : work state = (.done value, (work state).2) := by rw [← ended state]
  rw [Work.catching_of_done reached]

theorem Respects.catching {step : σ → σ → Prop} {work : Work σ ε α} (begins : work.Respects step)
    (crash : ε) : (work.catching crash).Respects step := by
  intro state
  have moved := begins state
  unfold Work.catching
  split <;> rename_i equal <;> rw [equal] at moved <;> exact moved

theorem Does.catching {μ : Type} {work : Work (World μ) ε α} {value : α} {made : List Call}
    (does : work.Does value made) (crash : ε) : (work.catching crash).Does value made := by
  intro world
  obtain ⟨ended, calls⟩ := does world
  have reached : work world = (.done value, (work world).2) := by rw [← ended]
  rw [catching_of_done reached]
  exact ⟨rfl, calls⟩

end Work

namespace Engine

variable {σ ε ι ο : Type}

/-- The end of a batch as its caller sees it. -/
def Report.seen (crash : ε) (report : Report ε ι ο) : Outcome ε (List ο) :=
  match report.outcome with
  | .ok outputs => .done outputs
  | .error halt => .failed (halt.error crash)

/-- The tasks of the items, one after another. -/
def inTurn (crash : ε) (task : ι → Work σ ε ο) (items : List ι) : Work σ ε (List ο) :=
  items.mapM fun item => (task item).catching crash

/-- The first task goes first: if it ends in a value the others follow, and otherwise it ends all. -/
theorem inTurn_cons (crash : ε) (task : ι → Work σ ε ο) (item : ι) (items : List ι) (state : σ) :
    inTurn crash task (item :: items) state = match task item state with
      | (.done value, after) =>
          ((inTurn crash task items after).1.map (value :: ·), (inTurn crash task items after).2)
      | (.failed error, after) => (.failed error, after)
      | (.crashed, after) => (.failed crash, after) := by
  rw [inTurn, List.mapM_cons]
  change ((task item).catching crash >>= fun value =>
    inTurn crash task items >>= fun values => pure (value :: values)) state = _
  rw [Work.bind_apply]
  generalize reached : task item state = ended
  obtain ⟨outcome, after⟩ := ended
  cases outcome with
  | done value =>
      rw [Work.catching_of_done reached]
      dsimp only
      rw [Work.bind_apply]
      generalize inTurn crash task items after = rest
      obtain ⟨outcome, last⟩ := rest
      cases outcome <;> rfl
  | failed error => rw [Work.catching_of_failed reached]
  | crashed => rw [Work.catching_of_crashed reached]

/-- What is left of a batch is its tasks one after another, in the order in which they finish. Once
nothing runs nothing may be pending. -/
theorem drain_in_turn (crash : ε) (task : ι → Work σ ε ο) (order : Order) (wait : Nat)
    {running pending : List ι} (fed : running = [] → pending = []) (state : σ) :
    ∃ turn, turn.Perm (running ++ pending) ∧ inTurn crash task turn state
      = ((drain task order wait running pending state).1.seen crash,
        (drain task order wait running pending state).2) := by
  induction wait, running, pending using drain_induction order generalizing state with
  | idle wait pending =>
      rw [fed rfl, drain]
      exact ⟨[], .refl _, rfl⟩
  | next wait running pending item others here ih =>
      rw [here.step]
      split
      · rename_i value after reached
        obtain ⟨turn, rest, same⟩ := ih (fed_after_wait others) after
        rw [List.append_assoc, List.take_append_drop] at rest
        refine ⟨item :: turn, (rest.cons item).trans (here.front pending), ?_⟩
        rw [inTurn_cons, reached]
        dsimp only
        rw [same]
        unfold Report.seen
        generalize (drain task order (wait + 1) (others ++ pending.take 1) (pending.drop 1)
          after).1.outcome = outcome
        cases outcome <;> rfl
      · rename_i error after reached
        refine ⟨item :: (others ++ pending), here.front pending, ?_⟩
        rw [inTurn_cons, reached]
        rfl
      · rename_i after reached
        refine ⟨item :: (others ++ pending), here.front pending, ?_⟩
        rw [inTurn_cons, reached]
        rfl

/-- On one slot what is left of a batch goes in the order of the items. -/
theorem drain_in_turn_of_single (crash : ε) (task : ι → Work σ ε ο) (order : Order) (wait : Nat)
    (items : List ι) (state : σ) :
    inTurn crash task items state
      = ((drain task order wait (items.take 1) (items.drop 1) state).1.seen crash,
        (drain task order wait (items.take 1) (items.drop 1) state).2) := by
  induction items generalizing wait state with
  | nil =>
      rw [List.take_nil, List.drop_nil, drain]
      rfl
  | cons item items ih =>
      rw [inTurn_cons]
      change _ = ((drain task order wait [item] items state).1.seen crash,
        (drain task order wait [item] items state).2)
      rw [drain_single]
      generalize task item state = reached
      obtain ⟨outcome, after⟩ := reached
      cases outcome with
      | done value =>
          dsimp only
          rw [ih (wait + 1) after]
          unfold Report.seen
          generalize (drain task order (wait + 1) (items.take 1) (items.drop 1) after).1.outcome = rest
          cases rest <;> rfl
      | failed error => rfl
      | crashed => rfl

theorem map_eq_drain (crash : ε) (task : ι → Work σ ε ο) (order : Order) (parallelism : Nat)
    (items : List ι) (state : σ) :
    map crash task order parallelism items state
      = ((drain task order 0 (items.take (slots parallelism)) (items.drop (slots parallelism))
          state).1.seen crash,
        (drain task order 0 (items.take (slots parallelism)) (items.drop (slots parallelism))
          state).2) := by
  unfold map run Report.seen
  dsimp only
  generalize drain task order 0 (items.take (slots parallelism)) (items.drop (slots parallelism))
    state = drained
  obtain ⟨⟨outcome, events⟩, after⟩ := drained
  cases outcome with
  | ok outputs => rfl
  | error halt => cases halt <;> rfl

/-- Every batch is its tasks one after another, in some order of the items. -/
theorem map_in_turn (crash : ε) (task : ι → Work σ ε ο) (order : Order) (parallelism : Nat)
    (items : List ι) (state : σ) :
    ∃ turn, turn.Perm items
      ∧ map crash task order parallelism items state = inTurn crash task turn state := by
  have fed : items.take (slots parallelism) = [] → items.drop (slots parallelism) = [] := by
    intro empty
    have positive := slots_pos parallelism
    rcases List.take_eq_nil_iff.mp empty with zero | none
    · omega
    · rw [none, List.drop_nil]
  obtain ⟨turn, chosen, same⟩ := drain_in_turn crash task order 0 fed state
  rw [List.take_append_drop] at chosen
  exact ⟨turn, chosen, (map_eq_drain crash task order parallelism items state).trans same.symm⟩

/-- A batch on one slot is its tasks one after another, in the order of the items. -/
theorem map_in_turn_of_single (crash : ε) (task : ι → Work σ ε ο) (order : Order)
    {parallelism : Nat} (single : slots parallelism = 1) (items : List ι) :
    map crash task order parallelism items = inTurn crash task items := by
  funext state
  rw [map_eq_drain, single]
  exact (drain_in_turn_of_single crash task order 0 items state).symm

/-- A batch leads only where its tasks lead. -/
theorem map_respects {step : σ → σ → Prop} (rests : ∀ state, step state state)
    (joins : ∀ {before between after}, step before between → step between after → step before after)
    (crash : ε) {task : ι → Work σ ε ο} (moves : ∀ item, (task item).Respects step) (order : Order)
    (parallelism : Nat) (items : List ι) : (map crash task order parallelism items).Respects step := by
  intro state
  obtain ⟨turn, -, same⟩ := map_in_turn crash task order parallelism items state
  rw [same]
  exact Work.respects_mapM rests joins (fun item => (moves item).catching crash) turn state

/-- Of tasks one after another the first that does not succeed ends all. -/
theorem inTurn_failed_first (crash : ε) {task : ι → Work σ ε ο} {ending : ι → Outcome ε ο}
    {front : List ι} {item : ι} {halt : Halt ε} (rest : List ι)
    (answers : ∀ other ∈ front ++ [item], (task other).EndsIn (ending other))
    (good : ∀ other ∈ front, (ending other).Succeeds) (blamed : (ending item).halt? = some halt) :
    (inTurn crash task (front ++ item :: rest)).EndsIn (.failed (halt.error crash)) := by
  unfold inTurn
  induction front with
  | nil =>
      rw [List.nil_append, List.mapM_cons]
      have answered := answers item List.mem_cons_self
      exact (Work.catching_endsIn_of_halt answered blamed crash).bind_failed _
  | cons first front ih =>
      rw [List.cons_append, List.mapM_cons]
      obtain ⟨value, ended⟩ := good first List.mem_cons_self
      have answered := answers first List.mem_cons_self
      rw [ended] at answered
      refine (answered.catching_of_done crash).bind (Work.EndsIn.bind_failed ?_ _)
      exact ih (fun other member => answers other (List.mem_cons_of_mem first member))
        (fun other member => good other (List.mem_cons_of_mem first member))

/-- On one slot the batch fails as the first task that does not succeed. -/
theorem map_failed_first (crash : ε) {task : ι → Work σ ε ο} {ending : ι → Outcome ε ο}
    (order : Order) {parallelism : Nat} (single : slots parallelism = 1) {front rest : List ι}
    {item : ι} {halt : Halt ε} (state : σ)
    (answers : ∀ other ∈ front ++ [item], (task other).EndsIn (ending other))
    (good : ∀ other ∈ front, (ending other).Succeeds) (blamed : (ending item).halt? = some halt) :
    (map crash task order parallelism (front ++ item :: rest) state).1
      = .failed (halt.error crash) := by
  rw [map_in_turn_of_single crash task order single]
  exact inTurn_failed_first crash rest answers good blamed state

/-- Every output of a batch is one of some item. -/
theorem map_gives {task : ι → Work σ ε ο} {holds : ι → ο → Prop} {items : List ι}
    (gives : ∀ item ∈ items, (task item).Gives (holds item)) (crash : ε) (order : Order)
    (parallelism : Nat) :
    (map crash task order parallelism items).Gives
      fun outputs => ∀ output ∈ outputs, ∃ item ∈ items, holds item output := by
  intro state outputs ended output member
  obtain ⟨turn, chosen, same⟩ := map_in_turn crash task order parallelism items state
  rw [same] at ended
  have known : (inTurn crash task turn).Gives _ :=
    Work.gives_mapM fun item listed => (gives item (chosen.subset listed)).catching crash
  obtain ⟨item, listed, holds⟩ := known state outputs ended output member
  exact ⟨item, chosen.subset listed, holds⟩

/-- With many outputs for each item, every one of them is one of some item. -/
theorem flatMap_gives {task : ι → Work σ ε (List ο)} {holds : ι → ο → Prop} {items : List ι}
    (gives : ∀ item ∈ items, (task item).Gives fun values => ∀ value ∈ values, holds item value)
    (crash : ε) (order : Order) (parallelism : Nat) :
    (flatMap crash task order parallelism items).Gives
      fun outputs => ∀ output ∈ outputs, ∃ item ∈ items, holds item output := by
  refine (map_gives gives crash order parallelism).bind fun lists known => Work.gives_pure ?_
  intro output member
  obtain ⟨values, listed, inside⟩ := List.mem_flatten.mp member
  obtain ⟨item, listed, holds⟩ := known values listed
  exact ⟨item, listed, holds output inside⟩

section Does

variable {μ : Type}

/-- Where every task is known to end in a value, so does the batch, and both the outputs and the calls
come in the order in which the tasks finish. -/
theorem map_does {task : ι → Work (World μ) ε ο} {value : ι → ο} {made : ι → List Call}
    {items : List ι} (does : ∀ item ∈ items, (task item).Does (value item) (made item)) (crash : ε)
    (order : Order) (parallelism : Nat) (world : World μ) :
    ∃ turn : List ι, turn.Perm items
      ∧ (map crash task order parallelism items world).1 = .done (turn.map value)
      ∧ (map crash task order parallelism items world).2.calls
        = world.calls ++ turn.flatMap made := by
  obtain ⟨turn, chosen, same⟩ := map_in_turn crash task order parallelism items world
  have each : (inTurn crash task turn).Does (turn.map value) (turn.flatMap made) :=
    Work.does_mapM fun item listed => (does item (chosen.subset listed)).catching crash
  rw [same]
  exact ⟨turn, chosen, each world⟩

theorem flatMap_does {task : ι → Work (World μ) ε (List ο)} {values : ι → List ο}
    {made : ι → List Call} {items : List ι}
    (does : ∀ item ∈ items, (task item).Does (values item) (made item)) (crash : ε) (order : Order)
    (parallelism : Nat) (world : World μ) :
    ∃ turn : List ι, turn.Perm items
      ∧ (flatMap crash task order parallelism items world).1 = .done (turn.flatMap values)
      ∧ (flatMap crash task order parallelism items world).2.calls
        = world.calls ++ turn.flatMap made := by
  obtain ⟨turn, chosen, ended, calls⟩ := map_does does crash order parallelism world
  rw [flatMap, map_eq_pure_bind, Work.bind_of_done ended]
  exact ⟨turn, chosen, rfl, calls⟩

/-- On one slot the outputs and the calls come in the order of the items. -/
theorem map_does_of_single {task : ι → Work (World μ) ε ο} {value : ι → ο} {made : ι → List Call}
    {items : List ι} (does : ∀ item ∈ items, (task item).Does (value item) (made item)) (crash : ε)
    (order : Order) {parallelism : Nat} (single : slots parallelism = 1) :
    (map crash task order parallelism items).Does (items.map value) (items.flatMap made) := by
  rw [map_in_turn_of_single crash task order single]
  exact Work.does_mapM fun item listed => (does item listed).catching crash

theorem flatMap_does_of_single {task : ι → Work (World μ) ε (List ο)} {values : ι → List ο}
    {made : ι → List Call} {items : List ι}
    (does : ∀ item ∈ items, (task item).Does (values item) (made item)) (crash : ε) (order : Order)
    {parallelism : Nat} (single : slots parallelism = 1) :
    (flatMap crash task order parallelism items).Does (items.flatMap values)
      (items.flatMap made) := by
  rw [flatMap, map_eq_pure_bind, ← List.append_nil (items.flatMap made)]
  exact (map_does_of_single does crash order single).bind (Work.does_pure _)

end Does

end Engine

end PartitionedTable
