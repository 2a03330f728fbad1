import PartitionedTable.Store

/-!
How work ends, whatever the state it starts in. `Work.EndsIn` names the end, `Work.Steady` only says
that there is one end for all states, `Work.Gives` describes the values that there may be, and
`Work.Respects` tells what the work does to the state. `Work.Makes` names the calls made for it, and
`Work.Does` these together with the value. Each is closed under the ways in which work is put
together, so that longer work is judged by its pieces.
-/

namespace PartitionedTable

namespace Outcome

variable {ε α : Type}

/-- Whether there is a value. -/
def Succeeds (outcome : Outcome ε α) : Prop := ∃ value, outcome = .done value

theorem succeeds_done (value : α) : (done value : Outcome ε α).Succeeds := ⟨value, rfl⟩

theorem not_succeeds_failed (error : ε) : ¬ (failed error : Outcome ε α).Succeeds := by
  rintro ⟨value, equal⟩
  cases equal

theorem not_succeeds_crashed : ¬ (crashed : Outcome ε α).Succeeds := by
  rintro ⟨value, equal⟩
  cases equal

/-- The same end, with something made of the value. -/
def map {β : Type} (change : α → β) : Outcome ε α → Outcome ε β
  | done value => done (change value)
  | failed error => failed error
  | crashed => crashed

/-- The end of looking at an error: only a crash gets past. -/
def attempt {δ : Type} : Outcome ε α → Outcome δ (Except ε α)
  | done value => done (.ok value)
  | failed error => done (.error error)
  | crashed => crashed

theorem map_eq_done_iff {β : Type} {change : α → β} {outcome : Outcome ε α} {result : β} :
    outcome.map change = done result ↔ ∃ value, outcome = done value ∧ change value = result := by
  cases outcome <;> simp [map]

theorem map_eq_failed_iff {β : Type} {change : α → β} {outcome : Outcome ε α} {error : ε} :
    outcome.map change = failed error ↔ outcome = failed error := by
  cases outcome <;> simp [map]

theorem map_eq_crashed_iff {β : Type} {change : α → β} {outcome : Outcome ε α} :
    outcome.map change = crashed ↔ outcome = crashed := by
  cases outcome <;> simp [map]

theorem succeeds_map_iff {β : Type} {change : α → β} {outcome : Outcome ε α} :
    (outcome.map change).Succeeds ↔ outcome.Succeeds := by
  cases outcome <;> simp [map, Succeeds]

theorem succeeds_mapError_iff {δ : Type} {describe : ε → δ} {outcome : Outcome ε α} :
    (outcome.mapError describe).Succeeds ↔ outcome.Succeeds := by
  cases outcome <;> simp [mapError, Succeeds]

end Outcome

namespace Work

variable {σ ε δ α β : Type}

/-- The work ends like this in every state. -/
def EndsIn (work : Work σ ε α) (outcome : Outcome ε α) : Prop :=
  ∀ state, (work state).1 = outcome

theorem endsIn_pure (value : α) : (pure value : Work σ ε α).EndsIn (.done value) :=
  fun _ => rfl

theorem endsIn_fail (error : ε) : (fail error : Work σ ε α).EndsIn (.failed error) :=
  fun _ => rfl

theorem bind_of_done {first : Work σ ε α} {state : σ} {value : α}
    (ended : (first state).1 = .done value) (next : α → Work σ ε β) :
    (first >>= next) state = next value (first state).2 :=
  bind_apply_of_done (by rw [← ended])

theorem bind_of_failed {first : Work σ ε α} {state : σ} {error : ε}
    (ended : (first state).1 = .failed error) (next : α → Work σ ε β) :
    (first >>= next) state = (.failed error, (first state).2) := by
  have split : first state = (.failed error, (first state).2) := by rw [← ended]
  rw [bind_apply, split]

/-- Making something of the value at the end changes the end alone. -/
theorem bind_pure_fst (work : Work σ ε α) (change : α → β) (state : σ) :
    ((work >>= fun value => pure (change value)) state).1 = (work state).1.map change := by
  rw [bind_apply]
  generalize work state = ended
  obtain ⟨outcome, after⟩ := ended
  cases outcome <;> rfl

theorem EndsIn.bind {first : Work σ ε α} {next : α → Work σ ε β} {value : α}
    {outcome : Outcome ε β} (ended : first.EndsIn (.done value))
    (later : (next value).EndsIn outcome) : (first >>= next).EndsIn outcome := by
  intro state
  rw [bind_of_done (ended state)]
  exact later _

theorem EndsIn.bind_failed {first : Work σ ε α} {error : ε} (ended : first.EndsIn (.failed error))
    (next : α → Work σ ε β) : (first >>= next).EndsIn (.failed error) := by
  intro state
  rw [bind_of_failed (ended state)]

theorem EndsIn.bind_crashed {first : Work σ ε α} (ended : first.EndsIn .crashed)
    (next : α → Work σ ε β) : (first >>= next).EndsIn .crashed := by
  intro state
  have split : first state = (.crashed, (first state).2) := by
    rw [← ended state]
  rw [bind_apply, split]

theorem EndsIn.mapError {work : Work σ ε α} {outcome : Outcome ε α} (ended : work.EndsIn outcome)
    (describe : ε → δ) : (work.mapError describe).EndsIn (outcome.mapError describe) := by
  intro state
  change (work state).1.mapError describe = _
  rw [ended state]

theorem EndsIn.attempt {work : Work σ ε α} {outcome : Outcome ε α} (ended : work.EndsIn outcome) :
    (work.attempt : Work σ δ (Except ε α)).EndsIn outcome.attempt := by
  intro state
  have same := ended state
  unfold Work.attempt
  generalize work state = reached at same
  obtain ⟨reached, after⟩ := reached
  obtain rfl : reached = outcome := same
  cases reached <;> rfl

/-- Looking at an error does not undo anything. -/
theorem attempt_state (work : Work σ ε α) (state : σ) :
    ((work.attempt : Work σ δ (Except ε α)) state).2 = (work state).2 := by
  unfold Work.attempt
  split <;> rename_i reached <;> rw [reached]

theorem attempt_of_failed {work : Work σ ε α} {state : σ} {error : ε}
    (ended : (work state).1 = .failed error) :
    (work.attempt : Work σ δ (Except ε α)) state = (.done (.error error), (work state).2) := by
  have split : work state = (.failed error, (work state).2) := by rw [← ended]
  rw [Work.attempt, split]

/-- The end of the work does not depend on the state. -/
def Steady (work : Work σ ε α) : Prop := ∃ outcome, work.EndsIn outcome

theorem EndsIn.steady {work : Work σ ε α} {outcome : Outcome ε α} (ended : work.EndsIn outcome) :
    work.Steady := ⟨outcome, ended⟩

theorem Steady.endsIn {work : Work σ ε α} (steady : work.Steady) (state : σ) :
    work.EndsIn (work state).1 := by
  obtain ⟨outcome, ended⟩ := steady
  rwa [ended state]

theorem Steady.bind {first : Work σ ε α} {next : α → Work σ ε β} (steady : first.Steady)
    (later : ∀ value, (next value).Steady) : (first >>= next).Steady := by
  obtain ⟨outcome, ended⟩ := steady
  cases outcome with
  | done value =>
      obtain ⟨outcome, last⟩ := later value
      exact (ended.bind last).steady
  | failed error => exact (ended.bind_failed next).steady
  | crashed => exact (ended.bind_crashed next).steady

theorem Steady.mapError {work : Work σ ε α} (steady : work.Steady) (describe : ε → δ) :
    (work.mapError describe).Steady := by
  obtain ⟨outcome, ended⟩ := steady
  exact (ended.mapError describe).steady

theorem Steady.attempt {work : Work σ ε α} (steady : work.Steady) :
    (work.attempt : Work σ δ (Except ε α)).Steady := by
  obtain ⟨outcome, ended⟩ := steady
  exact ended.attempt.steady

/-- The errors that work may end in. -/
def FailsOnly (known : ε → Prop) (work : Work σ ε α) : Prop :=
  ∀ state error, (work state).1 = .failed error → known error

theorem failsOnly_pure (known : ε → Prop) (value : α) :
    (pure value : Work σ ε α).FailsOnly known := by
  intro state error failed
  cases failed

theorem failsOnly_fail {known : ε → Prop} {error : ε} (holds : known error) :
    (fail error : Work σ ε α).FailsOnly known := by
  intro state other failed
  cases failed
  exact holds

theorem FailsOnly.bind {known : ε → Prop} {first : Work σ ε α} {next : α → Work σ ε β}
    (begins : first.FailsOnly known) (later : ∀ value, (next value).FailsOnly known) :
    (first >>= next).FailsOnly known := by
  intro state error failed
  rw [bind_apply] at failed
  split at failed
  · exact later _ _ _ failed
  · rename_i earlier after equal
    cases failed
    exact begins state error (by rw [equal])
  · cases failed

/-- Errors told in other words are errors of the new kind. -/
theorem failsOnly_mapError {known : δ → Prop} {describe : ε → δ} (work : Work σ ε α)
    (holds : ∀ error, known (describe error)) : (work.mapError describe).FailsOnly known := by
  intro state error failed
  change (work state).1.mapError describe = _ at failed
  cases ended : (work state).1 with
  | done value =>
      rw [ended] at failed
      cases failed
  | failed earlier =>
      rw [ended] at failed
      cases failed
      exact holds earlier
  | crashed =>
      rw [ended] at failed
      cases failed

/-- Every value that the work ends in is as described. -/
def Gives (holds : α → Prop) (work : Work σ ε α) : Prop :=
  ∀ state value, (work state).1 = .done value → holds value

theorem gives_pure {holds : α → Prop} {value : α} (known : holds value) :
    (pure value : Work σ ε α).Gives holds := by
  intro state other ended
  cases ended
  exact known

theorem gives_fail (holds : α → Prop) (error : ε) : (fail error : Work σ ε α).Gives holds := by
  intro state value ended
  cases ended

/-- Nothing is known of the value. -/
theorem gives_any (work : Work σ ε α) : work.Gives fun _ => True :=
  fun _ _ _ => trivial

theorem Gives.bind {holds : α → Prop} {holds' : β → Prop} {first : Work σ ε α}
    {next : α → Work σ ε β} (begins : first.Gives holds)
    (later : ∀ value, holds value → (next value).Gives holds') : (first >>= next).Gives holds' := by
  intro state result ended
  rw [bind_apply] at ended
  split at ended
  · rename_i value after reached
    exact later value (begins state value (by rw [reached])) after result ended
  · cases ended
  · cases ended

theorem Gives.mapError {holds : α → Prop} {work : Work σ ε α} (gives : work.Gives holds)
    (describe : ε → δ) : (work.mapError describe).Gives holds := by
  intro state value ended
  change (work state).1.mapError describe = _ at ended
  apply gives state value
  generalize (work state).1 = outcome at ended
  cases outcome with
  | done other =>
      cases ended
      rfl
  | failed error => cases ended
  | crashed => cases ended

/-- A value that is looked at is still the same, and there may be none. -/
theorem Gives.attempt {holds : α → Prop} {work : Work σ ε α} (gives : work.Gives holds) :
    (work.attempt : Work σ δ (Except ε α)).Gives
      fun result => ∀ value, result = .ok value → holds value := by
  intro state result ended value equal
  subst equal
  apply gives state value
  unfold Work.attempt at ended
  split at ended
  · rename_i reached
    cases ended
    rw [reached]
  · cases ended
  · cases ended

/-- Work done for each item in turn gives something for one of the items each time. -/
theorem gives_mapM {ι : Type} {task : ι → Work σ ε α} {holds : ι → α → Prop} {items : List ι}
    (gives : ∀ item ∈ items, (task item).Gives (holds item)) :
    (items.mapM task).Gives fun values => ∀ value ∈ values, ∃ item ∈ items, holds item value := by
  induction items with
  | nil => exact gives_pure fun value member => absurd member List.not_mem_nil
  | cons item items ih =>
      rw [List.mapM_cons]
      refine (gives item List.mem_cons_self).bind fun first known => ?_
      refine (ih fun other member => gives other (List.mem_cons_of_mem _ member)).bind
        fun others known' => gives_pure ?_
      intro value member
      rcases List.mem_cons.mp member with rfl | member
      · exact ⟨item, List.mem_cons_self, known⟩
      · obtain ⟨other, listed, holds⟩ := known' value member
        exact ⟨other, List.mem_cons_of_mem _ listed, holds⟩

/-- The work leads from a state only to states that `step` allows. -/
def Respects (step : σ → σ → Prop) (work : Work σ ε α) : Prop :=
  ∀ state, step state (work state).2

variable {step : σ → σ → Prop}

theorem respects_pure (rests : ∀ state, step state state) (value : α) :
    (pure value : Work σ ε α).Respects step :=
  fun state => rests state

theorem respects_fail (rests : ∀ state, step state state) (error : ε) :
    (fail error : Work σ ε α).Respects step :=
  fun state => rests state

theorem Respects.bind {first : Work σ ε α} {next : α → Work σ ε β}
    (joins : ∀ {before between after}, step before between → step between after → step before after)
    (begins : first.Respects step) (later : ∀ value, (next value).Respects step) :
    (first >>= next).Respects step := by
  intro state
  have moved := begins state
  rw [bind_apply]
  split <;> rename_i equal <;> rw [equal] at moved
  · exact joins moved (later _ _)
  · exact moved
  · exact moved

theorem Respects.mapError {work : Work σ ε α} (begins : work.Respects step) (describe : ε → δ) :
    (work.mapError describe).Respects step :=
  fun state => begins state

theorem Respects.attempt {work : Work σ ε α} (begins : work.Respects step) :
    (work.attempt : Work σ δ (Except ε α)).Respects step := by
  intro state
  have moved := begins state
  unfold Work.attempt
  split <;> rename_i equal <;> rw [equal] at moved <;> exact moved

theorem respects_mapM {ι : Type} {task : ι → Work σ ε α} (rests : ∀ state, step state state)
    (joins : ∀ {before between after}, step before between → step between after → step before after)
    (moves : ∀ item, (task item).Respects step) (items : List ι) :
    (items.mapM task).Respects step := by
  induction items with
  | nil => exact respects_pure rests []
  | cons item items ih =>
      rw [List.mapM_cons]
      exact (moves item).bind joins fun value =>
        ih.bind joins fun values => respects_pure rests (value :: values)

end Work

namespace World

variable {μ : Type}

/-- `after` comes from `before` by calls that are all `allowed`. -/
def Calling (allowed : Call → Prop) (before after : World μ) : Prop :=
  ∃ made, after.calls = before.calls ++ made ∧ ∀ call ∈ made, allowed call

theorem calling_rest (allowed : Call → Prop) (world : World μ) : world.Calling allowed world :=
  ⟨[], (List.append_nil _).symm, fun _ member => absurd member List.not_mem_nil⟩

theorem Calling.trans {allowed : Call → Prop} {before between after : World μ}
    (earlier : before.Calling allowed between) (later : between.Calling allowed after) :
    before.Calling allowed after := by
  obtain ⟨first, equal, firstAllowed⟩ := earlier
  obtain ⟨second, equal', secondAllowed⟩ := later
  refine ⟨first ++ second, ?_, ?_⟩
  · rw [equal', equal, List.append_assoc]
  · intro call member
    rcases List.mem_append.mp member with member | member
    · exact firstAllowed call member
    · exact secondAllowed call member

/-- A call makes just this call. -/
theorem respects_call {α : Type} {allowed : Call → Prop} {made : Call} (holds : allowed made)
    (answer : Work μ StoreError α) : (call made answer).Respects (Calling allowed) := by
  intro world
  refine ⟨[made], rfl, ?_⟩
  intro other member
  rw [List.mem_singleton.mp member]
  exact holds

end World

namespace Work

variable {μ ε δ α β : Type}

/-- In every world the work ends in `value` and makes just the calls `made`. -/
def Does (work : Work (World μ) ε α) (value : α) (made : List Call) : Prop :=
  ∀ world, (work world).1 = .done value ∧ (work world).2.calls = world.calls ++ made

theorem does_pure (value : α) : (pure value : Work (World μ) ε α).Does value [] :=
  fun world => ⟨rfl, (List.append_nil world.calls).symm⟩

theorem does_call {call : Call} {answer : Work μ StoreError α} {value : α}
    (answers : answer.EndsIn (.done value)) : (World.call call answer).Does value [call] :=
  fun world => ⟨answers world.memory, rfl⟩

theorem Does.bind {first : Work (World μ) ε α} {next : α → Work (World μ) ε β} {value : α}
    {result : β} {made more : List Call} (begins : first.Does value made)
    (later : (next value).Does result more) : (first >>= next).Does result (made ++ more) := by
  intro world
  obtain ⟨ended, calls⟩ := begins world
  obtain ⟨ended', calls'⟩ := later (first world).2
  rw [bind_of_done ended]
  refine ⟨ended', ?_⟩
  rw [calls', calls, List.append_assoc]

theorem Does.mapError {work : Work (World μ) ε α} {value : α} {made : List Call}
    (does : work.Does value made) (describe : ε → δ) : (work.mapError describe).Does value made := by
  intro world
  obtain ⟨ended, calls⟩ := does world
  refine ⟨?_, calls⟩
  show (work world).1.mapError describe = _
  rw [ended]
  rfl

theorem Does.endsIn {work : Work (World μ) ε α} {value : α} {made : List Call}
    (does : work.Does value made) : work.EndsIn (.done value) :=
  fun world => (does world).1

/-- Whatever the work ends in, in every world it makes just the calls `made`. -/
def Makes (work : Work (World μ) ε α) (made : List Call) : Prop :=
  ∀ world, (work world).2.calls = world.calls ++ made

theorem makes_call (call : Call) (answer : Work μ StoreError α) :
    (World.call call answer).Makes [call] :=
  fun _ => rfl

theorem Makes.attempt {work : Work (World μ) ε α} {made : List Call} (makes : work.Makes made) :
    (work.attempt : Work (World μ) δ (Except ε α)).Makes made := by
  intro world
  rw [attempt_state]
  exact makes world

theorem Makes.mapError {work : Work (World μ) ε α} {made : List Call} (makes : work.Makes made)
    (describe : ε → δ) : (work.mapError describe).Makes made :=
  fun world => makes world

theorem makes_pure (value : α) : (pure value : Work (World μ) ε α).Makes [] :=
  fun world => (List.append_nil world.calls).symm

theorem makes_fail (error : ε) : (fail error : Work (World μ) ε α).Makes [] :=
  fun world => (List.append_nil world.calls).symm

/-- What follows in silence makes no difference to the calls, whether it is come to or not. -/
theorem Makes.bind_silent_of_gives {holds : α → Prop} {first : Work (World μ) ε α}
    {next : α → Work (World μ) ε β} {made : List Call} (makes : first.Makes made)
    (gives : first.Gives holds) (silent : ∀ value, holds value → (next value).Makes []) :
    (first >>= next).Makes made := by
  intro world
  have calls := makes world
  have given := gives world
  rw [bind_apply]
  split <;> rename_i equal <;> rw [equal] at calls given
  · rw [silent _ (given _ rfl), calls, List.append_nil]
  · exact calls
  · exact calls

theorem Makes.bind_silent {first : Work (World μ) ε α} {next : α → Work (World μ) ε β}
    {made : List Call} (makes : first.Makes made) (silent : ∀ value, (next value).Makes []) :
    (first >>= next).Makes made :=
  makes.bind_silent_of_gives (gives_any first) fun value _ => silent value

/-- What follows a known value is come to, and makes its calls after those made before. -/
theorem Does.bind_makes {first : Work (World μ) ε α} {next : α → Work (World μ) ε β} {value : α}
    {made more : List Call} (begins : first.Does value made) (later : (next value).Makes more) :
    (first >>= next).Makes (made ++ more) := by
  intro world
  obtain ⟨ended, calls⟩ := begins world
  rw [bind_of_done ended, later, calls, List.append_assoc]

/-- Work that is known to end in a value. -/
theorem Makes.does {work : Work (World μ) ε α} {value : α} {made : List Call}
    (makes : work.Makes made) (ended : work.EndsIn (.done value)) : work.Does value made :=
  fun world => ⟨ended world, makes world⟩

/-- Work for each item in turn makes the calls for each item in turn. -/
theorem does_mapM {ι : Type} {task : ι → Work (World μ) ε α} {value : ι → α}
    {made : ι → List Call} {items : List ι}
    (does : ∀ item ∈ items, (task item).Does (value item) (made item)) :
    (items.mapM task).Does (items.map value) (items.flatMap made) := by
  induction items with
  | nil => exact does_pure []
  | cons item items ih =>
      have first := does item List.mem_cons_self
      have others := ih fun other member => does other (List.mem_cons_of_mem item member)
      rw [List.mapM_cons, List.map_cons, List.flatMap_cons, ← List.append_nil (items.flatMap made)]
      exact first.bind (others.bind (does_pure _))

end Work

end PartitionedTable
