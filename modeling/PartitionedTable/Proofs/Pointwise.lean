import PartitionedTable.Proofs.Marked

/-!
A search is told directory by directory. On a store that remembers nothing, whether a directory can
be classified and what it shows depends on the directory alone, up to the spelling under which it is
told (`Table.classify_respelled`). So a walk fails exactly if one of its directories leads to one that
cannot be classified, goes on as long as one of them leads on, and finds what each of them offers
(`Table.walk_pointwise`). Rounds, budgets and the order of tasks drop out, and a search from several
lists of prefixes comes to what the searches from each of them come to.
-/

namespace PartitionedTable

namespace Work

variable {σ ε δ γ α β : Type}

theorem mapError_apply (work : Work σ ε α) (describe : ε → δ) (state : σ) :
    work.mapError describe state = ((work state).1.mapError describe, (work state).2) := rfl

theorem mapError_bind (first : Work σ ε α) (next : α → Work σ ε β) (describe : ε → δ) :
    (first >>= next).mapError describe
      = first.mapError describe >>= fun value => (next value).mapError describe := by
  funext state
  rw [mapError_apply, bind_apply, bind_apply, mapError_apply]
  generalize first state = ended
  obtain ⟨outcome, after⟩ := ended
  cases outcome <;> rfl

theorem mapError_mapError (work : Work σ ε α) (describe : ε → δ) (describe' : δ → γ) :
    (work.mapError describe).mapError describe' = work.mapError (describe' ∘ describe) := by
  funext state
  rw [mapError_apply, mapError_apply, mapError_apply]
  generalize work state = ended
  obtain ⟨outcome, after⟩ := ended
  cases outcome <;> rfl

theorem mapError_pure (describe : ε → δ) (value : α) :
    (pure value : Work σ ε α).mapError describe = pure value := rfl

theorem EndsIn.map {work : Work σ ε α} {outcome : Outcome ε α} (ended : work.EndsIn outcome)
    (change : α → β) : (change <$> work).EndsIn (outcome.map change) := by
  intro state
  rw [map_eq_pure_bind, bind_pure_fst, ended state]

end Work

namespace TableError

/-- The same failure, told under another spelling. -/
def respelled (spelling : String) : TableError → TableError
  | listing _ source => listing spelling source
  | error => error

end TableError

namespace Table

/-- The same finding of a search under another spelling. -/
def Finding.respelled (spelling : String) : Finding → Finding
  | partition name => partition name
  | descend visit => descend { visit with spelling }

section Spelled

variable {μ : Type} (table : Table μ) (directory : Path) (spelling spelling' : String)

/-- Under another spelling a directory is classified in the same way, and told under that spelling. -/
theorem classify_respelled :
    table.classify ⟨directory, spelling'⟩
      = List.map (Finding.respelled spelling')
        <$> (table.classify ⟨directory, spelling⟩).mapError (TableError.respelled spelling') := by
  have named : (table.partitionName directory).mapError (TableError.respelled spelling')
      = table.partitionName directory := by
    unfold partitionName
    cases Path.relativeName? table.root directory <;> rfl
  unfold classify
  simp only [map_eq_pure_bind, Work.mapError_bind, Work.mapError_mapError, bind_assoc]
  congr 1
  funext marked
  cases marked with
  | true =>
      simp only [if_true, Work.mapError_bind, named, Work.mapError_pure, bind_assoc, pure_bind]
      rfl
  | false =>
      simp only [Bool.false_eq_true, if_false, Work.mapError_bind, Work.mapError_mapError,
        Work.mapError_pure, bind_assoc, pure_bind, List.map_map]
      rfl

theorem checkSeed_respelled :
    table.checkSeed ⟨directory, spelling'⟩
      = (table.checkSeed ⟨directory, spelling⟩).mapError (TableError.respelled spelling') := by
  unfold checkSeed
  by_cases atRoot : directory = table.root
  · rw [if_pos atRoot, if_pos atRoot]
    rfl
  · rw [if_neg atRoot, if_neg atRoot]
    simp only [Work.mapError_bind, Work.mapError_mapError]
    congr 1
    funext present
    cases present <;> rfl

end Spelled

section Sight

variable (table : Table Unit) (directory : Path)

/-- What classifying a directory comes to, told under no spelling. -/
def sight : Outcome TableError (List Finding) :=
  (table.classify ⟨directory, ""⟩ { memory := () }).1

/-- What a directory shows; nothing if it cannot be classified. -/
def shown : List Finding :=
  match table.sight directory with
  | .done findings => findings
  | .failed _ => []
  | .crashed => []

/-- A directory that cannot be classified. -/
def Refuses : Prop := ¬ (table.sight directory).Succeeds

/-- A directory from which a search may start. -/
def Admits : Prop := (table.checkSeed ⟨directory, ""⟩ { memory := () }).1.Succeeds

theorem classify_endsIn_sight (visit : Visit) :
    (table.classify visit).EndsIn
      (((table.sight visit.directory).mapError (.respelled visit.spelling)).map
        (List.map (.respelled visit.spelling))) := by
  obtain ⟨outcome, ended⟩ := table.classify_steady ⟨visit.directory, ""⟩
  rw [show table.sight visit.directory = outcome from ended _]
  rw [table.classify_respelled visit.directory "" visit.spelling]
  exact (ended.mapError _).map _

variable {table}

theorem classify_shown {visit : Visit} (answers : ¬ table.Refuses visit.directory) :
    (table.classify visit).EndsIn
      (.done ((table.shown visit.directory).map (.respelled visit.spelling))) := by
  obtain ⟨findings, seen⟩ := not_not.mp answers
  have ended := table.classify_endsIn_sight visit
  unfold shown
  rw [seen] at ended ⊢
  exact ended

theorem classify_refused {visit : Visit} (refuses : table.Refuses visit.directory) :
    ∃ outcome, ¬ outcome.Succeeds ∧ (table.classify visit).EndsIn outcome := by
  refine ⟨_, ?_, table.classify_endsIn_sight visit⟩
  rw [Outcome.succeeds_map_iff, Outcome.succeeds_mapError_iff]
  exact refuses

theorem checkSeed_endsIn_iff_admits (table : Table Unit) (seed : Visit) :
    ∃ outcome, (table.checkSeed seed).EndsIn outcome
      ∧ (outcome.Succeeds ↔ table.Admits seed.directory) := by
  obtain ⟨outcome, ended⟩ := table.checkSeed_steady ⟨seed.directory, ""⟩
  refine ⟨outcome.mapError (.respelled seed.spelling), ?_, ?_⟩
  · rw [table.checkSeed_respelled seed.directory "" seed.spelling]
    exact ended.mapError _
  · rw [Outcome.succeeds_mapError_iff, Admits, ended]

end Sight

/-- `last` is come to from a directory in so many steps, if each directory shows what `shown` says. -/
inductive Leads (shown : Path → List Finding) : Nat → Path → Path → Prop where
  | here (directory : Path) : Leads shown 0 directory directory
  | onward {steps : Nat} {directory last : Path} {visit : Visit}
      (left : .descend visit ∈ shown directory) (later : Leads shown steps visit.directory last) :
      Leads shown (steps + 1) directory last

section Leading

variable (table : Table Unit) (limit : Nat) (directory : Path)

/-- Within `limit` rounds a directory leads to one that cannot be classified. -/
def Stuck : Prop := ∃ steps < limit, ∃ last, Leads table.shown steps directory last ∧ table.Refuses last

/-- After `limit` rounds a directory still leads to something to classify. -/
def Outlasts : Prop := ∃ last, Leads table.shown limit directory last

/-- A directory leads to one that shows a partition of this name. -/
def Offers (name : String) : Prop :=
  ∃ steps last, Leads table.shown steps directory last ∧ .partition name ∈ table.shown last

/-- A search that starts at a directory fails within `limit` rounds. -/
def Blocked : Prop := ¬ table.Admits directory ∨ table.Stuck limit directory

variable {table limit directory}

theorem not_stuck_zero : ¬ table.Stuck 0 directory := by
  rintro ⟨steps, early, -⟩
  exact absurd early (Nat.not_lt_zero steps)

theorem outlasts_zero : table.Outlasts 0 directory := ⟨directory, .here directory⟩

theorem stuck_succ_iff : table.Stuck (limit + 1) directory ↔ table.Refuses directory
    ∨ ∃ visit, .descend visit ∈ table.shown directory ∧ table.Stuck limit visit.directory := by
  constructor
  · rintro ⟨steps, early, last, leads, refuses⟩
    cases leads with
    | here => exact .inl refuses
    | onward left later => exact .inr ⟨_, left, _, Nat.lt_of_succ_lt_succ early, last, later, refuses⟩
  · rintro (refuses | ⟨visit, left, steps, early, last, later, refuses⟩)
    · exact ⟨0, Nat.succ_pos limit, directory, .here directory, refuses⟩
    · exact ⟨steps + 1, Nat.succ_lt_succ early, last, .onward left later, refuses⟩

theorem outlasts_succ_iff : table.Outlasts (limit + 1) directory
    ↔ ∃ visit, .descend visit ∈ table.shown directory ∧ table.Outlasts limit visit.directory := by
  constructor
  · rintro ⟨last, _ | ⟨left, later⟩⟩
    exact ⟨_, left, last, later⟩
  · rintro ⟨visit, left, last, later⟩
    exact ⟨last, .onward left later⟩

theorem offers_iff {name : String} : table.Offers directory name
    ↔ .partition name ∈ table.shown directory
      ∨ ∃ visit, .descend visit ∈ table.shown directory ∧ table.Offers visit.directory name := by
  constructor
  · rintro ⟨steps, last, leads, found⟩
    cases leads with
    | here => exact .inl found
    | onward left later => exact .inr ⟨_, left, _, last, later, found⟩
  · rintro (found | ⟨visit, left, steps, last, later, found⟩)
    · exact ⟨0, directory, .here directory, found⟩
    · exact ⟨steps + 1, last, .onward left later, found⟩

end Leading

/-- The end of a search that begins at several directories, told directory by directory: it fails
exactly if one of them is stuck, and otherwise is unfinished exactly if one of them outlasts the
rounds. -/
inductive Pointwise (stuck outlasts : Path → Prop) (offers : Path → String → Prop)
    (starts : List Path) : Outcome TableError (List String) → Prop where
  | failed {error : TableError} {start : Path} (member : start ∈ starts) (ends : stuck start)
      (told : OfTask error) : Pointwise stuck outlasts offers starts (.failed error)
  | unfinished {start : Path} (clear : ∀ start ∈ starts, ¬ stuck start) (member : start ∈ starts)
      (goesOn : outlasts start) : Pointwise stuck outlasts offers starts (.failed .unfinished)
  | done {names : List String} (clear : ∀ start ∈ starts, ¬ stuck start)
      (spent : ∀ start ∈ starts, ¬ outlasts start)
      (found : ∀ name, name ∈ names ↔ ∃ start ∈ starts, offers start name) :
      Pointwise stuck outlasts offers starts (.done names)

namespace Pointwise

variable {stuck outlasts : Path → Prop} {offers : Path → String → Prop} {starts : List Path}
  {outcome : Outcome TableError (List String)}

theorem ended_iff (told : Pointwise stuck outlasts offers starts outcome) :
    outcome ≠ .failed .unfinished
      ↔ (∃ start ∈ starts, stuck start) ∨ ∀ start ∈ starts, ¬ outlasts start := by
  cases told with
  | failed member ends told =>
      refine iff_of_true (fun equal => told (Outcome.failed.inj equal)) (.inl ⟨_, member, ends⟩)
  | unfinished clear member goesOn =>
      refine iff_of_false (fun other => other rfl) ?_
      rintro (⟨start, listed, ends⟩ | spent)
      · exact clear start listed ends
      · exact spent _ member goesOn
  | done clear spent found => exact iff_of_true (fun equal => by cases equal) (.inr spent)

theorem succeeds_iff (told : Pointwise stuck outlasts offers starts outcome)
    (ended : outcome ≠ .failed .unfinished) :
    outcome.Succeeds ↔ ∀ start ∈ starts, ¬ stuck start := by
  cases told with
  | failed member ends told =>
      exact iff_of_false (Outcome.not_succeeds_failed _) fun clear => clear _ member ends
  | unfinished clear member goesOn => exact absurd rfl ended
  | done clear spent found => exact iff_of_true (Outcome.succeeds_done _) clear

theorem mem_iff {names : List String} (told : Pointwise stuck outlasts offers starts (.done names))
    (name : String) : name ∈ names ↔ ∃ start ∈ starts, offers start name := by
  cases told with
  | done clear spent found => exact found name

theorem congr {stuck' : Path → Prop} (told : Pointwise stuck outlasts offers starts outcome)
    (same : ∀ start ∈ starts, stuck start ↔ stuck' start) :
    Pointwise stuck' outlasts offers starts outcome := by
  have clear' : (∀ start ∈ starts, ¬ stuck start) → ∀ start ∈ starts, ¬ stuck' start :=
    fun clear start member ends => clear start member ((same start member).mpr ends)
  cases told with
  | failed member ends told => exact .failed member ((same _ member).mp ends) told
  | unfinished clear member goesOn => exact .unfinished (clear' clear) member goesOn
  | done clear spent found => exact .done (clear' clear) spent found

theorem map (told : Pointwise stuck outlasts offers starts outcome)
    (change : List String → List String) (same : ∀ names name, name ∈ change names ↔ name ∈ names) :
    Pointwise stuck outlasts offers starts (outcome.map change) := by
  cases told with
  | failed member ends told => exact .failed member ends told
  | unfinished clear member goesOn => exact .unfinished clear member goesOn
  | done clear spent found => exact .done clear spent fun name => (same _ name).trans (found name)

/-- Starting at the directories of two lists comes to what starting at each of the lists comes to. -/
theorem join {ones others : List Path} {left right : Outcome TableError (List String)}
    (all : Pointwise stuck outlasts offers starts outcome)
    (one : Pointwise stuck outlasts offers ones left)
    (other : Pointwise stuck outlasts offers others right)
    (covers : ∀ start, start ∈ starts ↔ start ∈ ones ∨ start ∈ others)
    (ended : left ≠ .failed .unfinished) (ended' : right ≠ .failed .unfinished) :
    outcome ≠ .failed .unfinished
      ∧ (outcome.Succeeds ↔ left.Succeeds ∧ right.Succeeds)
      ∧ ∀ names, outcome = .done names → ∃ first second, left = .done first ∧ right = .done second
        ∧ ∀ name, name ∈ names ↔ name ∈ first ∨ name ∈ second := by
  have finished : outcome ≠ .failed .unfinished := by
    rw [all.ended_iff]
    simp only [covers]
    rcases one.ended_iff.mp ended with ⟨start, member, ends⟩ | spent
    · exact .inl ⟨start, .inl member, ends⟩
    · rcases other.ended_iff.mp ended' with ⟨start, member, ends⟩ | spent'
      · exact .inl ⟨start, .inr member, ends⟩
      · exact .inr fun start member => member.elim (spent start) (spent' start)
  have both : outcome.Succeeds ↔ left.Succeeds ∧ right.Succeeds := by
    rw [all.succeeds_iff finished, one.succeeds_iff ended, other.succeeds_iff ended']
    simp only [covers, or_imp, forall_and]
  refine ⟨finished, both, ?_⟩
  rintro names rfl
  obtain ⟨⟨first, rfl⟩, second, rfl⟩ := both.mp (Outcome.succeeds_done names)
  refine ⟨first, second, rfl, rfl, fun name => ?_⟩
  rw [all.mem_iff, one.mem_iff, other.mem_iff]
  simp only [covers, or_and_right, exists_or]

/-- One round before a walk that is told directory by directory, if all directories of the round can
be classified: they lead to where the walk begins, and offer what the round finds besides. -/
theorem before {table : Table Unit} {limit : Nat} {next : List Path} {names : List String}
    (answers : ∀ start ∈ starts, ¬ table.Refuses start)
    (onward : ∀ directory, directory ∈ next
      ↔ ∃ start ∈ starts, ∃ visit, .descend visit ∈ table.shown start ∧ visit.directory = directory)
    (here : ∀ name, name ∈ names ↔ ∃ start ∈ starts, .partition name ∈ table.shown start)
    (later : Pointwise (table.Stuck limit) (table.Outlasts limit) table.Offers next outcome) :
    Pointwise (table.Stuck (limit + 1)) (table.Outlasts (limit + 1)) table.Offers starts
      (outcome.map (names ++ ·)) := by
  have ahead : ∀ start ∈ starts, ∀ visit, .descend visit ∈ table.shown start →
      visit.directory ∈ next := fun start member visit left =>
    (onward _).mpr ⟨start, member, visit, left, rfl⟩
  have unstuck : (∀ directory ∈ next, ¬ table.Stuck limit directory) →
      ∀ start ∈ starts, ¬ table.Stuck (limit + 1) start := by
    intro clear start member ends
    rcases stuck_succ_iff.mp ends with refuses | ⟨visit, left, ends⟩
    · exact answers start member refuses
    · exact clear _ (ahead start member visit left) ends
  cases later with
  | failed listed ends told =>
      obtain ⟨start, member, visit, left, rfl⟩ := (onward _).mp listed
      exact .failed member (stuck_succ_iff.mpr (.inr ⟨visit, left, ends⟩)) told
  | unfinished clear listed goesOn =>
      obtain ⟨start, member, visit, left, rfl⟩ := (onward _).mp listed
      exact .unfinished (unstuck clear) member (outlasts_succ_iff.mpr ⟨visit, left, goesOn⟩)
  | done clear spent found =>
      refine .done (unstuck clear) ?_ fun name => ?_
      · intro start member goesOn
        obtain ⟨visit, left, goesOn⟩ := outlasts_succ_iff.mp goesOn
        exact spent _ (ahead start member visit left) goesOn
      · rw [List.mem_append, here, found]
        constructor
        · rintro (⟨start, member, shown⟩ | ⟨directory, listed, offered⟩)
          · exact ⟨start, member, offers_iff.mpr (.inl shown)⟩
          · obtain ⟨start, member, visit, left, rfl⟩ := (onward _).mp listed
            exact ⟨start, member, offers_iff.mpr (.inr ⟨visit, left, offered⟩)⟩
        · rintro ⟨start, member, offered⟩
          rcases offers_iff.mp offered with shown | ⟨visit, left, offered⟩
          · exact .inl ⟨start, member, shown⟩
          · exact .inr ⟨_, ahead start member visit left, offered⟩

end Pointwise

section Searches

variable (table : Table Unit)

theorem partition_mem_map_respelled {findings : List Finding} {spelling name : String} :
    .partition name ∈ findings.map (Finding.respelled spelling) ↔ .partition name ∈ findings := by
  rw [List.mem_map]
  constructor
  · rintro ⟨finding, listed, equal⟩
    cases finding with
    | partition other =>
        cases equal
        exact listed
    | descend visit => cases equal
  · exact fun listed => ⟨_, listed, rfl⟩

theorem descend_mem_map_respelled {findings : List Finding} {spelling : String} {directory : Path} :
    (∃ visit, .descend visit ∈ findings.map (Finding.respelled spelling)
        ∧ visit.directory = directory)
      ↔ ∃ visit, .descend visit ∈ findings ∧ visit.directory = directory := by
  constructor
  · rintro ⟨visit, told, rfl⟩
    obtain ⟨finding, listed, equal⟩ := List.mem_map.mp told
    cases finding with
    | partition name => cases equal
    | descend other =>
        cases equal
        exact ⟨other, listed, rfl⟩
  · rintro ⟨visit, listed, rfl⟩
    exact ⟨_, List.mem_map_of_mem listed, rfl⟩

/-- A round in which all directories can be classified finds what each of them shows, in whatever
order and under whatever spelling. -/
theorem batchFlat_classify_done {frontier : List Visit}
    (answers : ∀ visit ∈ frontier, ¬ table.Refuses visit.directory) (number : Nat)
    (world : World Unit) :
    ∃ findings, (table.batchFlat number table.classify frontier world).1 = .done findings
      ∧ (∀ name, .partition name ∈ findings
        ↔ ∃ start ∈ frontier.map Visit.directory, .partition name ∈ table.shown start)
      ∧ ∀ directory, (∃ visit, .descend visit ∈ findings ∧ visit.directory = directory)
        ↔ ∃ start ∈ frontier.map Visit.directory,
          ∃ visit, .descend visit ∈ table.shown start ∧ visit.directory = directory := by
  obtain ⟨findings, ended, found⟩ := batchFlat_values table number world _
    fun visit member => classify_shown (answers visit member)
  refine ⟨findings, ended, fun name => ?_, fun directory => ?_⟩
  · rw [found]
    constructor
    · rintro ⟨visit, member, listed⟩
      exact ⟨_, List.mem_map_of_mem member, partition_mem_map_respelled.mp listed⟩
    · rintro ⟨start, listed, seen⟩
      obtain ⟨visit, member, rfl⟩ := List.mem_map.mp listed
      exact ⟨visit, member, partition_mem_map_respelled.mpr seen⟩
  · simp only [found]
    constructor
    · rintro ⟨next, ⟨visit, member, left⟩, located⟩
      exact ⟨_, List.mem_map_of_mem member, descend_mem_map_respelled.mp ⟨next, left, located⟩⟩
    · rintro ⟨start, listed, seen⟩
      obtain ⟨visit, member, rfl⟩ := List.mem_map.mp listed
      obtain ⟨next, left, located⟩ := descend_mem_map_respelled.mpr seen
      exact ⟨next, ⟨visit, member, left⟩, located⟩

/-- A walk is told directory by directory. A round either fails for one of its directories or comes
before a walk that is told so; the induction follows the walk. -/
theorem walk_pointwise (status : String) (limit number : Nat) (frontier : List Visit)
    (world : World Unit) :
    Pointwise (table.Stuck limit) (table.Outlasts limit) table.Offers
      (frontier.map Visit.directory)
      ((table.walk status limit number frontier world).1.map fun rounds =>
        rounds.flatMap Round.partitions) := by
  induction limit, number, frontier using walk.induct generalizing world with
  | case1 limit number =>
      rw [walk]
      exact .done (by simp) (by simp) (by simp)
  | case2 number visit others =>
      rw [walk]
      exact .unfinished (fun _ _ => not_stuck_zero) List.mem_cons_self outlasts_zero
  | case3 limit number visit others ih =>
      rw [walk, Work.bind_of_done rfl]
      generalize (announce status world).2 = world
      generalize visit :: others = frontier at ih ⊢
      -- A single refusal fails the round, so what the other directories show plays no part then.
      by_cases refused : ∃ visit ∈ frontier, table.Refuses visit.directory
      · obtain ⟨visit, member, refuses⟩ := refused
        obtain ⟨error, ended, told⟩ := batchFlat_failed table table.classify_steady
          (classify_failsOnly table) ⟨visit, member, classify_refused refuses⟩ number world
        rw [Work.bind_of_failed ended]
        exact .failed (List.mem_map_of_mem member) (stuck_succ_iff.mpr (.inl refuses)) told
      · have answers : ∀ visit ∈ frontier, ¬ table.Refuses visit.directory :=
          fun visit member refuses => refused ⟨visit, member, refuses⟩
        obtain ⟨findings, ended, here, onward⟩ :=
          table.batchFlat_classify_done answers number world
        rw [Work.bind_of_done ended, Work.bind_pure_fst]
        have later := ih findings (table.batchFlat number table.classify frontier world).2
        let round : Round := { frontier, findings }
        have next : ∀ directory, directory ∈ round.next.map Visit.directory
            ↔ ∃ start ∈ frontier.map Visit.directory,
              ∃ visit, .descend visit ∈ table.shown start ∧ visit.directory = directory := by
          intro directory
          rw [List.mem_map, ← onward]
          simp only [Round.mem_next_iff, round]
        have found : ∀ name, name ∈ round.partitions
            ↔ ∃ start ∈ frontier.map Visit.directory, .partition name ∈ table.shown start :=
          fun name => Round.mem_partitions_iff.trans (here name)
        have told := later.before (List.forall_mem_map.mpr answers) next found
        generalize (table.walk status limit (number + 1) round.next _).1 = outcome at told ⊢
        cases outcome <;> exact told

/-- A search is told directory by directory. -/
theorem partitionsBelow_pointwise (spellings : List String) (world : World Unit) :
    Pointwise (table.Blocked table.rounds) (table.Outlasts table.rounds) table.Offers
      (spellings.map (Path.resolve table.root)) (table.partitionsBelow spellings world).1 := by
  by_cases empty : spellings = []
  · subst empty
    exact .done (by simp) (by simp) (by simp)
  unfold partitionsBelow
  rw [table.search_of_ne_nil empty, bind_assoc]
  have located : (table.seeds spellings).map Visit.directory
      = spellings.map (Path.resolve table.root) := by
    simp [seeds]
  rw [← located]
  generalize table.seeds spellings = seeds
  by_cases refused : ∃ seed ∈ seeds, ¬ table.Admits seed.directory
  · obtain ⟨seed, member, refused⟩ := refused
    obtain ⟨outcome, answered, admits⟩ := table.checkSeed_endsIn_iff_admits seed
    obtain ⟨error, ended, told⟩ := batch_failed table table.checkSeed_steady
      (checkSeed_failsOnly table) ⟨seed, member, outcome, mt admits.mp refused, answered⟩ 0 world
    rw [Work.bind_of_failed ended]
    exact .failed (List.mem_map_of_mem member) (.inl refused) told
  · have admitted : ∀ seed ∈ seeds, table.Admits seed.directory := fun seed member =>
      not_not.mp fun other => refused ⟨seed, member, other⟩
    have answers : ∀ seed ∈ seeds, (table.checkSeed seed).EndsIn (.done ()) := by
      intro seed member
      obtain ⟨outcome, answered, admits⟩ := table.checkSeed_endsIn_iff_admits seed
      obtain ⟨⟨⟩, rfl⟩ := admits.mpr (admitted seed member)
      exact answered
    obtain ⟨units, ended, -⟩ := Engine.map_values .taskFailed (table.order 0)
      (table.options.budget seeds.length) world (fun _ => ()) answers
    have checked : (table.batch 0 table.checkSeed seeds world).1 = .done units := ended
    rw [Work.bind_of_done checked, Work.bind_pure_fst]
    have told := (table.walk_pointwise (searchStatus spellings) table.rounds 1 seeds
      (table.batch 0 table.checkSeed seeds world).2).map
        List.eraseDups fun names name => List.mem_eraseDups
    refine Pointwise.congr ?_ (List.forall_mem_map.mpr fun seed member =>
      (or_iff_right (not_not.mpr (admitted seed member))).symm)
    generalize (table.walk (searchStatus spellings) table.rounds 1 seeds _).1 = outcome at told ⊢
    cases outcome <;> exact told

theorem Finds.nodup {μ : Type} {table : Table μ} {spellings names : List String} {world : World μ}
    (found : table.Finds spellings world (.done names)) : names.Nodup := by
  obtain ⟨-, enough, settled⟩ := found
  have distinct : ((table.within enough).partitionsBelow spellings).Gives List.Nodup :=
    (Work.gives_any _).bind fun _ _ => Work.gives_pure (nodup_eraseDups _)
  exact distinct world names (settled enough (Nat.le_refl enough))

end Searches

section Joined

variable {table : Table Unit} {options options' options'' : ListingOptions}
  {order order' order'' : Nat → Engine.Order} {rounds rounds' rounds'' : Nat}
  {ones others : List String} {left right : Outcome TableError (List String)}
  {world world' : World Unit}

/-- A search that ends is told directory by directory, whatever the schedule. -/
theorem Finds.pointwise (found : (table.rescheduled options order rounds).Finds ones world left) :
    ∃ enough, ∀ limit, enough ≤ limit →
      Pointwise (table.Blocked limit) (table.Outlasts limit) table.Offers
        (ones.map (Path.resolve table.root)) left := by
  obtain ⟨-, enough, settled⟩ := found
  refine ⟨enough, fun limit more => ?_⟩
  rw [← settled limit more]
  exact partitionsBelow_pointwise ((table.rescheduled options order rounds).within limit) ones world

/-- Two searches that end tell how a search ends that starts where one of them does. -/
theorem Finds.join (one : (table.rescheduled options order rounds).Finds ones world left)
    (other : (table.rescheduled options' order' rounds').Finds others world' right)
    (spellings : List String)
    (covers : ∀ directory, directory ∈ spellings.map (Path.resolve table.root)
      ↔ directory ∈ ones.map (Path.resolve table.root)
        ∨ directory ∈ others.map (Path.resolve table.root)) (world'' : World Unit) :
    ∃ outcome, (table.rescheduled options'' order'' rounds'').Finds spellings world'' outcome
      ∧ (outcome.Succeeds ↔ left.Succeeds ∧ right.Succeeds)
      ∧ ∀ names, outcome = .done names → ∃ first second, left = .done first ∧ right = .done second
        ∧ ∀ name, name ∈ names ↔ name ∈ first ∨ name ∈ second := by
  obtain ⟨enough, told⟩ := one.pointwise
  obtain ⟨enough', told'⟩ := other.pointwise
  -- Rounds enough for both searches are enough for the one that covers them.
  let whole := (table.rescheduled options'' order'' rounds'').within (max enough enough')
  have all : Pointwise (table.Blocked (max enough enough')) (table.Outlasts (max enough enough'))
      table.Offers (spellings.map (Path.resolve table.root))
      (whole.partitionsBelow spellings world'').1 :=
    partitionsBelow_pointwise whole spellings world''
  obtain ⟨ended, succeeds, found⟩ := all.join (told _ (Nat.le_max_left _ _))
    (told' _ (Nat.le_max_right _ _)) covers one.1 other.1
  exact ⟨_, finds_of_ended ended, succeeds, found⟩

end Joined

/-- Finding partitions distributes over lists of prefixes. On a store that remembers nothing, with any
bounds on the tasks alive at once and any orders of completion: where the searches below two lists of
prefixes end, so does the search below both; it succeeds exactly if both searches do, and then finds
what one of them finds. So does a search below other spellings of the directories of one list, however
often and in whatever order they are spelled: it succeeds exactly if the one below that list does, and
finds the same. -/
theorem finds_append (table : Table Unit) (options options' : ListingOptions)
    (order order' : Nat → Engine.Order) {ones others : List String}
    {left right : Outcome TableError (List String)} {world world' : World Unit}
    (one : table.Finds ones world left)
    (other : (table.rescheduled options order table.rounds).Finds others world' right)
    (world'' : World Unit) :
    let again := table.rescheduled options' order' table.rounds
    (∃ whole, again.Finds (ones ++ others) world'' whole
      ∧ (whole.Succeeds ↔ left.Succeeds ∧ right.Succeeds)
      ∧ ∀ names, whole = .done names → names.Nodup
        ∧ ∃ first second, left = .done first ∧ right = .done second
          ∧ ∀ name, name ∈ names ↔ name ∈ first ∨ name ∈ second)
    ∧ ∀ spellings, (∀ directory, directory ∈ spellings.map (Path.resolve table.root)
        ↔ directory ∈ ones.map (Path.resolve table.root)) →
      ∃ whole, again.Finds spellings world'' whole ∧ (whole.Succeeds ↔ left.Succeeds)
        ∧ ∀ names, whole = .done names →
          ∃ first, left = .done first ∧ first.Perm names := by
  intro again
  have one' : (table.rescheduled table.options table.order table.rounds).Finds ones world left := one
  constructor
  · obtain ⟨whole, ended, succeeds, found⟩ := one'.join other (ones ++ others) (by simp)
      world''
    refine ⟨whole, ended, succeeds, ?_⟩
    rintro names rfl
    exact ⟨ended.nodup, found names rfl⟩
  · intro spellings same
    obtain ⟨whole, ended, succeeds, found⟩ := one'.join one' spellings
      (by simpa only [or_self] using same) world''
    refine ⟨whole, ended, succeeds.trans (and_self_iff), ?_⟩
    rintro names rfl
    obtain ⟨first, second, rfl, equal, members⟩ := found names rfl
    cases equal
    refine ⟨first, rfl, ?_⟩
    rw [List.perm_ext_iff_of_nodup one.nodup ended.nodup]
    intro name
    rw [members, or_self]

/-- A store where every directory holds `a` and `b`, and where what lies one level down is marked: one
search begins at one of the partitions, the other above both. -/
theorem finds_append_one_level_down :
    let head : Path → Outcome StoreError Unit := fun path =>
      if path.segments.length = 2 then .done () else .failed (.notFound "" "")
    let list : Path → Outcome StoreError Listing := fun path =>
      .done { directories := [path.child "a", path.child "b"], files := [] }
    let table : Table Unit :=
      { store := Store.stateless head list, options := { parallelism := 2 }, rounds := 0,
        order := fun _ _ => 1 }
    let again := table.rescheduled { parallelism := 1 } (fun _ _ => 0) 0
    table.Finds ["a"] { memory := () } (.done ["a"])
      ∧ again.Finds [""] { memory := () } (.done ["a", "b"])
      ∧ ∃ names, again.Finds ["a", ""] { memory := () } (.done names)
        ∧ ∀ name, name ∈ names ↔ name ∈ ["a"] ∨ name ∈ ["a", "b"] := by
  intro head list table again
  have one : table.Finds ["a"] { memory := () } (.done ["a"]) := by
    have ended : ((table.within 2).partitionsBelow ["a"] { memory := () }).1 = .done ["a"] := by
      decide +kernel
    exact ended ▸ finds_of_ended (ended ▸ fun equal => by cases equal)
  have other : again.Finds [""] { memory := () } (.done ["a", "b"]) := by
    have ended : ((again.within 2).partitionsBelow [""] { memory := () }).1 = .done ["a", "b"] := by
      decide +kernel
    exact ended ▸ finds_of_ended (ended ▸ fun equal => by cases equal)
  obtain ⟨whole, ended, succeeds, found⟩ := (finds_append table { parallelism := 1 }
    { parallelism := 1 } (fun _ _ => 0) (fun _ _ => 0) one other { memory := () }).1
  obtain ⟨names, rfl⟩ := succeeds.mpr ⟨Outcome.succeeds_done _, Outcome.succeeds_done _⟩
  obtain ⟨-, first, second, equal, equal', members⟩ := found names rfl
  cases equal
  cases equal'
  exact ⟨one, other, names, ended, members⟩

end Table

end PartitionedTable
