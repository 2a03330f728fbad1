import PartitionedTable.Proofs.Marked

/-!
Two tables side by side. Work on one store matches work on another when both end alike, in related
values or in the same error. Work put together from matching pieces matches, and so do two batches under
the same schedule, since which task finishes next does not depend on what the tasks do. So two tables
that differ in their stores alone give the same answers as long as the stores agree about the
directories that either of them comes upon (`Store.Shares`).
-/

namespace PartitionedTable

namespace Outcome

variable {ε δ α α' : Type}

/-- Two values that are related, the same error twice, or two crashes. -/
inductive Related (same : α → α' → Prop) : Outcome ε α → Outcome ε α' → Prop where
  | done {value : α} {value' : α'} (holds : same value value') : Related same (.done value) (.done value')
  | failed (error : ε) : Related same (.failed error) (.failed error)
  | crashed : Related same .crashed .crashed

theorem Related.mapError {same : α → α' → Prop} {outcome : Outcome ε α} {outcome' : Outcome ε α'}
    (related : Related same outcome outcome') (describe : ε → δ) :
    Related same (outcome.mapError describe) (outcome'.mapError describe) := by
  cases related with
  | done holds => exact .done holds
  | failed error => exact .failed (describe error)
  | crashed => exact .crashed

theorem Related.of_done {same : α → α' → Prop} {value : α} {outcome : Outcome ε α'}
    (related : Related same (.done value) outcome) :
    ∃ value', outcome = .done value' ∧ same value value' := by
  cases related with
  | done holds => exact ⟨_, rfl, holds⟩

theorem related_refl (outcome : Outcome ε α) : Related Eq outcome outcome := by
  cases outcome with
  | done value => exact .done rfl
  | failed error => exact .failed error
  | crashed => exact .crashed

theorem Related.eq {outcome outcome' : Outcome ε α} (related : Related Eq outcome outcome') :
    outcome = outcome' := by
  cases related with
  | done holds => rw [holds]
  | failed error => rfl
  | crashed => rfl

end Outcome

namespace Work

variable {σ σ' ε δ α α' β β' : Type}

/-- Whatever the states, both works end alike. -/
def Matches (same : α → α' → Prop) (left : Work σ ε α) (right : Work σ' ε α') : Prop :=
  ∀ state state', Outcome.Related same (left state).1 (right state').1

variable {same : α → α' → Prop} {left : Work σ ε α} {right : Work σ' ε α'}

theorem matches_pure {value : α} {value' : α'} (holds : same value value') :
    Matches same (pure value : Work σ ε α) (pure value' : Work σ' ε α') :=
  fun _ _ => .done holds

theorem matches_fail (error : ε) :
    Matches same (fail error : Work σ ε α) (fail error : Work σ' ε α') :=
  fun _ _ => .failed error

theorem EndsIn.matches {outcome : Outcome ε α} {outcome' : Outcome ε α'}
    (ended : left.EndsIn outcome) (ended' : right.EndsIn outcome')
    (related : Outcome.Related same outcome outcome') : Matches same left right := by
  intro state state'
  rwa [ended state, ended' state']

theorem Matches.bind {same' : β → β' → Prop} {next : α → Work σ ε β} {next' : α' → Work σ' ε β'}
    (begins : Matches same left right)
    (later : ∀ value value', same value value' → Matches same' (next value) (next' value')) :
    Matches same' (left >>= next) (right >>= next') := by
  intro state state'
  have related := begins state state'
  rw [bind_apply, bind_apply]
  generalize left state = ended at related
  generalize right state' = ended' at related
  obtain ⟨outcome, after⟩ := ended
  obtain ⟨outcome', after'⟩ := ended'
  cases related with
  | done holds => exact later _ _ holds after after'
  | failed error => exact .failed error
  | crashed => exact .crashed

theorem Matches.mapError (alike : Matches same left right) (describe : ε → δ) :
    Matches same (left.mapError describe) (right.mapError describe) :=
  fun state state' => (alike state state').mapError describe

theorem Matches.mono {more : α → α' → Prop} (alike : Matches same left right)
    (weaker : ∀ value value', same value value' → more value value') : Matches more left right := by
  intro state state'
  generalize (left state).1 = outcome, (right state').1 = outcome', alike state state' = related
  cases related with
  | done holds => exact .done (weaker _ _ holds)
  | failed error => exact .failed error
  | crashed => exact .crashed

/-- What one work gives is known of the other as well. -/
theorem Matches.and_gives {holds : α → Prop} (alike : Matches same left right)
    (gives : left.Gives holds) :
    Matches (fun value value' => same value value' ∧ holds value) left right := by
  intro state state'
  have given := gives state
  generalize (left state).1 = outcome, (right state').1 = outcome', alike state state' = related
    at given
  cases related with
  | done holds => exact .done ⟨holds, given _ rfl⟩
  | failed error => exact .failed error
  | crashed => exact .crashed

end Work

namespace Engine

variable {σ σ' ε ι ο ο' : Type} {task : ι → Work σ ε ο} {task' : ι → Work σ' ε ο'}
  {same : ο → ο' → Prop}

/-- What is left of two batches ends alike if their tasks do, since the same item finishes next in
both. -/
theorem drain_matches (crash : ε) (order : Order) (wait : Nat) {running pending : List ι}
    (alike : ∀ item ∈ running ++ pending, (task item).Matches same (task' item)) (state : σ)
    (state' : σ') :
    Outcome.Related (List.Forall₂ same)
      ((drain task order wait running pending state).1.seen crash)
      ((drain task' order wait running pending state').1.seen crash) := by
  induction wait, running, pending using drain_induction order generalizing state state' with
  | idle wait pending =>
      rw [drain, drain]
      exact .done .nil
  | next wait running pending item others here ih =>
      have first := alike item ((here.front pending).subset List.mem_cons_self) state state'
      rw [here.step, here.step]
      generalize task item state = ended at first
      generalize task' item state' = ended' at first
      obtain ⟨outcome, after⟩ := ended
      obtain ⟨outcome', after'⟩ := ended'
      cases first with
      | done holds =>
          have behind : ∀ other ∈ others ++ pending.take 1 ++ pending.drop 1,
              (task other).Matches same (task' other) := by
            intro other member
            rw [List.append_assoc, List.take_append_drop] at member
            exact alike other ((here.front pending).subset (List.mem_cons_of_mem item member))
          have rest := ih behind after after'
          unfold Report.seen at rest ⊢
          dsimp only
          generalize (drain task order (wait + 1) (others ++ pending.take 1) (pending.drop 1)
            after).1.outcome = outcome at rest ⊢
          generalize (drain task' order (wait + 1) (others ++ pending.take 1) (pending.drop 1)
            after').1.outcome = outcome' at rest ⊢
          cases outcome <;> cases outcome'
          · exact rest
          · cases rest
          · cases rest
          · cases rest with
            | done all => exact .done (.cons holds all)
      | failed error => exact .failed error
      | crashed => exact .failed crash

/-- Two batches under the same schedule end alike if their tasks do. -/
theorem map_matches (crash : ε) (order : Order) (parallelism : Nat) {items : List ι}
    (alike : ∀ item ∈ items, (task item).Matches same (task' item)) :
    (map crash task order parallelism items).Matches (List.Forall₂ same)
      (map crash task' order parallelism items) := by
  intro state state'
  rw [map_eq_drain, map_eq_drain]
  apply drain_matches
  rwa [List.take_append_drop]

end Engine

/-- The same values twice, all of which are as described. -/
def SameAll {α : Type} (holds : α → Prop) (values values' : List α) : Prop :=
  values = values' ∧ ∀ value ∈ values, holds value

theorem sameAll_flatten {α : Type} {holds : α → Prop} {lists lists' : List (List α)}
    (all : List.Forall₂ (SameAll holds) lists lists') :
    SameAll holds lists.flatten lists'.flatten := by
  induction all with
  | nil => exact ⟨rfl, fun _ member => absurd member List.not_mem_nil⟩
  | cons first _ ih =>
      obtain ⟨rfl, known⟩ := first
      obtain ⟨same, known'⟩ := ih
      refine ⟨by rw [List.flatten_cons, List.flatten_cons, same], fun value member => ?_⟩
      rcases List.mem_append.mp member with member | member
      · exact known value member
      · exact known' value member

namespace Store

/-- Both stores find a file at `path`, or both say that there is nothing. -/
def HeadsAlike (one other : Store Unit) (path : Path) : Prop :=
  ((one.head path ()).1 = .done () ∧ (other.head path ()).1 = .done ())
    ∨ ∃ failure failure', (one.head path ()).1 = .failed failure ∧ failure.isNotFound = true
      ∧ (other.head path ()).1 = .failed failure' ∧ failure'.isNotFound = true

/-- The same directories in the same order, and the same files. -/
def SameLevel (listing listing' : Listing) : Prop :=
  listing.directories = listing'.directories ∧ listing.files.Perm listing'.files

/-- Both stores list the same in `directory`. -/
def ListsAlike (one other : Store Unit) (directory : Path) : Prop :=
  ∃ listing listing', (one.list directory ()).1 = .done listing
    ∧ (other.list directory ()).1 = .done listing' ∧ SameLevel listing listing'

section Questions

variable {one other : Store Unit} {directory : Path}

theorem ListsAlike.callList_matches (alike : ListsAlike one other directory) (purpose : Purpose) :
    (one.callList directory purpose).Matches SameLevel (other.callList directory purpose) := by
  obtain ⟨listing, listing', ended, ended', same⟩ := alike
  have called : (one.callList directory purpose).EndsIn (.done listing) := fun _ => ended
  have called' : (other.callList directory purpose).EndsIn (.done listing') := fun _ => ended'
  exact called.matches called' (.done same)

theorem ListsAlike.levelOrNone_matches (alike : ListsAlike one other directory)
    (purpose : Purpose) :
    (one.levelOrNone directory purpose).Matches SameLevel (other.levelOrNone directory purpose) := by
  obtain ⟨listing, listing', ended, ended', same⟩ := alike
  have found := ((Shows.listed ended).levelOrNone_does purpose).endsIn
  have found' := ((Shows.listed ended').levelOrNone_does purpose).endsIn
  exact found.matches found' (.done same)

theorem ListsAlike.directoriesIn_matches (alike : ListsAlike one other directory)
    (excluded : String → Bool) :
    (one.directoriesIn directory excluded).Matches Eq (other.directoriesIn directory excluded) :=
  ((alike.callList_matches .children).mapError _).bind fun _ _ same =>
    Work.matches_pure (by rw [same.1])

theorem ListsAlike.dataFilesIn_matches (alike : ListsAlike one other directory) :
    (one.dataFilesIn directory).Matches List.Perm (other.dataFilesIn directory) :=
  (alike.levelOrNone_matches .files).bind fun _ _ same => Work.matches_pure (same.2.filter _)

theorem ListsAlike.directoryExists_matches (inside : ListsAlike one other directory)
    (above : ListsAlike one other directory.parent) :
    (one.directoryExists directory).Matches Eq (other.directoryExists directory) := by
  unfold directoryExists
  by_cases atTop : directory = Path.top
  · rw [if_pos atTop, if_pos atTop]
    exact Work.matches_pure rfl
  · rw [if_neg atTop, if_neg atTop]
    refine (inside.levelOrNone_matches .existence).bind fun listing listing' same => ?_
    have empty : listing.isEmpty = listing'.isEmpty := by
      unfold Listing.isEmpty
      rw [same.1, Bool.eq_iff_iff, Bool.and_eq_true, Bool.and_eq_true, List.isEmpty_iff,
        List.isEmpty_iff, List.isEmpty_iff]
      exact and_congr_right fun _ => ⟨fun none => (none ▸ same.2).nil_eq.symm,
        fun none => (none ▸ same.2).eq_nil⟩
    rw [empty]
    split
    · exact Work.matches_pure rfl
    · exact (above.levelOrNone_matches .existence).bind fun _ _ same =>
        Work.matches_pure (by rw [same.1])

/-- Looking at the answers to two alike calls: a file twice, or twice nothing. -/
theorem HeadsAlike.attempt_matches {path : Path} (alike : HeadsAlike one other path) :
    ((one.callHead path).attempt : Work (World Unit) StorageError _).Matches
      (fun answer answer' => (answer = .ok () ∧ answer' = .ok ())
        ∨ ∃ failure failure', answer = .error failure ∧ failure.isNotFound = true
          ∧ answer' = .error failure' ∧ failure'.isNotFound = true)
      (other.callHead path).attempt := by
  rcases alike with ⟨found, found'⟩ | ⟨failure, failure', missing, none, missing', none'⟩
  · have called : (one.callHead path).EndsIn (.done ()) := fun _ => found
    have called' : (other.callHead path).EndsIn (.done ()) := fun _ => found'
    exact called.attempt.matches called'.attempt (.done (.inl ⟨rfl, rfl⟩))
  · have called : (one.callHead path).EndsIn (.failed failure) := fun _ => missing
    have called' : (other.callHead path).EndsIn (.failed failure') := fun _ => missing'
    exact called.attempt.matches called'.attempt
      (.done (.inr ⟨failure, failure', rfl, none, rfl, none'⟩))

/-- Names are tried up to the first that is there, the same for both stores. -/
theorem holdsOneOf_matches {names : List String}
    (alike : ∀ name ∈ names, HeadsAlike one other (directory.child name)) :
    (one.holdsOneOf directory names).Matches Eq (other.holdsOneOf directory names) := by
  induction names with
  | nil => exact Work.matches_pure rfl
  | cons name others ih =>
      refine (alike name List.mem_cons_self).attempt_matches.bind fun answer answer' known => ?_
      rcases known with ⟨rfl, rfl⟩ | ⟨failure, failure', rfl, none, rfl, none'⟩
      · exact Work.matches_pure rfl
      · dsimp only
        rw [if_pos none, if_pos none']
        exact ih fun other member => alike other (List.mem_cons_of_mem name member)

end Questions

/-- Two stores agree about the directories of `reach`: on whether they are marked and on the
directories in them, which are of `reach` again. -/
structure Shares (one other : Store Unit) (reach : Path → Prop) : Prop where
  marks : ∀ directory, reach directory →
    (one.hasMarker directory).Matches Eq (other.hasMarker directory)
  lists : ∀ directory, reach directory →
    (one.directoriesIn directory Layout.isBookkeeping).Matches (SameAll reach)
      (other.directoriesIn directory Layout.isBookkeeping)

end Store

namespace Table

/-- The same table on another store. -/
def on (table : Table Unit) (store : Store Unit) : Table Unit := { table with store }

variable {table : Table Unit} {store : Store Unit} {reach : Path → Prop}

/-- A finding that goes on only to directories of `reach`. -/
def Onward (reach : Path → Prop) (finding : Finding) : Prop :=
  ∀ visit, finding = .descend visit → reach visit.directory

theorem announce_matches (description : String) :
    (announce description : Job Unit Unit).Matches Eq (announce description : Job Unit Unit) :=
  fun _ _ => .done rfl

theorem batch_matches {ι ο : Type} {same : ο → ο → Prop} {task task' : ι → Job Unit ο}
    {items : List ι} (alike : ∀ item ∈ items, (task item).Matches same (task' item)) (number : Nat) :
    (table.batch number task items).Matches (List.Forall₂ same)
      ((table.on store).batch number task' items) :=
  Engine.map_matches TableError.taskFailed (table.order number)
    (table.options.budget items.length) alike

theorem batchFlat_matches {ι ο : Type} {holds : ο → Prop} {task task' : ι → Job Unit (List ο)}
    {items : List ι} (alike : ∀ item ∈ items, (task item).Matches (SameAll holds) (task' item))
    (number : Nat) :
    (table.batchFlat number task items).Matches (SameAll holds)
      ((table.on store).batchFlat number task' items) :=
  (batch_matches alike number).bind fun _ _ all => Work.matches_pure (sameAll_flatten all)

theorem classify_matches (shares : table.store.Shares store reach) {visit : Visit}
    (reached : reach visit.directory) :
    (table.classify visit).Matches (SameAll (Onward reach)) ((table.on store).classify visit) := by
  have named : (table.partitionName visit.directory).Matches Eq
      ((table.on store).partitionName visit.directory) := by
    obtain ⟨outcome, ended⟩ := table.partitionName_steady visit.directory
    exact ended.matches ended (Outcome.related_refl outcome)
  refine ((shares.marks _ reached).mapError _).bind fun marked _ same => ?_
  subst same
  cases marked with
  | true =>
      refine named.bind fun name _ same => Work.matches_pure ⟨by rw [same], ?_⟩
      intro finding member visit equal
      rw [List.mem_singleton.mp member] at equal
      cases equal
  | false =>
      refine ((shares.lists _ reached).mapError _).bind fun children _ same => ?_
      obtain ⟨rfl, known⟩ := same
      refine Work.matches_pure ⟨rfl, ?_⟩
      intro finding member next equal
      obtain ⟨directory, listed, rfl⟩ := List.mem_map.mp member
      cases equal
      exact known directory listed

/-- Two walks from the same directories of `reach` end alike; the induction follows the walk. -/
theorem walk_matches (shares : table.store.Shares store reach) (status : String)
    (limit number : Nat) {frontier : List Visit}
    (reached : ∀ visit ∈ frontier, reach visit.directory) :
    (table.walk status limit number frontier).Matches Eq
      ((table.on store).walk status limit number frontier) := by
  induction limit, number, frontier using walk.induct with
  | case1 limit number =>
      rw [walk, walk]
      exact Work.matches_pure rfl
  | case2 number visit others =>
      rw [walk, walk]
      exact Work.matches_fail _
  | case3 limit number visit others ih =>
      rw [walk, walk]
      generalize visit :: others = frontier at reached ih ⊢
      refine (announce_matches _).bind fun _ _ _ => ?_
      refine (batchFlat_matches (fun visit member => classify_matches shares (reached visit member))
        number).bind fun findings _ same => ?_
      obtain ⟨rfl, onward⟩ := same
      refine (ih findings fun next member => ?_).bind fun later _ same => ?_
      · exact onward _ (Round.mem_next_iff.mp member) next rfl
      · exact Work.matches_pure (by rw [same])

/-- A search whose starts agree ends alike: either one of them fails both searches, or all of them are
of `reach`. -/
theorem partitionsBelow_matches (shares : table.store.Shares store reach) {spellings : List String}
    (starts : ∀ spelling ∈ spellings,
      (table.checkSeed ⟨Path.resolve table.root spelling, spelling⟩).Matches
        (fun _ _ => reach (Path.resolve table.root spelling))
        ((table.on store).checkSeed ⟨Path.resolve table.root spelling, spelling⟩)) :
    (table.partitionsBelow spellings).Matches Eq ((table.on store).partitionsBelow spellings) := by
  by_cases empty : spellings = []
  · subst empty
    exact Work.matches_pure rfl
  have begins : ∀ seed ∈ table.seeds spellings,
      (table.checkSeed seed).Matches (fun _ _ => reach seed.directory)
        ((table.on store).checkSeed seed) := by
    intro seed member
    obtain ⟨spelling, asked, rfl⟩ := List.mem_map.mp member
    exact starts spelling asked
  have checked : (table.batch 0 table.checkSeed (table.seeds spellings)).Gives
      fun _ => ∀ seed ∈ table.seeds spellings, reach seed.directory := by
    intro world units ended seed member
    by_contra unreached
    obtain ⟨outcome, answered⟩ := table.checkSeed_steady seed
    have fails : ¬ outcome.Succeeds := by
      rintro ⟨value, rfl⟩
      have related := begins seed member world world
      rw [answered world] at related
      generalize ((table.on store).checkSeed seed world).1 = outcome' at related
      cases related with
      | done holds => exact unreached holds
    obtain ⟨error, failed, -⟩ := batch_failed table table.checkSeed_steady
      (checkSeed_failsOnly table) ⟨seed, member, outcome, fails, answered⟩ 0 world
    cases ended.symm.trans failed
  have alike : ∀ seed ∈ table.seeds spellings,
      (table.checkSeed seed).Matches Eq ((table.on store).checkSeed seed) :=
    fun seed member => (begins seed member).mono fun _ _ _ => rfl
  unfold partitionsBelow
  rw [table.search_of_ne_nil empty, (table.on store).search_of_ne_nil empty]
  have searched : (table.batch 0 table.checkSeed (table.seeds spellings)).Matches
      (fun _ _ => ∀ seed ∈ table.seeds spellings, reach seed.directory)
      ((table.on store).batch 0 (table.on store).checkSeed (table.seeds spellings)) :=
    ((batch_matches alike 0).and_gives checked).mono fun _ _ known => known.2
  refine (searched.bind fun _ _ reached => walk_matches shares _ _ _ reached).bind
    fun rounds _ same => Work.matches_pure (by rw [same])

theorem descendants_matches (shares : table.store.Shares store reach) (levels number : Nat)
    {frontier : List Path} (reached : ∀ directory ∈ frontier, reach directory) :
    (table.descendants levels number frontier).Matches Eq
      ((table.on store).descendants levels number frontier) := by
  induction levels, number, frontier using descendants.induct with
  | case1 number frontier => exact Work.matches_pure rfl
  | case2 number levels => exact Work.matches_pure rfl
  | case3 levels number directory others ih =>
      rw [descendants, descendants]
      generalize directory :: others = frontier at reached ⊢
      refine (batchFlat_matches (fun directory member =>
        (shares.lists directory (reached directory member)).mapError _) number).bind
        fun children _ same => ?_
      obtain ⟨rfl, onward⟩ := same
      exact ih children onward

theorem datePartitions_matches (shares : table.store.Shares store reach) (root : reach table.root) :
    table.datePartitions.Matches Eq (table.on store).datePartitions := by
  refine (announce_matches _).bind fun _ _ _ => ?_
  have fromRoot : ∀ directory ∈ [table.root], reach directory := by
    intro directory member
    rwa [List.mem_singleton.mp member]
  refine (descendants_matches shares dateDepth 0 fromRoot).bind fun directories _ same => ?_
  subst same
  have named : (directories.mapM table.partitionName).Matches Eq
      (directories.mapM (table.on store).partitionName) := by
    by_cases outside : ∃ directory ∈ directories, Path.relativeName? table.root directory = none
    · obtain ⟨_, _, _, failed⟩ := mapM_partitionName_failed table outside
      exact failed.matches failed (.failed _)
    · have below : ∀ directory ∈ directories,
          ∃ name, Path.relativeName? table.root directory = some name := by
        simpa only [not_exists, not_and, ← ne_eq, Option.ne_none_iff_exists'] using outside
      have told := (mapM_partitionName_does table below).endsIn
      exact told.matches told (.done rfl)
  exact named.bind fun names _ same => Work.matches_pure (by rw [same])

/-- Listings of several partitions give, for the same spellings in the same order, the same files up to
their order if the single listings do. -/
theorem filesOfEach_matches {spellings : List String}
    (listed : ∀ spelling ∈ spellings,
      (table.store.dataFilesIn (Path.resolve table.root spelling)).Matches List.Perm
        (store.dataFilesIn (Path.resolve table.root spelling))) :
    (table.filesOfEach spellings).Matches
      (List.Forall₂ fun one other => one.1 = other.1 ∧ one.2.Perm other.2)
      ((table.on store).filesOfEach spellings) := by
  unfold filesOfEach
  dsimp only
  split
  · exact Work.matches_pure .nil
  · refine (announce_matches _).bind fun _ _ _ => ?_
    refine batch_matches (fun spelling member => ?_) 0
    refine ((listed spelling (List.mem_eraseDups.mp member)).mapError _).bind
      fun entries entries' same => Work.matches_pure ⟨rfl, same⟩

end Table

end PartitionedTable
