import PartitionedTable.Proofs.InTurn
import PartitionedTable.Proofs.Steady

/-!
Failures that no operation passes over. A call is fatal when it fails and the failure cannot be taken
for an answer: that there is nothing at a place answers a look for a marker, for files or for a
directory, but never a look for child directories. Work heeds fatal failures when the first one is
its last call and it fails telling of it. Every question about storage does, doing one thing after
another keeps it, and so every operation of a table has it.
-/

namespace PartitionedTable

/-- The error, if it ended in one. -/
def Outcome.error? {ε α : Type} : Outcome ε α → Option ε
  | .done _ => none
  | .failed error => some error
  | .crashed => none

theorem Outcome.error?_eq_some_iff {ε α : Type} {outcome : Outcome ε α} {error : ε} :
    outcome.error? = some error ↔ outcome = .failed error := by
  cases outcome <;> simp [error?]

/-- How storage tells that a call failed. Markers are looked for directly in a directory. -/
def Call.blame : Call → StoreError → StorageError
  | .head path, failure => .markerCheck path.parent failure
  | .list path _, failure => .listing path failure

namespace Store

/-- The failure of a call that no operation may take for an answer. -/
def fatal? (store : Store Unit) : Call → Option StoreError
  | .head path => (store.head path ()).1.error?.filter fun failure => !failure.isNotFound
  | .list path .children => (store.list path ()).1.error?
  | .list path .files => (store.list path ()).1.error?.filter fun failure => !failure.isNotFound
  | .list path .existence => (store.list path ()).1.error?.filter fun failure => !failure.isNotFound

variable {store : Store Unit} {path : Path} {failure : StoreError}

theorem fatal?_head_eq_some_iff : store.fatal? (.head path) = some failure
    ↔ (store.head path ()).1 = .failed failure ∧ failure.isNotFound = false := by
  simp [fatal?, Option.filter_eq_some_iff, Outcome.error?_eq_some_iff]

theorem fatal?_children_eq_some_iff : store.fatal? (.list path .children) = some failure
    ↔ (store.list path ()).1 = .failed failure :=
  Outcome.error?_eq_some_iff

theorem fatal?_list_eq_some_iff {purpose : Purpose} (other : purpose ≠ .children) :
    store.fatal? (.list path purpose) = some failure
      ↔ (store.list path ()).1 = .failed failure ∧ failure.isNotFound = false := by
  cases purpose with
  | children => exact absurd rfl other
  | files => simp [fatal?, Option.filter_eq_some_iff, Outcome.error?_eq_some_iff]
  | existence => simp [fatal?, Option.filter_eq_some_iff, Outcome.error?_eq_some_iff]

end Store

variable {ε δ α β : Type} {store : Store Unit}

/-- What work that heeds fatal failures comes to after the calls `made`: no call failed fatally, or
only the last one did, and the work failed in an error that tells of it. -/
inductive Heeded (store : Store Unit) (tells : Call → StoreError → ε → Prop) :
    List Call → Outcome ε α → Prop where
  | unharmed {made : List Call} {outcome : Outcome ε α}
      (clear : ∀ call ∈ made, store.fatal? call = none) : Heeded store tells made outcome
  | struck {front : List Call} {call : Call} {failure : StoreError} {error : ε}
      (clear : ∀ other ∈ front, store.fatal? other = none)
      (fatal : store.fatal? call = some failure) (told : tells call failure error) :
      Heeded store tells (front ++ [call]) (.failed error)

namespace Heeded

variable {tells : Call → StoreError → ε → Prop} {made : List Call} {outcome : Outcome ε α}

theorem struck_at_once {call : Call} {failure : StoreError} {error : ε}
    (fatal : store.fatal? call = some failure) (told : tells call failure error) :
    Heeded store tells [call] (.failed error : Outcome ε α) :=
  List.nil_append [call] ▸ .struck (fun _ member => absurd member List.not_mem_nil) fatal told

/-- Work with a value met no fatal failure. -/
theorem clear_of_done {value : α} (heeded : Heeded store tells made (.done value)) :
    ∀ call ∈ made, store.fatal? call = none := by
  cases heeded with
  | unharmed clear => exact clear

theorem clear_of_crashed (heeded : Heeded store tells made (.crashed : Outcome ε α)) :
    ∀ call ∈ made, store.fatal? call = none := by
  cases heeded with
  | unharmed clear => exact clear

/-- An error is handed on as it is. -/
theorem of_failed {error : ε} (heeded : Heeded store tells made (.failed error : Outcome ε α)) :
    Heeded store tells made (.failed error : Outcome ε β) := by
  cases heeded with
  | unharmed clear => exact .unharmed clear
  | struck clear fatal told => exact .struck clear fatal told

/-- Calls without a fatal failure may come before. -/
theorem after {earlier : List Call} (clear : ∀ call ∈ earlier, store.fatal? call = none)
    (heeded : Heeded store tells made outcome) : Heeded store tells (earlier ++ made) outcome := by
  cases heeded with
  | unharmed clear' =>
      refine .unharmed fun call member => ?_
      rcases List.mem_append.mp member with member | member
      · exact clear call member
      · exact clear' call member
  | struck clear' fatal told =>
      rw [← List.append_assoc]
      refine .struck (fun call member => ?_) fatal told
      rcases List.mem_append.mp member with member | member
      · exact clear call member
      · exact clear' call member

theorem mapError {tells' : Call → StoreError → δ → Prop} {describe : ε → δ}
    (heeded : Heeded store tells made outcome)
    (holds : ∀ call failure error, tells call failure error → tells' call failure (describe error)) :
    Heeded store tells' made (outcome.mapError describe) := by
  cases heeded with
  | unharmed clear => exact .unharmed clear
  | struck clear fatal told => exact .struck clear fatal (holds _ _ _ told)

end Heeded

namespace Work

variable {tells : Call → StoreError → ε → Prop}

/-- The first fatal failure that the work meets ends it. -/
def Heeds (store : Store Unit) (tells : Call → StoreError → ε → Prop)
    (work : Work (World Unit) ε α) : Prop :=
  ∀ world, ∃ made, (work world).2.calls = world.calls ++ made
    ∧ Heeded store tells made (work world).1

/-- Work that makes no call meets no failure. -/
theorem heeds_of_no_call {work : Work (World Unit) ε α}
    (silent : ∀ world, (work world).2.calls = world.calls) : work.Heeds store tells :=
  fun world => ⟨[], by rw [silent, List.append_nil],
    .unharmed fun _ member => absurd member List.not_mem_nil⟩

theorem heeds_pure (value : α) : (pure value : Work (World Unit) ε α).Heeds store tells :=
  heeds_of_no_call fun _ => rfl

theorem heeds_fail (error : ε) : (fail error : Work (World Unit) ε α).Heeds store tells :=
  heeds_of_no_call fun _ => rfl

theorem Heeds.bind {first : Work (World Unit) ε α} {next : α → Work (World Unit) ε β}
    (begins : first.Heeds store tells) (later : ∀ value, (next value).Heeds store tells) :
    (first >>= next).Heeds store tells := by
  intro world
  obtain ⟨made, calls, heeded⟩ := begins world
  rw [bind_apply]
  generalize first world = reached at calls heeded
  obtain ⟨outcome, between⟩ := reached
  cases outcome with
  | done value =>
      obtain ⟨more, calls', heeded'⟩ := later value between
      refine ⟨made ++ more, ?_, heeded'.after heeded.clear_of_done⟩
      rw [calls', calls, List.append_assoc]
  | failed error => exact ⟨made, calls, heeded.of_failed⟩
  | crashed => exact ⟨made, calls, .unharmed heeded.clear_of_crashed⟩

theorem Heeds.mapError {work : Work (World Unit) ε α} {tells' : Call → StoreError → δ → Prop}
    (heeds : work.Heeds store tells) {describe : ε → δ}
    (holds : ∀ call failure error, tells call failure error → tells' call failure (describe error)) :
    (work.mapError describe).Heeds store tells' := by
  intro world
  obtain ⟨made, calls, heeded⟩ := heeds world
  exact ⟨made, calls, heeded.mapError holds⟩

theorem Heeds.catching {work : Work (World Unit) ε α} (heeds : work.Heeds store tells)
    (crash : ε) : (work.catching crash).Heeds store tells := by
  intro world
  obtain ⟨made, calls, heeded⟩ := heeds world
  unfold Work.catching
  generalize work world = reached at calls heeded
  obtain ⟨outcome, after⟩ := reached
  cases outcome with
  | done value => exact ⟨made, calls, heeded⟩
  | failed error => exact ⟨made, calls, heeded⟩
  | crashed => exact ⟨made, calls, .unharmed heeded.clear_of_crashed⟩

theorem heeds_mapM {ι : Type} {task : ι → Work (World Unit) ε α}
    (heeds : ∀ item, (task item).Heeds store tells) (items : List ι) :
    (items.mapM task).Heeds store tells := by
  induction items with
  | nil => exact heeds_pure []
  | cons item items ih =>
      rw [List.mapM_cons]
      exact (heeds item).bind fun value => ih.bind fun values => heeds_pure _

end Work

/-- A batch heeds what its tasks heed: the task that meets a fatal failure ends it. -/
theorem Engine.map_heeds {ι : Type} {tells : Call → StoreError → ε → Prop}
    {task : ι → Work (World Unit) ε α} (heeds : ∀ item, (task item).Heeds store tells) (crash : ε)
    (order : Engine.Order) (parallelism : Nat) (items : List ι) :
    (Engine.map crash task order parallelism items).Heeds store tells := by
  intro world
  obtain ⟨turn, _, same⟩ := Engine.map_in_turn crash task order parallelism items world
  rw [same]
  exact Work.heeds_mapM (fun item => (heeds item).catching crash) turn world

namespace Store

/-- Storage tells of a fatal failure in the words for that call. -/
def Tells (call : Call) (failure : StoreError) (error : StorageError) : Prop :=
  error = call.blame failure

variable (store : Store Unit)

/-- A call whose fatal failure is handed on at once, in other words. -/
theorem mapError_call_heeds {made : Call} {answer : Work Unit StoreError α}
    {tells : Call → StoreError → ε → Prop} {describe : StoreError → ε}
    (told : ∀ failure, store.fatal? made = some failure →
      (answer ()).1 = .failed failure ∧ tells made failure (describe failure)) :
    ((World.call made answer).mapError describe).Heeds store tells := by
  intro world
  refine ⟨[made], rfl, ?_⟩
  cases fatal : store.fatal? made with
  | none =>
      refine .unharmed fun call member => ?_
      rwa [List.mem_singleton.mp member]
  | some failure =>
      obtain ⟨failed, told⟩ := told failure fatal
      change Heeded store tells [made] ((answer ()).1.mapError describe)
      rw [failed]
      exact .struck_at_once fatal told

/-- A call whose failure is looked at: a fatal one has to end the work. -/
theorem attempt_call_heeds {made : Call} {answer : Work Unit StoreError α}
    {next : Except StoreError α → Work (World Unit) ε β} {tells : Call → StoreError → ε → Prop}
    (told : ∀ failure, store.fatal? made = some failure → (answer ()).1 = .failed failure
      ∧ ∃ error, next (.error failure) = Work.fail error ∧ tells made failure error)
    (passes : ∀ result, (next result).Heeds store tells) :
    ((World.call made answer).attempt >>= next).Heeds store tells := by
  cases fatal : store.fatal? made with
  | none =>
      refine Work.Heeds.bind (fun world => ⟨[made], ?_, ?_⟩) passes
      · rw [Work.attempt_state]
        rfl
      · refine .unharmed fun call member => ?_
        rwa [List.mem_singleton.mp member]
  | some failure =>
      obtain ⟨failed, error, ends, told⟩ := told failure fatal
      intro world
      have reached : ((World.call made answer) world).1 = .failed failure := failed
      rw [Work.bind_apply_of_done (Work.attempt_of_failed reached), ends]
      exact ⟨[made], rfl, .struck_at_once fatal told⟩

theorem directoriesIn_heeds (directory : Path) (excluded : String → Bool) :
    (store.directoriesIn directory excluded).Heeds store Tells := by
  refine Work.Heeds.bind ?_ fun listing => Work.heeds_pure _
  refine store.mapError_call_heeds fun failure fatal => ?_
  exact ⟨fatal?_children_eq_some_iff.mp fatal, rfl⟩

theorem levelOrNone_heeds (directory : Path) {purpose : Purpose} (other : purpose ≠ .children) :
    (store.levelOrNone directory purpose).Heeds store Tells := by
  refine store.attempt_call_heeds ?_ ?_
  · intro failure fatal
    obtain ⟨failed, present⟩ := (fatal?_list_eq_some_iff other).mp fatal
    refine ⟨failed, .listing directory failure, ?_, rfl⟩
    dsimp only
    rw [present]
    rfl
  · intro result
    cases result with
    | ok listing => exact Work.heeds_pure listing
    | error failure =>
        dsimp only
        split
        · exact Work.heeds_pure _
        · exact Work.heeds_fail _

/-- The names are tried one after another; the induction is on those that are left. -/
theorem holdsOneOf_heeds (directory : Path) (names : List String) :
    (store.holdsOneOf directory names).Heeds store Tells := by
  induction names with
  | nil => exact Work.heeds_pure false
  | cons name others ih =>
      refine store.attempt_call_heeds ?_ ?_
      · intro failure fatal
        obtain ⟨failed, present⟩ := fatal?_head_eq_some_iff.mp fatal
        refine ⟨failed, .markerCheck directory failure, ?_, ?_⟩
        · dsimp only
          rw [present]
          rfl
        · rw [Tells, Call.blame, Path.parent_child]
      · intro result
        cases result with
        | ok found => exact Work.heeds_pure true
        | error failure =>
            dsimp only
            split
            · exact ih
            · exact Work.heeds_fail _

theorem dataFilesIn_heeds (directory : Path) : (store.dataFilesIn directory).Heeds store Tells :=
  (store.levelOrNone_heeds directory (by decide)).bind fun _ => Work.heeds_pure _

theorem directoryExists_heeds (directory : Path) :
    (store.directoryExists directory).Heeds store Tells := by
  unfold directoryExists
  split
  · exact Work.heeds_pure true
  · refine (store.levelOrNone_heeds directory (by decide)).bind fun inside => ?_
    split
    · exact Work.heeds_pure true
    · exact (store.levelOrNone_heeds directory.parent (by decide)).bind
        fun above => Work.heeds_pure _

end Store

namespace Table

/-- A table tells of a fatal failure as storage does, under a name for the directory it comes from. -/
def Tells (call : Call) (failure : StoreError) (error : TableError) : Prop :=
  ∃ spelling, error = .listing spelling (call.blame failure)

theorem tells_listing {call : Call} {failure : StoreError} {error : StorageError}
    (spelling : String) (told : Store.Tells call failure error) :
    Tells call failure (.listing spelling error) :=
  ⟨spelling, by rw [told]⟩

variable (table : Table Unit)

theorem checkSeed_heeds (seed : Visit) : (table.checkSeed seed).Heeds table.store Tells := by
  unfold checkSeed
  split
  · exact Work.heeds_pure ()
  · refine Work.Heeds.bind ((table.store.directoryExists_heeds seed.directory).mapError
      fun _ _ _ => tells_listing seed.spelling) fun present => ?_
    split
    · exact Work.heeds_pure ()
    · exact Work.heeds_fail _

theorem partitionName_heeds (directory : Path) :
    (table.partitionName directory).Heeds table.store Tells := by
  unfold partitionName
  split
  · exact Work.heeds_pure _
  · exact Work.heeds_fail _

theorem classify_heeds (visit : Visit) : (table.classify visit).Heeds table.store Tells := by
  refine Work.Heeds.bind ((table.store.holdsOneOf_heeds visit.directory _).mapError
    fun _ _ _ => tells_listing visit.spelling) fun marked => ?_
  split
  · exact (table.partitionName_heeds visit.directory).bind fun name => Work.heeds_pure _
  · exact Work.Heeds.bind ((table.store.directoriesIn_heeds visit.directory _).mapError
      fun _ _ _ => tells_listing visit.spelling) fun children => Work.heeds_pure _

theorem childrenByName_heeds (directory : Path) :
    (table.childrenByName directory).Heeds table.store Tells :=
  (table.store.directoriesIn_heeds directory _).mapError fun _ _ _ => tells_listing _

theorem files_heeds (spelling : String) : (table.files spelling).Heeds table.store Tells :=
  (table.store.dataFilesIn_heeds _).mapError fun _ _ _ => tells_listing spelling

theorem batch_heeds {ι ο : Type} {task : ι → Job Unit ο}
    (heeds : ∀ item, (task item).Heeds table.store Tells) (number : Nat) (items : List ι) :
    (table.batch number task items).Heeds table.store Tells :=
  Engine.map_heeds heeds _ _ _ items

theorem batchFlat_heeds {ι ο : Type} {task : ι → Job Unit (List ο)}
    (heeds : ∀ item, (task item).Heeds table.store Tells) (number : Nat) (items : List ι) :
    (table.batchFlat number task items).Heeds table.store Tells :=
  (table.batch_heeds heeds number items).bind fun lists => Work.heeds_pure lists.flatten

theorem announce_heeds (description : String) :
    (announce description : Job Unit Unit).Heeds table.store Tells :=
  Work.heeds_of_no_call fun _ => rfl

/-- Every round heeds fatal failures; the induction is on the rounds that are left. -/
theorem walk_heeds (status : String) (limit number : Nat) (frontier : List Visit) :
    (table.walk status limit number frontier).Heeds table.store Tells := by
  induction limit, number, frontier using walk.induct with
  | case1 limit number =>
      rw [walk]
      exact Work.heeds_pure []
  | case2 number visit others =>
      rw [walk]
      exact Work.heeds_fail _
  | case3 limit number visit others ih =>
      rw [walk]
      refine (table.announce_heeds status).bind fun _ => ?_
      refine (table.batchFlat_heeds table.classify_heeds number _).bind fun findings => ?_
      exact (ih findings).bind fun later => Work.heeds_pure _

theorem partitionsBelow_heeds (spellings : List String) :
    (table.partitionsBelow spellings).Heeds table.store Tells := by
  have searches : (table.search spellings).Heeds table.store Tells := by
    unfold search
    split
    · exact Work.heeds_pure []
    · exact (table.batch_heeds table.checkSeed_heeds 0 _).bind
        fun _ => table.walk_heeds _ _ _ _
  exact searches.bind fun rounds => Work.heeds_pure _

theorem descendants_heeds (levels number : Nat) (frontier : List Path) :
    (table.descendants levels number frontier).Heeds table.store Tells := by
  induction levels, number, frontier using descendants.induct with
  | case1 number frontier => exact Work.heeds_pure frontier
  | case2 number levels => exact Work.heeds_pure []
  | case3 levels number directory others ih =>
      rw [descendants]
      exact (table.batchFlat_heeds table.childrenByName_heeds number _).bind ih

theorem datePartitions_heeds : table.datePartitions.Heeds table.store Tells := by
  refine (table.announce_heeds _).bind fun _ => ?_
  refine (table.descendants_heeds _ _ _).bind fun directories => ?_
  exact (Work.heeds_mapM table.partitionName_heeds directories).bind fun names => Work.heeds_pure _

theorem filesOfEach_heeds (spellings : List String) :
    (table.filesOfEach spellings).Heeds table.store Tells := by
  unfold filesOfEach
  dsimp only
  split
  · exact Work.heeds_pure []
  · refine (table.announce_heeds _).bind fun _ => ?_
    refine table.batch_heeds (fun spelling => ?_) 0 _
    exact (table.files_heeds spelling).bind fun entries => Work.heeds_pure _

/-- The job hides no failure. If a call that it makes fails fatally, the job fails, and not for want
of rounds. If tasks run one at a time, moreover, that call is the last one, no call before it failed
fatally, and the error tells of it. -/
def HidesNoFailure (job : Job Unit α) : Prop :=
  ∀ world, ∃ made, (job world).2.calls = world.calls ++ made
    ∧ (∀ call ∈ made, ∀ failure, table.store.fatal? call = some failure →
      ∃ error, (job world).1 = .failed error ∧ error ≠ .unfinished)
    ∧ (table.options.parallelism ≤ 1 → ∀ call ∈ made, ∀ failure,
      table.store.fatal? call = some failure →
        (∃ front, made = front ++ [call] ∧ ∀ other ∈ front, table.store.fatal? other = none)
        ∧ ∃ spelling, (job world).1 = .failed (.listing spelling (call.blame failure)))

theorem hidesNoFailure_of_heeds {job : Job Unit α} (heeds : job.Heeds table.store Tells) :
    table.HidesNoFailure job := by
  intro world
  obtain ⟨made, calls, heeded⟩ := heeds world
  refine ⟨made, calls, ?_⟩
  generalize (job world).1 = outcome at heeded
  cases heeded with
  | unharmed clear =>
      have harmless : ∀ call ∈ made, ∀ failure, table.store.fatal? call ≠ some failure := by
        intro call member failure fatal
        rw [clear call member] at fatal
        cases fatal
      exact ⟨fun call member failure fatal => absurd fatal (harmless call member failure),
        fun _ call member failure fatal => absurd fatal (harmless call member failure)⟩
  | @struck front last reason error clear fatal told =>
      obtain ⟨spelling, rfl⟩ := told
      -- Only the last call failed fatally.
      have only : ∀ call ∈ front ++ [last], ∀ failure, table.store.fatal? call = some failure →
          call = last ∧ failure = reason := by
        intro call member failure fatal'
        rcases List.mem_append.mp member with earlier | here
        · rw [clear call earlier] at fatal'
          cases fatal'
        · obtain rfl := List.mem_singleton.mp here
          exact ⟨rfl, Option.some.inj (fatal'.symm.trans fatal)⟩
      constructor
      · intro call member failure fatal'
        exact ⟨_, rfl, ofTask_listing _ _⟩
      · intro _ call member failure fatal'
        obtain ⟨rfl, rfl⟩ := only call member failure fatal'
        exact ⟨⟨front, rfl, clear⟩, spelling, rfl⟩

/-- Failures never become empty results. On a store that remembers nothing, whatever its answers and
under every schedule, a search for partitions, by markers or by date, and a listing of files, of one
partition or of several, fail if a call of theirs fails fatally. A task that is cut short belongs to
a batch that fails, so it hides nothing either. -/
theorem no_failure_is_hidden (table : Table Unit) :
    (∀ spellings, table.HidesNoFailure (table.partitionsBelow spellings))
      ∧ table.HidesNoFailure table.datePartitions
      ∧ (∀ spelling, table.HidesNoFailure (table.files spelling))
      ∧ ∀ spellings, table.HidesNoFailure (table.filesOfEach spellings) :=
  ⟨fun spellings => table.hidesNoFailure_of_heeds (table.partitionsBelow_heeds spellings),
    table.hidesNoFailure_of_heeds table.datePartitions_heeds,
    fun spelling => table.hidesNoFailure_of_heeds (table.files_heeds spelling),
    fun spellings => table.hidesNoFailure_of_heeds (table.filesOfEach_heeds spellings)⟩

/-- The root can be listed and shows one directory, which must not be read. -/
theorem no_failure_is_hidden_below_readable_root :
    let closed : Path := ⟨["closed"]⟩
    let denied : StoreError := .permissionDenied "closed" "no access"
    let store : Store Unit := Store.stateless (fun path => .failed (.notFound path.text ""))
      (fun path => if path = closed then .failed denied
        else .done { directories := [closed], files := [] })
    let table : Table Unit := { store, options := { parallelism := 1 }, rounds := 3 }
    store.fatal? (.list closed .children) = some denied
      ∧ .list closed .children ∈ (table.partitionsBelow [""] { memory := () }).2.calls
      ∧ ∃ spelling, (table.partitionsBelow [""] { memory := () }).1
        = .failed (.listing spelling (.listing closed denied)) := by
  intro closed denied store table
  have fatal : store.fatal? (.list closed .children) = some denied := by decide
  have asked : .list closed .children ∈ (table.partitionsBelow [""] { memory := () }).2.calls := by
    decide +kernel
  obtain ⟨made, calls, _, alone⟩ := (no_failure_is_hidden table).1 [""] { memory := () }
  have member : .list closed .children ∈ made := by
    rwa [calls, List.nil_append] at asked
  exact ⟨fatal, asked, (alone (Nat.le_refl 1) _ member denied fatal).2⟩

end Table

end PartitionedTable
