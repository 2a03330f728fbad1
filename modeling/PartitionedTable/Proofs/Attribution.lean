import PartitionedTable.Proofs.Bookkeeping
import PartitionedTable.Proofs.Fatal

/-!
Which directory a failure is told under. An error of a search is either one of its own or tells of a
call that the store refused, and then the caller's spelling in it is the one whose walk made the call.
The directories and spellings of a walk stay together because every visit hands its own spelling on
(`Table.Reached`); so what is refused lies where that spelling leads, with one exception: whether a
walk can begin at all is also asked of the directory above.
-/

namespace PartitionedTable

/-- The directory that a call is about. Markers are looked for directly in it. -/
def Call.directory : Call → Path
  | .head path => path.parent
  | .list path _ => path

/-- The directory that a failure names. -/
def StorageError.directory? : StorageError → Option Path
  | .listing directory _ | .markerCheck directory _ | .notFound directory => some directory
  | .initialization _ => none

theorem Call.directory?_blame (call : Call) (failure : StoreError) :
    (call.blame failure).directory? = some call.directory := by
  cases call <;> rfl

namespace Store

variable {μ : Type}

/-- The store may refuse the call with this failure. -/
def Rejects (store : Store μ) : Call → StoreError → Prop
  | .head path, failure => ∃ memory, (store.head path memory).1 = .failed failure
  | .list path _, failure => ∃ memory, (store.list path memory).1 = .failed failure

end Store

variable {μ ε δ α β : Type} {store : Store μ}

namespace Work

variable {own : ε → Prop} {tells : Call → StoreError → ε → Prop}

/-- Every error of the work is one of its `own` or tells of a call made by it, which the store
refused. -/
def Attributes (store : Store μ) (own : ε → Prop) (tells : Call → StoreError → ε → Prop)
    (work : Work (World μ) ε α) : Prop :=
  ∀ world, ∃ made, (work world).2.calls = world.calls ++ made
    ∧ ∀ error, (work world).1 = .failed error →
      own error ∨ ∃ call ∈ made, ∃ failure, store.Rejects call failure ∧ tells call failure error

/-- Work that makes no call answers for its errors itself. -/
theorem attributes_of_no_call {work : Work (World μ) ε α}
    (silent : ∀ world, (work world).2.calls = world.calls) (fails : work.FailsOnly own) :
    work.Attributes store own tells :=
  fun world => ⟨[], by rw [silent, List.append_nil], fun error failed =>
    .inl (fails world error failed)⟩

theorem attributes_pure (value : α) :
    (pure value : Work (World μ) ε α).Attributes store own tells :=
  attributes_of_no_call (fun _ => rfl) (failsOnly_pure own value)

theorem attributes_fail {error : ε} (known : own error) :
    (fail error : Work (World μ) ε α).Attributes store own tells :=
  attributes_of_no_call (fun _ => rfl) (failsOnly_fail known)

theorem Attributes.mono {own' : ε → Prop} {tells' : Call → StoreError → ε → Prop}
    {work : Work (World μ) ε α} (attributes : work.Attributes store own tells)
    (keeps : ∀ error, own error → own' error)
    (holds : ∀ call failure error, tells call failure error → tells' call failure error) :
    work.Attributes store own' tells' := by
  intro world
  obtain ⟨made, calls, blamed⟩ := attributes world
  refine ⟨made, calls, fun error failed => (blamed error failed).imp (keeps error) ?_⟩
  rintro ⟨call, member, failure, rejected, told⟩
  exact ⟨call, member, failure, rejected, holds call failure error told⟩

/-- What follows has to be judged only for the values that the work gives. -/
theorem Attributes.bind {holds : α → Prop} {first : Work (World μ) ε α}
    {next : α → Work (World μ) ε β} (begins : first.Attributes store own tells)
    (gives : first.Gives holds) (later : ∀ value, holds value → (next value).Attributes store own tells) :
    (first >>= next).Attributes store own tells := by
  intro world
  obtain ⟨made, calls, blamed⟩ := begins world
  have given := gives world
  rw [bind_apply]
  generalize first world = reached at calls blamed given
  obtain ⟨outcome, between⟩ := reached
  cases outcome with
  | done value =>
      obtain ⟨more, calls', blamed'⟩ := later value (given value rfl) between
      refine ⟨made ++ more, by rw [calls', calls, List.append_assoc], fun error failed => ?_⟩
      refine (blamed' error failed).imp_right ?_
      rintro ⟨call, member, told⟩
      exact ⟨call, List.mem_append_right made member, told⟩
  | failed error =>
      refine ⟨made, calls, fun error' failed => ?_⟩
      cases failed
      exact blamed error rfl
  | crashed => exact ⟨made, calls, fun error failed => by cases failed⟩

theorem Attributes.mapError {own' : δ → Prop} {tells' : Call → StoreError → δ → Prop}
    {work : Work (World μ) ε α} (attributes : work.Attributes store own tells) {describe : ε → δ}
    (keeps : ∀ error, own error → own' (describe error))
    (holds : ∀ call failure error, tells call failure error → tells' call failure (describe error)) :
    (work.mapError describe).Attributes store own' tells' := by
  intro world
  obtain ⟨made, calls, blamed⟩ := attributes world
  refine ⟨made, calls, fun error failed => ?_⟩
  change (work world).1.mapError describe = _ at failed
  generalize (work world).1 = outcome at failed blamed
  cases outcome with
  | done value => cases failed
  | failed earlier =>
      cases failed
      refine (blamed earlier rfl).imp (keeps earlier) ?_
      rintro ⟨call, member, failure, rejected, told⟩
      exact ⟨call, member, failure, rejected, holds call failure earlier told⟩
  | crashed => cases failed

theorem Attributes.catching {work : Work (World μ) ε α} (attributes : work.Attributes store own tells)
    {crash : ε} (known : own crash) : (work.catching crash).Attributes store own tells := by
  intro world
  obtain ⟨made, calls, blamed⟩ := attributes world
  unfold Work.catching
  generalize work world = reached at calls blamed
  obtain ⟨outcome, after⟩ := reached
  cases outcome with
  | done value => exact ⟨made, calls, blamed⟩
  | failed error => exact ⟨made, calls, blamed⟩
  | crashed =>
      refine ⟨made, calls, fun error failed => .inl ?_⟩
      cases failed
      exact known

theorem attributes_mapM {ι : Type} {task : ι → Work (World μ) ε α} {items : List ι}
    (attributes : ∀ item ∈ items, (task item).Attributes store own tells) :
    (items.mapM task).Attributes store own tells := by
  induction items with
  | nil => exact attributes_pure []
  | cons item items ih =>
      rw [List.mapM_cons]
      refine (attributes item List.mem_cons_self).bind (gives_any _) fun value _ => ?_
      refine (ih fun other member => attributes other (List.mem_cons_of_mem _ member)).bind
        (gives_any _) fun values _ => attributes_pure _

/-- A call whose failure is told at once. -/
theorem mapError_call_attributes {call : Call} {answer : Work μ StoreError α}
    {describe : StoreError → ε}
    (rejects : ∀ memory failure, (answer memory).1 = .failed failure → store.Rejects call failure)
    (told : ∀ failure, tells call failure (describe failure)) :
    ((World.call call answer).mapError describe).Attributes store own tells := by
  intro world
  refine ⟨[call], rfl, fun error failed => .inr ?_⟩
  change (answer world.memory).1.mapError describe = _ at failed
  cases ended : (answer world.memory).1 with
  | done value =>
      rw [ended] at failed
      cases failed
  | failed failure =>
      rw [ended] at failed
      cases failed
      exact ⟨call, List.mem_singleton_self call, failure, rejects _ _ ended, told failure⟩
  | crashed =>
      rw [ended] at failed
      cases failed

/-- A call whose failure is looked at: the work goes on after it, or fails telling of it. -/
theorem attempt_call_attributes {call : Call} {answer : Work μ StoreError α}
    {next : Except StoreError α → Work (World μ) ε β}
    (rejects : ∀ memory failure, (answer memory).1 = .failed failure → store.Rejects call failure)
    (fine : ∀ value, (next (.ok value)).Attributes store own tells)
    (refused : ∀ failure, (next (.error failure)).Attributes store
      (fun error => own error ∨ tells call failure error) tells) :
    ((World.call call answer).attempt >>= next).Attributes store own tells := by
  intro world
  have asked : (World.call call answer world).2.calls = world.calls ++ [call] := rfl
  have answered : (World.call call answer world).1 = (answer world.memory).1 := rfl
  have rejected := rejects world.memory
  rw [← answered] at rejected
  rw [bind_apply, Work.attempt]
  generalize World.call call answer world = reached at asked rejected
  obtain ⟨outcome, between⟩ := reached
  -- What follows the call makes its own calls after it.
  have joined : ∀ made (after : World μ), after.calls = between.calls ++ made →
      after.calls = world.calls ++ (call :: made) := by
    intro made after calls
    rw [calls, show between.calls = _ from asked, List.append_assoc, List.singleton_append]
  cases outcome with
  | done value =>
      obtain ⟨made, calls, blamed⟩ := fine value between
      refine ⟨call :: made, joined made _ calls, fun error failed => ?_⟩
      refine (blamed error failed).imp_right ?_
      rintro ⟨other, member, told⟩
      exact ⟨other, List.mem_cons_of_mem call member, told⟩
  | failed failure =>
      obtain ⟨made, calls, blamed⟩ := refused failure between
      refine ⟨call :: made, joined made _ calls, fun error failed => ?_⟩
      rcases blamed error failed with (known | told) | ⟨other, member, told⟩
      · exact .inl known
      · exact .inr ⟨call, List.mem_cons_self, failure, rejected failure rfl, told⟩
      · exact .inr ⟨other, List.mem_cons_of_mem call member, told⟩
  | crashed => exact ⟨[call], asked, fun error failed => by cases failed⟩

end Work

/-- A batch answers for its errors as its tasks do. -/
theorem Engine.map_attributes {ι : Type} {own : ε → Prop} {tells : Call → StoreError → ε → Prop}
    {task : ι → Work (World μ) ε α} {items : List ι}
    (attributes : ∀ item ∈ items, (task item).Attributes store own tells) {crash : ε}
    (known : own crash) (order : Engine.Order) (parallelism : Nat) :
    (Engine.map crash task order parallelism items).Attributes store own tells := by
  intro world
  obtain ⟨turn, chosen, same⟩ := Engine.map_in_turn crash task order parallelism items world
  rw [same]
  exact Work.attributes_mapM
    (fun item member => (attributes item (chosen.subset member)).catching known) world

namespace Store

/-- Storage tells of a refused call in the words for that call; only calls that were `asked` are told
of. -/
def TellsOf (asked : Call → Prop) (call : Call) (failure : StoreError) (error : StorageError) : Prop :=
  asked call ∧ error = call.blame failure

/-- Storage blames only calls that were `asked`. -/
def Asks (store : Store μ) (asked : Call → Prop) (question : Work (World μ) StorageError α) : Prop :=
  question.Attributes store (fun _ => False) (TellsOf asked)

variable (store : Store μ) (directory : Path)

theorem Asks.mono {store : Store μ} {asked asked' : Call → Prop}
    {question : Work (World μ) StorageError α} (asks : store.Asks asked question)
    (more : ∀ call, asked call → asked' call) : store.Asks asked' question :=
  Work.Attributes.mono asks (fun _ none => none) fun call _ _ told => ⟨more call told.1, told.2⟩

theorem levelOrNone_asks (purpose : Purpose) :
    store.Asks (· = .list directory purpose) (store.levelOrNone directory purpose) := by
  refine Work.attempt_call_attributes (fun memory failure failed => ⟨memory, failed⟩)
    (fun listing => Work.attributes_pure listing) fun failure => ?_
  dsimp only
  split
  · exact Work.attributes_pure _
  · exact Work.attributes_fail (.inr ⟨rfl, rfl⟩)

theorem directoriesIn_asks (excluded : String → Bool) :
    store.Asks (· = .list directory .children) (store.directoriesIn directory excluded) := by
  refine Work.Attributes.bind ?_ (Work.gives_any _) fun listing _ => Work.attributes_pure _
  exact Work.mapError_call_attributes (fun memory failure failed => ⟨memory, failed⟩)
    fun failure => ⟨rfl, rfl⟩

/-- The markers are looked for one after another; the induction is on those that are left. -/
theorem holdsOneOf_asks (names : List String) :
    store.Asks (fun call => ∃ name, call = .head (directory.child name))
      (store.holdsOneOf directory names) := by
  induction names with
  | nil => exact Work.attributes_pure false
  | cons name others ih =>
      refine Work.attempt_call_attributes (fun memory failure failed => ⟨memory, failed⟩)
        (fun _ => Work.attributes_pure true) fun failure => ?_
      dsimp only
      split
      · exact Work.Attributes.mono ih (fun _ none => none.elim) fun _ _ _ told => told
      · refine Work.attributes_fail (.inr ⟨⟨name, rfl⟩, ?_⟩)
        rw [Call.blame, Path.parent_child]

theorem directoryExists_asks :
    store.Asks (fun call => call = .list directory .existence ∨ call = .list directory.parent .existence)
      (store.directoryExists directory) := by
  unfold directoryExists
  split
  · exact Work.attributes_pure true
  · refine Work.Attributes.bind ((store.levelOrNone_asks directory .existence).mono
      fun call => .inl) (Work.gives_any _) fun inside _ => ?_
    split
    · exact Work.attributes_pure true
    · exact Work.Attributes.bind ((store.levelOrNone_asks directory.parent .existence).mono
        fun call => .inr) (Work.gives_any _) fun above _ => Work.attributes_pure _

end Store

namespace Table

variable {table : Table μ}

/-- Errors that storage has no part in. -/
def NoListing (error : TableError) : Prop := ∀ spelling source, error ≠ .listing spelling source

section Search

variable (root : Path) (spellings : List String)

/-- Errors that a search below `spellings` answers for itself: a spelling names no directory, or
storage has no part in it. -/
def OfSearch (error : TableError) : Prop :=
  NoListing error ∨ ∃ spelling ∈ spellings,
    error = .listing spelling (.notFound (Path.resolve root spelling))

/-- A search tells of a refused call under a spelling that leads to the directory of the call. Only
for a look at what lies above, made before the walk begins, the spelling leads past it. -/
def SearchTells (call : Call) (failure : StoreError) (error : TableError) : Prop :=
  ∃ spelling ∈ spellings, error = .listing spelling (call.blame failure)
    ∧ ((Path.resolve root spelling).LeadsTo call.directory
      ∨ call = .list (Path.resolve root spelling).parent .existence)

end Search

section Pieces

variable {ι ο : Type} {own : TableError → Prop} {tells : Call → StoreError → TableError → Prop}

theorem announce_attributes (description : String) :
    (announce description : Job μ Unit).Attributes table.store own tells :=
  Work.attributes_of_no_call (fun _ => rfl) fun _ _ failed => by cases failed

theorem partitionName_attributes (known : ∀ error, NoListing error → own error) (directory : Path) :
    (table.partitionName directory).Attributes table.store own tells := by
  unfold partitionName
  split
  · exact Work.attributes_pure _
  · exact Work.attributes_fail (known _ fun _ _ same => by cases same)

theorem batch_attributes (known : ∀ error, NoListing error → own error) {task : ι → Job μ ο}
    {items : List ι} (attributes : ∀ item ∈ items, (task item).Attributes table.store own tells)
    (number : Nat) : (table.batch number task items).Attributes table.store own tells :=
  Engine.map_attributes attributes (known _ fun _ _ same => by cases same) _ _

theorem batchFlat_attributes (known : ∀ error, NoListing error → own error)
    {task : ι → Job μ (List ο)} {items : List ι}
    (attributes : ∀ item ∈ items, (task item).Attributes table.store own tells) (number : Nat) :
    (table.batchFlat number task items).Attributes table.store own tells :=
  (batch_attributes known attributes number).bind (Work.gives_any _) fun lists _ =>
    Work.attributes_pure lists.flatten

end Pieces

theorem checkSeed_attributes {spellings : List String} {spelling : String}
    (asked : spelling ∈ spellings) :
    (table.checkSeed ⟨Path.resolve table.root spelling, spelling⟩).Attributes table.store
      (OfSearch table.root spellings) (SearchTells table.root spellings) := by
  unfold checkSeed
  split
  · exact Work.attributes_pure ()
  · refine Work.Attributes.bind ?_ (Work.gives_any _) fun present _ => ?_
    · refine Work.Attributes.mapError (table.store.directoryExists_asks _) (fun _ none => none.elim) ?_
      rintro call failure _ ⟨here | above, rfl⟩
      · refine ⟨spelling, asked, rfl, .inl ?_⟩
        rw [here]
        exact Path.leadsTo_refl _
      · exact ⟨spelling, asked, rfl, .inr above⟩
    · split
      · exact Work.attributes_pure ()
      · exact Work.attributes_fail (.inr ⟨spelling, asked, rfl⟩)

theorem classify_attributes {spellings : List String} {visit : Visit}
    (reached : Reached table.root spellings visit) :
    (table.classify visit).Attributes table.store (OfSearch table.root spellings)
      (SearchTells table.root spellings) := by
  have tells : ∀ call failure, call.directory = visit.directory →
      SearchTells table.root spellings call failure (.listing visit.spelling (call.blame failure)) := by
    intro call failure here
    exact ⟨visit.spelling, reached.1, rfl, .inl (here ▸ reached.2)⟩
  unfold classify
  refine Work.Attributes.bind ?_ (Work.gives_any _) fun marked _ => ?_
  · refine Work.Attributes.mapError (table.store.holdsOneOf_asks visit.directory _)
      (fun _ none => none.elim) ?_
    rintro call failure _ ⟨⟨name, rfl⟩, rfl⟩
    exact tells _ failure (Path.parent_child visit.directory name)
  · split
    · exact (partitionName_attributes (fun _ => .inl) visit.directory).bind (Work.gives_any _)
        fun name _ => Work.attributes_pure _
    · refine Work.Attributes.bind ?_ (Work.gives_any _) fun children _ => Work.attributes_pure _
      refine Work.Attributes.mapError (table.store.directoriesIn_asks visit.directory _)
        (fun _ none => none.elim) ?_
      rintro call failure _ ⟨rfl, rfl⟩
      exact tells _ failure rfl

/-- Every round attributes its failures; the induction is on the rounds that are left, and all visits
of a frontier were reached from their spellings. -/
theorem walk_attributes (truthful : table.store.Truthful) {spellings : List String} (status : String)
    (limit number : Nat) {frontier : List Visit}
    (reached : ∀ visit ∈ frontier, Reached table.root spellings visit) :
    (table.walk status limit number frontier).Attributes table.store
      (OfSearch table.root spellings) (SearchTells table.root spellings) := by
  induction limit, number, frontier using walk.induct with
  | case1 limit number =>
      rw [walk]
      exact Work.attributes_pure []
  | case2 number visit others =>
      rw [walk]
      exact Work.attributes_fail (.inl fun _ _ same => by cases same)
  | case3 limit number visit others ih =>
      rw [walk]
      generalize visit :: others = frontier at reached ih ⊢
      refine (announce_attributes status).bind (Work.gives_any _) fun _ _ => ?_
      refine (batchFlat_attributes (fun _ => .inl)
        (fun visit member => classify_attributes (reached visit member)) number).bind
        (Engine.flatMap_gives (fun visit _ => classify_gives truthful visit) _ _ _)
        fun findings found => ?_
      refine (ih findings fun next member => ?_).bind (Work.gives_any _)
        fun later _ => Work.attributes_pure _
      obtain ⟨visit, listed, follows⟩ := found _ (Round.mem_next_iff.mp member)
      exact reached_of_follows (reached visit listed) follows

theorem partitionsBelow_attributes (truthful : table.store.Truthful) (spellings : List String) :
    (table.partitionsBelow spellings).Attributes table.store (OfSearch table.root spellings)
      (SearchTells table.root spellings) := by
  unfold partitionsBelow search
  refine Work.Attributes.bind ?_ (Work.gives_any _) fun rounds _ => Work.attributes_pure _
  split
  · exact Work.attributes_pure []
  · refine (batch_attributes (fun _ => .inl) (fun seed member => ?_) 0).bind
      (Work.gives_any _) fun _ _ => walk_attributes truthful _ _ _ fun visit member => ?_
    · obtain ⟨spelling, asked, rfl⟩ := List.mem_map.mp member
      exact checkSeed_attributes asked
    · obtain ⟨spelling, asked, rfl⟩ := List.mem_map.mp member
      exact ⟨asked, Path.leadsTo_refl _⟩

section Dated

/-- A search by date tells of a refused listing under the directory's own name below the root. -/
def DateTells (root : Path) (call : Call) (failure : StoreError) (error : TableError) : Prop :=
  ∃ names, names.length < dateDepth ∧ (∀ name ∈ names, Path.Ordinary name)
    ∧ call = .list (root.under names) .children
    ∧ error = .listing ("/".intercalate names) (call.blame failure)

/-- `names` leads from the root to a directory that has `levels` more levels to go. -/
def AtLevel (root : Path) (levels : Nat) (directory : Path) : Prop :=
  ∃ names, names.length + levels = dateDepth ∧ (∀ name ∈ names, Path.Ordinary name)
    ∧ directory = root.under names

theorem childrenByName_attributes {levels : Nat} {directory : Path}
    (placed : AtLevel table.root (levels + 1) directory) :
    (table.childrenByName directory).Attributes table.store NoListing (DateTells table.root) := by
  obtain ⟨names, count, ordinary, rfl⟩ := placed
  refine Work.Attributes.mapError (table.store.directoriesIn_asks _ _) (fun _ none => none.elim) ?_
  rintro call failure _ ⟨rfl, rfl⟩
  refine ⟨names, by omega, ordinary, rfl, ?_⟩
  rw [Path.relativeName?_under, Option.getD_some]

/-- Going down attributes its failures; the induction is on the levels that are left. -/
theorem descendants_attributes (truthful : table.store.Truthful) (levels number : Nat)
    {frontier : List Path} (placed : ∀ directory ∈ frontier, AtLevel table.root levels directory) :
    (table.descendants levels number frontier).Attributes table.store NoListing
      (DateTells table.root) := by
  induction levels, number, frontier using descendants.induct with
  | case1 number frontier => exact Work.attributes_pure frontier
  | case2 number levels => exact Work.attributes_pure []
  | case3 levels number directory others ih =>
      rw [descendants]
      generalize directory :: others = frontier at placed ⊢
      refine (batchFlat_attributes (fun _ none => none)
        (fun directory member => childrenByName_attributes (placed directory member)) number).bind
        (Engine.flatMap_gives (fun directory _ => childrenByName_gives truthful directory) _ _ _)
        fun children known => ih children fun child member => ?_
      obtain ⟨directory, listed, name, ordinary, rfl⟩ := known child member
      obtain ⟨names, count, all, rfl⟩ := placed directory listed
      refine ⟨names ++ [name], ?_, ?_, ?_⟩
      · rw [List.length_append, List.length_singleton]
        omega
      · intro other inside
        rcases List.mem_append.mp inside with above | here
        · exact all other above
        · rwa [List.mem_singleton.mp here]
      · rw [Path.child_eq_under, Path.under_under]

theorem datePartitions_attributes (truthful : table.store.Truthful) :
    table.datePartitions.Attributes table.store NoListing (DateTells table.root) := by
  unfold datePartitions
  refine (announce_attributes _).bind (Work.gives_any _) fun _ _ => ?_
  refine Work.Attributes.bind (descendants_attributes truthful dateDepth 0 fun directory member => ?_)
    (Work.gives_any _) fun directories _ => ?_
  · rw [List.mem_singleton.mp member]
    exact ⟨[], Nat.zero_add _, fun _ inside => absurd inside List.not_mem_nil, (Path.under_nil _).symm⟩
  · exact (Work.attributes_mapM fun directory _ =>
      partitionName_attributes (fun _ none => none) directory).bind (Work.gives_any _)
      fun names _ => Work.attributes_pure _

end Dated

/-- Failures are told under the directory that they happened in. On every store that lists truthfully,
whatever calls it refuses, whatever it remembers and under every schedule: if a search below some
spellings fails to list, it tells one of these spellings, and either the spelling names no directory or
a call that was made was refused just so. What the failure names is where the spelling leads, a
directory below it, or the directory above it, the last only if the look for the directory was
refused there. If a search by date fails to list, it names a directory at most two levels below the
root whose listing was refused, and tells it by its name there. -/
theorem failures_name_their_directory (table : Table μ) (truthful : table.store.Truthful)
    (world : World μ) :
    (∀ spellings spelling source,
      (table.partitionsBelow spellings world).1 = .failed (.listing spelling source) →
      let start := Path.resolve table.root spelling
      spelling ∈ spellings
        ∧ ∃ made place, (table.partitionsBelow spellings world).2.calls = world.calls ++ made
        ∧ source.directory? = some place
        ∧ (source = .notFound start
          ∨ ∃ call ∈ made, ∃ failure, table.store.Rejects call failure ∧ source = call.blame failure)
        ∧ (start.LeadsTo place
          ∨ place = start.parent ∧ .list place .existence ∈ made
            ∧ ∃ failure, table.store.Rejects (.list place .existence) failure
              ∧ source = .listing place failure))
    ∧ ∀ spelling source, (table.datePartitions world).1 = .failed (.listing spelling source) →
      ∃ made names failure, (table.datePartitions world).2.calls = world.calls ++ made
        ∧ names.length ≤ 2 ∧ source = .listing (table.root.under names) failure
        ∧ Path.relativeName? table.root (table.root.under names) = some spelling
        ∧ .list (table.root.under names) .children ∈ made
        ∧ table.store.Rejects (.list (table.root.under names) .children) failure := by
  constructor
  · intro spellings spelling source failed start
    obtain ⟨made, calls, blamed⟩ := partitionsBelow_attributes truthful spellings world
    rcases blamed _ failed with (none | ⟨spelling', asked, same⟩) | ⟨call, member, failure, rejected, told⟩
    · exact absurd rfl (none spelling source)
    · cases same
      exact ⟨asked, made, start, calls, rfl, .inl rfl, .inl (Path.leadsTo_refl start)⟩
    · obtain ⟨spelling', asked, same, placed⟩ := told
      cases same
      refine ⟨asked, made, call.directory, calls, call.directory?_blame failure,
        .inr ⟨call, member, failure, rejected, rfl⟩, placed.imp_right ?_⟩
      rintro rfl
      exact ⟨rfl, member, failure, rejected, rfl⟩
  · intro spelling source failed
    obtain ⟨made, calls, blamed⟩ := datePartitions_attributes truthful world
    rcases blamed _ failed with none | ⟨call, member, failure, rejected, names, count, -, rfl, same⟩
    · exact absurd rfl (none spelling source)
    · cases same
      exact ⟨made, names, failure, calls, Nat.le_of_lt_succ count, rfl,
        Path.relativeName?_under table.root names, member, rejected⟩

/-- A directory that must not be read is told as it was spelled by one search and by its name by the
other. -/
theorem failures_name_their_directory_closed :
    let closed : Path := ⟨["lake", "a"]⟩
    let denied : StoreError := .permissionDenied "lake/a" "no access"
    let store : Store Unit := Store.stateless (fun path => .failed (.notFound path.text ""))
      (fun path => if path = closed then .failed denied
        else if path = ⟨["lake"]⟩ then .done { directories := [closed], files := [] }
        else .done { directories := [], files := [] })
    let table : Table Unit := { store, root := ⟨["lake"]⟩, rounds := 3 }
    let world : World Unit := { memory := () }
    table.store.Truthful
      ∧ (table.partitionsBelow ["//a/"] world).1 = .failed (.listing "//a/" (.listing closed denied))
      ∧ (Path.resolve table.root "//a/").LeadsTo closed
      ∧ (table.datePartitions world).1 = .failed (.listing "a" (.listing closed denied))
      ∧ Path.relativeName? table.root closed = some "a" := by
  intro closed denied store table world
  have truthful : table.store.Truthful := by
    intro directory memory listing ended
    change (if directory = closed then Outcome.failed denied
      else if directory = ⟨["lake"]⟩ then .done { directories := [closed], files := [] }
      else .done { directories := [], files := [] }) = .done listing at ended
    split at ended
    · cases ended
    · split at ended
      · rename_i _ here
        cases ended
        refine ⟨fun path member => ⟨"a", by simp [Path.IsName], ?_⟩, by simp⟩
        rw [List.mem_singleton.mp member, here]
        rfl
      · cases ended
        simp
  have searched : (table.partitionsBelow ["//a/"] world).1
      = .failed (.listing "//a/" (.listing closed denied)) := by decide +kernel
  have dated : (table.datePartitions world).1 = .failed (.listing "a" (.listing closed denied)) := by
    decide +kernel
  obtain ⟨names_spelling, names_directory⟩ := failures_name_their_directory table truthful world
  obtain ⟨-, made, place, -, named, -, placed⟩ := names_spelling ["//a/"] "//a/" _ searched
  obtain ⟨_, names, failure, -, -, same, called, -, -⟩ := names_directory "a" _ dated
  cases named
  injection same with same _
  rw [← same] at called
  refine ⟨truthful, searched, placed.resolve_right fun above => ?_, dated, called⟩
  exact absurd above.1 (by decide +kernel)

end Table

end PartitionedTable
