import PartitionedTable.Opening
import PartitionedTable.Proofs.Existence
import PartitionedTable.Proofs.Schedule

/-!
Which partitions a search finds on a flat set of keys. `KeyStore.Reported` says it by the keys
alone: the marked directories at or below a seed, off the bookkeeping directory, with no marked
directory on the way. One round of a walk splits this set into the marked directories of the
frontier and what is reported from their children, so the rounds together find all of it.
-/

namespace PartitionedTable

namespace KeyStore

variable (keys : KeyStore)

/-- A search that starts at `seed` reports `directory`. -/
def Reported (seed directory : Path) : Prop :=
  ∃ names, directory = seed.under names ∧ keys.Marked directory
    ∧ Layout.bookkeepingName ∉ names
    ∧ ∀ front rest, names = front ++ rest → rest ≠ [] → ¬ keys.Marked (seed.under front)

/-- A marked directory is reported itself and hides everything below it. -/
theorem reported_iff_of_marked {seed : Path} (marked : keys.Marked seed) {directory : Path} :
    keys.Reported seed directory ↔ directory = seed := by
  constructor
  · rintro ⟨names, rfl, _, _, topmost⟩
    cases names with
    | nil => exact Path.under_nil seed
    | cons name names =>
        have clear := topmost [] (name :: names) rfl (List.cons_ne_nil name names)
        rw [Path.under_nil] at clear
        exact absurd marked clear
  · rintro rfl
    refine ⟨[], (Path.under_nil directory).symm, marked, List.not_mem_nil, ?_⟩
    intro front rest empty filled
    exact absurd (List.append_eq_nil_iff.mp empty.symm).2 filled

/-- Below a directory without a marker the search goes on from the children. -/
theorem reported_iff_of_not_marked {seed : Path} (plain : ¬ keys.Marked seed) {directory : Path} :
    keys.Reported seed directory ↔ ∃ child ∈ keys.children seed, keys.Reported child directory := by
  constructor
  · rintro ⟨names, rfl, marked, kept, topmost⟩
    cases names with
    | nil =>
        rw [Path.under_nil] at marked
        exact absurd marked plain
    | cons name names =>
        have split : seed.under (name :: names) = (seed.child name).under names := by
          rw [Path.child_under]
        have ordinary : name ≠ Layout.bookkeepingName :=
          fun equal => kept (equal ▸ List.mem_cons_self)
        refine ⟨seed.child name, keys.child_mem_children (keys.holds_of_marked marked) ordinary,
          names, split, split ▸ marked, ?_, ?_⟩
        · exact fun member => kept (List.mem_cons_of_mem name member)
        · rintro front rest rfl filled
          have clear := topmost (name :: front) rest rfl filled
          rwa [Path.child_under]
  · rintro ⟨child, listed, names, rfl, marked, kept, topmost⟩
    obtain ⟨name, rfl, ordinary, _⟩ := keys.mem_children_iff.mp listed
    refine ⟨name :: names, ?_, marked, ?_, ?_⟩
    · rw [Path.child_under]
    · rw [List.mem_cons, not_or]
      exact ⟨Ne.symm ordinary, kept⟩
    · intro front rest split filled
      cases front with
      | nil => rwa [Path.under_nil]
      | cons first front =>
          rw [List.cons_append, List.cons.injEq] at split
          obtain ⟨rfl, rfl⟩ := split
          have clear := topmost front rest rfl filled
          rwa [Path.child_under] at clear

/-- A walk from `directory` is over within `limit` rounds: no key lies more levels below it. -/
def Fits (limit : Nat) (directory : Path) : Prop :=
  0 < limit ∧ ∀ entry ∈ keys.files, ∀ names, entry.location = directory.under names →
    names.length ≤ limit

theorem Fits.child {limit : Nat} {directory child : Path} (fits : keys.Fits (limit + 1) directory)
    (listed : child ∈ keys.children directory) : keys.Fits limit child := by
  obtain ⟨name, rfl, _, entry, stored, second, rest, located⟩ := keys.mem_children_iff.mp listed
  have shorter : ∀ entry ∈ keys.files, ∀ names, entry.location = (directory.child name).under names →
      names.length ≤ limit := by
    intro entry stored names located
    rw [Path.child_under] at located
    have bound := fits.2 entry stored (name :: names) located
    rw [List.length_cons] at bound
    omega
  refine ⟨?_, shorter⟩
  have bound := shorter entry stored (second :: rest) located
  rw [List.length_cons] at bound
  omega

theorem Fits.mono {limit limit' : Nat} {directory : Path} (fits : keys.Fits limit directory)
    (more : limit ≤ limit') : keys.Fits limit' directory :=
  ⟨Nat.lt_of_lt_of_le fits.1 more, fun entry stored names located =>
    Nat.le_trans (fits.2 entry stored names located) more⟩

theorem le_depth {entry : FileEntry} (stored : entry ∈ keys.files) :
    entry.location.segments.length ≤ keys.depth := by
  rw [depth, List.foldl_max]
  apply Nat.le_trans _ (Nat.le_max_right 0 _)
  exact List.le_max?_getD_of_mem (List.mem_map_of_mem stored)

theorem fits_depth (directory : Path) : keys.Fits (keys.depth + 1) directory := by
  refine ⟨Nat.succ_pos _, ?_⟩
  intro entry stored names located
  have bound := keys.le_depth stored
  rw [located, Path.segments_under, List.length_append] at bound
  omega

/-- A search under `root` may start at what is spelled: the root, or a directory of the store. -/
def IsSeed (root : Path) (spelling : String) : Prop :=
  Path.resolve root spelling = root ∨ keys.Holds (Path.resolve root spelling)

/-- Some directory reported from `seed` has this name under `root`. -/
def Names (root seed : Path) (name : String) : Prop :=
  ∃ directory, keys.Reported seed directory ∧ Path.relativeName? root directory = some name

end KeyStore

namespace Table

variable {keys : KeyStore} {table : Table Unit}

theorem batchFlat_values {ι ο : Type} (table : Table Unit) {task : ι → Job Unit (List ο)}
    {items : List ι} (number : Nat) (world : World Unit) (values : ι → List ο)
    (answers : ∀ item ∈ items, (task item).EndsIn (.done (values item))) :
    ∃ outputs, (table.batchFlat number task items world).1 = .done outputs
      ∧ ∀ output, output ∈ outputs ↔ ∃ item ∈ items, output ∈ values item := by
  obtain ⟨outputs, ended, chosen⟩ := Engine.flatMap_values .taskFailed (table.order number)
    (table.options.budget items.length) world values answers
  refine ⟨outputs, ended, ?_⟩
  intro output
  rw [chosen.mem_iff, List.mem_flatMap]

/-- The calls made to classify a directory: it is listed only if no marker is found in it. -/
def visitCalls (keys : KeyStore) (directory : Path) : List Call :=
  keys.probes directory Layout.markerNames
    ++ if keys.Marked directory then [] else [.list directory .children]

/-- What classifying a directory under the root yields on a flat set of keys. -/
def yield (keys : KeyStore) (root : Path) (visit : Visit) : List Finding :=
  if keys.Marked visit.directory then
    [.partition ((Path.relativeName? root visit.directory).getD "")]
  else
    (keys.children visit.directory).map fun directory =>
      .descend { directory, spelling := visit.spelling }

theorem classify_does (stored : table.store = keys.store) {visit : Visit} {names : List String}
    (below : visit.directory = table.root.under names) :
    (table.classify visit).Does (yield keys table.root visit) (visitCalls keys visit.directory) := by
  have asked : (table.store.hasMarker visit.directory).Does (decide (keys.Marked visit.directory))
      (keys.probes visit.directory Layout.markerNames) :=
    stored ▸ keys.hasMarker_does visit.directory
  unfold classify yield visitCalls
  by_cases marked : keys.Marked visit.directory
  · rw [decide_eq_true marked] at asked
    rw [if_pos marked, if_pos marked]
    have named : Path.relativeName? table.root visit.directory = some ("/".intercalate names) := by
      rw [below, Path.relativeName?_under]
    rw [named]
    exact (asked.mapError _).bind ((partitionName_does table named).bind (Work.does_pure _))
  · rw [decide_eq_false marked] at asked
    rw [if_neg marked, if_neg marked]
    have listed : (table.store.directoriesIn visit.directory Layout.isBookkeeping).Does
        (keys.children visit.directory) [.list visit.directory .children] :=
      stored ▸ keys.directoriesIn_does visit.directory Layout.isBookkeeping
    exact (asked.mapError _).bind ((listed.mapError _).bind (Work.does_pure _))

theorem classify_endsIn (stored : table.store = keys.store) {visit : Visit} {names : List String}
    (below : visit.directory = table.root.under names) :
    (table.classify visit).EndsIn (.done (yield keys table.root visit)) :=
  (classify_does stored below).endsIn

/-- The names reported from a directory are those found in it at once and those reported from where
the walk goes on. -/
theorem names_iff_yield {root : Path} {visit : Visit} {names : List String}
    (below : visit.directory = root.under names) {name : String} :
    keys.Names root visit.directory name ↔ .partition name ∈ yield keys root visit
      ∨ ∃ next, .descend next ∈ yield keys root visit ∧ keys.Names root next.directory name := by
  unfold yield
  by_cases marked : keys.Marked visit.directory
  · rw [if_pos marked]
    have named : Path.relativeName? root visit.directory = some ("/".intercalate names) := by
      rw [below, Path.relativeName?_under]
    simp [KeyStore.Names, keys.reported_iff_of_marked marked, named, eq_comm]
  · rw [if_neg marked]
    constructor
    · rintro ⟨directory, reported, named⟩
      obtain ⟨child, listed, reported⟩ := (keys.reported_iff_of_not_marked marked).mp reported
      refine .inr ⟨{ directory := child, spelling := visit.spelling }, ?_, directory, reported, named⟩
      exact List.mem_map.mpr ⟨child, listed, rfl⟩
    · rintro (found | ⟨next, left, directory, reported, named⟩)
      · obtain ⟨_, _, equal⟩ := List.mem_map.mp found
        cases equal
      · obtain ⟨child, listed, equal⟩ := List.mem_map.mp left
        cases equal
        exact ⟨directory, (keys.reported_iff_of_not_marked marked).mpr ⟨child, listed, reported⟩,
          named⟩

/-- The walk goes on below the root, with a round less to go. -/
theorem fits_of_descend {root : Path} {limit : Nat} {visit next : Visit} {names : List String}
    (below : visit.directory = root.under names) (fits : keys.Fits (limit + 1) visit.directory)
    (left : .descend next ∈ yield keys root visit) :
    (∃ names, next.directory = root.under names) ∧ keys.Fits limit next.directory := by
  unfold yield at left
  split at left
  · cases List.mem_singleton.mp left
  · obtain ⟨child, listed, equal⟩ := List.mem_map.mp left
    cases equal
    obtain ⟨name, rfl, _, _⟩ := keys.mem_children_iff.mp listed
    refine ⟨⟨names ++ [name], ?_⟩, fits.child keys listed⟩
    rw [below, Path.child_eq_under, Path.under_under]

namespace Round

theorem mem_partitions_iff {round : Round} {name : String} :
    name ∈ round.partitions ↔ .partition name ∈ round.findings := by
  unfold partitions
  rw [List.mem_filterMap]
  constructor
  · rintro ⟨_ | _, found, equal⟩
    · cases equal
      exact found
    · cases equal
  · exact fun found => ⟨_, found, rfl⟩

theorem mem_next_iff {round : Round} {visit : Visit} :
    visit ∈ round.next ↔ .descend visit ∈ round.findings := by
  unfold next
  rw [List.mem_filterMap]
  constructor
  · rintro ⟨_ | _, found, equal⟩
    · cases equal
    · cases equal
      exact found
  · exact fun found => ⟨_, found, rfl⟩

end Round

/-- A walk with rounds enough ends, and finds exactly the names reported from its frontier. Each
round finds what is marked in the frontier and hands on the rest one level further down. -/
theorem walk_finds (stored : table.store = keys.store) (status : String) {limit : Nat}
    (number : Nat) {frontier : List Visit}
    (below : ∀ visit ∈ frontier, ∃ names, visit.directory = table.root.under names)
    (fits : ∀ visit ∈ frontier, keys.Fits limit visit.directory) (world : World Unit) :
    ∃ rounds, (table.walk status limit number frontier world).1 = .done rounds
      ∧ ∀ name, name ∈ rounds.flatMap Round.partitions
        ↔ ∃ visit ∈ frontier, keys.Names table.root visit.directory name := by
  induction limit generalizing number frontier world with
  | zero =>
      cases frontier with
      | nil =>
          rw [walk]
          exact ⟨[], rfl, fun name => by simp⟩
      | cons visit others => exact absurd (fits visit List.mem_cons_self).1 (Nat.lt_irrefl 0)
  | succ limit ih =>
      cases frontier with
      | nil =>
          rw [walk]
          exact ⟨[], rfl, fun name => by simp⟩
      | cons visit others =>
          rw [walk, Work.bind_of_done rfl]
          generalize (announce status world).2 = world
          generalize visit :: others = frontier at below fits ⊢
          have answers : ∀ visit ∈ frontier,
              (table.classify visit).EndsIn (.done (yield keys table.root visit)) := by
            intro visit member
            obtain ⟨names, under⟩ := below visit member
            exact classify_endsIn stored under
          obtain ⟨findings, ended, found⟩ :=
            batchFlat_values table number world (yield keys table.root) answers
          rw [Work.bind_of_done ended]
          generalize (table.batchFlat number table.classify frontier world).2 = world
          -- The next frontier is again below the root and one level nearer to the deepest key.
          have onward : ∀ next ∈ ({ frontier, findings } : Round).next,
              (∃ names, next.directory = table.root.under names)
                ∧ keys.Fits limit next.directory := by
            intro next member
            obtain ⟨visit, member, left⟩ := (found _).mp (Round.mem_next_iff.mp member)
            obtain ⟨names, under⟩ := below visit member
            exact fits_of_descend under (fits visit member) left
          obtain ⟨later, ended, rest⟩ := ih (number + 1) (fun next member => (onward next member).1)
            (fun next member => (onward next member).2) world
          refine ⟨{ frontier, findings } :: later, ?_, ?_⟩
          · rw [Work.bind_of_done ended]
            rfl
          · intro name
            rw [List.flatMap_cons, List.mem_append, rest, Round.mem_partitions_iff, found]
            constructor
            · rintro (⟨visit, member, named⟩ | ⟨next, member, named⟩)
              · obtain ⟨names, under⟩ := below visit member
                exact ⟨visit, member, (names_iff_yield under).mpr (.inl named)⟩
              · obtain ⟨visit, member, left⟩ := (found _).mp (Round.mem_next_iff.mp member)
                obtain ⟨names, under⟩ := below visit member
                exact ⟨visit, member, (names_iff_yield under).mpr (.inr ⟨next, left, named⟩)⟩
            · rintro ⟨visit, member, named⟩
              obtain ⟨names, under⟩ := below visit member
              rcases (names_iff_yield under).mp named with here | ⟨next, left, named⟩
              · exact .inl ⟨visit, member, here⟩
              · exact .inr ⟨next, Round.mem_next_iff.mpr ((found _).mpr ⟨visit, member, left⟩), named⟩

section Seeds

/-- The calls made to make sure that a directory exists which does: none for the root. -/
def checkCalls (root directory : Path) : List Call :=
  if directory = root then [] else [.list directory .existence]

theorem resolve_ne_top {root : Path} {spelling : String}
    (elsewhere : Path.resolve root spelling ≠ root) : Path.resolve root spelling ≠ Path.top := by
  intro atTop
  have empty := congrArg Path.segments atTop
  rw [Path.segments_resolve] at empty
  have rootAtTop : root = Path.top := Path.ext_segments (List.append_eq_nil_iff.mp empty).1
  exact elsewhere (atTop.trans rootAtTop.symm)

theorem checkSeed_does (stored : table.store = keys.store) {spelling : String}
    (existing : keys.IsSeed table.root spelling) :
    (table.checkSeed ⟨Path.resolve table.root spelling, spelling⟩).Does ()
      (checkCalls table.root (Path.resolve table.root spelling)) := by
  unfold checkSeed checkCalls
  by_cases atRoot : Path.resolve table.root spelling = table.root
  · rw [if_pos atRoot, if_pos atRoot]
    exact Work.does_pure ()
  · rw [if_neg atRoot, if_neg atRoot]
    have present := keys.directoryExists_does (existing.resolve_left atRoot)
    rw [if_neg (resolve_ne_top atRoot), ← stored] at present
    exact (present.mapError _).bind (Work.does_pure ())

theorem checkSeed_endsIn (stored : table.store = keys.store) {spelling : String}
    (existing : keys.IsSeed table.root spelling) :
    (table.checkSeed ⟨Path.resolve table.root spelling, spelling⟩).EndsIn (.done ()) :=
  (checkSeed_does stored existing).endsIn

theorem checkSeed_failed (stored : table.store = keys.store) {spelling : String}
    (missing : ¬ keys.IsSeed table.root spelling) :
    (table.checkSeed ⟨Path.resolve table.root spelling, spelling⟩).EndsIn
      (.failed (.listing spelling (.notFound (Path.resolve table.root spelling)))) := by
  obtain ⟨elsewhere, bare⟩ := not_or.mp missing
  have absent : (table.store.directoryExists (Path.resolve table.root spelling)).EndsIn
      (.done false) :=
    stored ▸ keys.directoryExists_of_not_holds (resolve_ne_top elsewhere) bare
  unfold checkSeed
  rw [if_neg elsewhere]
  exact (absent.mapError _).bind (Work.endsIn_fail _)

/-- The first of the spellings that does not name a directory. -/
theorem exists_first_missing {root : Path} {spellings : List String}
    (bad : ∃ spelling ∈ spellings, ¬ keys.IsSeed root spelling) :
    ∃ front spelling rest, spellings = front ++ spelling :: rest
      ∧ ¬ keys.IsSeed root spelling ∧ ∀ earlier ∈ front, keys.IsSeed root earlier := by
  induction spellings with
  | nil =>
      obtain ⟨_, member, _⟩ := bad
      cases member
  | cons first others ih =>
      by_cases existing : keys.IsSeed root first
      · have later : ∃ spelling ∈ others, ¬ keys.IsSeed root spelling := by
          obtain ⟨spelling, member, missing⟩ := bad
          rcases List.mem_cons.mp member with rfl | member
          · exact absurd existing missing
          · exact ⟨spelling, member, missing⟩
        obtain ⟨front, spelling, rest, rfl, missing, good⟩ := ih later
        exact ⟨first :: front, spelling, rest, rfl, missing,
          List.forall_mem_cons.mpr ⟨existing, good⟩⟩
      · exact ⟨[], first, others, rfl, existing, fun _ member => absurd member List.not_mem_nil⟩

theorem slots_budget {options : ListingOptions} (single : options.parallelism ≤ 1) (pending : Nat) :
    Engine.slots (options.budget pending) = 1 := by
  unfold Engine.slots ListingOptions.budget
  omega

/-- A spelling that does not name a directory fails the round of checks with its own error; with one
check at a time it is the first of them. -/
theorem batch_checkSeed_failed (stored : table.store = keys.store) {spellings : List String}
    (bad : ∃ spelling ∈ spellings, ¬ keys.IsSeed table.root spelling) (world : World Unit) :
    ∃ spelling ∈ spellings, ¬ keys.IsSeed table.root spelling
      ∧ (table.batch 0 table.checkSeed (table.seeds spellings) world).1
        = .failed (.listing spelling (.notFound (Path.resolve table.root spelling)))
      ∧ (table.options.parallelism ≤ 1 → ∃ front rest, spellings = front ++ spelling :: rest
        ∧ ∀ earlier ∈ front, keys.IsSeed table.root earlier) := by
  choose ending answers using table.checkSeed_steady
  have ended_good : ∀ spelling, keys.IsSeed table.root spelling →
      ending ⟨Path.resolve table.root spelling, spelling⟩ = .done () := fun spelling existing =>
    (answers _ world).symm.trans (checkSeed_endsIn stored existing world)
  have ended_bad : ∀ spelling, ¬ keys.IsSeed table.root spelling →
      ending ⟨Path.resolve table.root spelling, spelling⟩
        = .failed (.listing spelling (.notFound (Path.resolve table.root spelling))) :=
    fun spelling missing => (answers _ world).symm.trans (checkSeed_failed stored missing world)
  -- Only one task at a time makes the first missing spelling the culprit, so the cases differ.
  by_cases single : table.options.parallelism ≤ 1
  · obtain ⟨front, spelling, rest, rfl, missing, good⟩ := exists_first_missing bad
    refine ⟨spelling, List.mem_append_right _ List.mem_cons_self, missing, ?_,
      fun _ => ⟨front, rest, rfl, good⟩⟩
    have succeeds : ∀ seed ∈ table.seeds front, (ending seed).Succeeds := by
      intro seed seeded
      obtain ⟨earlier, member, rfl⟩ := List.mem_map.mp seeded
      exact ⟨(), ended_good earlier (good earlier member)⟩
    have blamed : (ending ⟨Path.resolve table.root spelling, spelling⟩).halt?
        = some (.rejected (.listing spelling (.notFound (Path.resolve table.root spelling)))) := by
      rw [ended_bad spelling missing]
      rfl
    unfold batch
    rw [seeds, List.map_append, List.map_cons]
    exact Engine.map_failed_first .taskFailed (table.order 0) (slots_budget single _) world
      (fun seed _ => answers seed) succeeds blamed
  · have fails : ∃ seed ∈ table.seeds spellings, ¬ (ending seed).Succeeds := by
      obtain ⟨spelling, member, missing⟩ := bad
      refine ⟨_, List.mem_map_of_mem member, ?_⟩
      rw [ended_bad spelling missing]
      exact Outcome.not_succeeds_failed _
    obtain ⟨seed, halt, begun, blamed, outcome, started⟩ :=
      Engine.map_failed .taskFailed (table.order 0)
        (table.options.budget (table.seeds spellings).length) world (fun seed _ => answers seed) fails
    obtain ⟨spelling, member, rfl⟩ := List.mem_map.mp (started.subset begun)
    by_cases existing : keys.IsSeed table.root spelling
    · rw [ended_good spelling existing] at blamed
      cases blamed
    · rw [ended_bad spelling existing] at blamed
      cases blamed
      exact ⟨spelling, member, existing, outcome, fun small => absurd small single⟩

theorem batch_checkSeed_done (stored : table.store = keys.store) {spellings : List String}
    (good : ∀ spelling ∈ spellings, keys.IsSeed table.root spelling) (world : World Unit) :
    ∃ units, (table.batch 0 table.checkSeed (table.seeds spellings) world).1 = .done units := by
  have answers : ∀ seed ∈ table.seeds spellings, (table.checkSeed seed).EndsIn (.done ()) := by
    intro seed seeded
    obtain ⟨spelling, member, rfl⟩ := List.mem_map.mp seeded
    exact checkSeed_endsIn stored (good spelling member)
  obtain ⟨units, ended, _⟩ :=
    Engine.map_values .taskFailed (table.order 0) (table.options.budget _) world (fun _ => ()) answers
  exact ⟨units, ended⟩

end Seeds

section Probes

variable {μ : Type}

/-- A call that only looks whether a directory exists. -/
def Probe (call : Call) : Prop := ∃ path, call = .list path .existence

theorem levelOrNone_probes (store : Store μ) (directory : Path) :
    (store.levelOrNone directory .existence).Respects (World.Calling Probe) := by
  have listed : (store.callList directory .existence).Respects (World.Calling Probe) :=
    World.respects_call ⟨directory, rfl⟩ _
  refine listed.attempt.bind World.Calling.trans ?_
  intro answer
  cases answer with
  | ok listing => exact Work.respects_pure (World.calling_rest Probe) listing
  | error source =>
      dsimp only
      split
      · exact Work.respects_pure (World.calling_rest Probe) _
      · exact Work.respects_fail (World.calling_rest Probe) _

theorem directoryExists_probes (store : Store μ) (directory : Path) :
    (store.directoryExists directory).Respects (World.Calling Probe) := by
  unfold Store.directoryExists
  split
  · exact Work.respects_pure (World.calling_rest Probe) true
  · refine (levelOrNone_probes store directory).bind World.Calling.trans fun inside => ?_
    split
    · exact Work.respects_pure (World.calling_rest Probe) true
    · refine (levelOrNone_probes store directory.parent).bind World.Calling.trans fun above => ?_
      exact Work.respects_pure (World.calling_rest Probe) _

theorem checkSeed_probes (table : Table μ) (seed : Visit) :
    (table.checkSeed seed).Respects (World.Calling Probe) := by
  unfold checkSeed
  split
  · exact Work.respects_pure (World.calling_rest Probe) ()
  · refine ((directoryExists_probes table.store seed.directory).mapError _).bind
      World.Calling.trans fun present => ?_
    split
    · exact Work.respects_pure (World.calling_rest Probe) ()
    · exact Work.respects_fail (World.calling_rest Probe) _

end Probes

theorem search_of_ne_nil {μ : Type} (table : Table μ) {spellings : List String}
    (filled : spellings ≠ []) :
    table.search spellings = table.batch 0 table.checkSeed (table.seeds spellings) >>= fun _ =>
      table.walk (searchStatus spellings) table.rounds 1 (table.seeds spellings) := by
  cases spellings with
  | nil => exact absurd rfl filled
  | cons first others => rfl

/-- On a flat set of keys a search from existing directories ends, if there are rounds enough, and
finds the names reported from them. -/
theorem search_done (stored : table.store = keys.store) {spellings : List String}
    (good : ∀ spelling ∈ spellings, keys.IsSeed table.root spelling)
    (fits : ∀ spelling ∈ spellings, keys.Fits table.rounds (Path.resolve table.root spelling))
    (world : World Unit) :
    ∃ rounds, (table.search spellings world).1 = .done rounds
      ∧ ∀ name, name ∈ rounds.flatMap Round.partitions
        ↔ ∃ spelling ∈ spellings, keys.Names table.root (Path.resolve table.root spelling) name := by
  by_cases empty : spellings = []
  · subst empty
    exact ⟨[], rfl, fun name => by simp⟩
  · obtain ⟨units, checked⟩ := batch_checkSeed_done stored good world
    have below : ∀ visit ∈ table.seeds spellings,
        ∃ names, visit.directory = table.root.under names := by
      intro visit seeded
      obtain ⟨spelling, _, rfl⟩ := List.mem_map.mp seeded
      exact ⟨_, Path.resolve_eq_under table.root spelling⟩
    have near : ∀ visit ∈ table.seeds spellings, keys.Fits table.rounds visit.directory := by
      intro visit seeded
      obtain ⟨spelling, member, rfl⟩ := List.mem_map.mp seeded
      exact fits spelling member
    obtain ⟨rounds, ended, found⟩ := walk_finds stored (searchStatus spellings) 1 below near
      (table.batch 0 table.checkSeed (table.seeds spellings) world).2
    refine ⟨rounds, ?_, fun name => ?_⟩
    · rw [table.search_of_ne_nil empty, Work.bind_of_done checked]
      exact ended
    · rw [found]
      simp [seeds]

theorem partitionsBelow_done (stored : table.store = keys.store) (enough : keys.depth < table.rounds)
    {spellings : List String} (good : ∀ spelling ∈ spellings, keys.IsSeed table.root spelling)
    (world : World Unit) :
    ∃ names, (table.partitionsBelow spellings world).1 = .done names ∧ names.Nodup
      ∧ ∀ name, name ∈ names
        ↔ ∃ spelling ∈ spellings, keys.Names table.root (Path.resolve table.root spelling) name := by
  obtain ⟨rounds, ended, found⟩ := search_done stored good
    (fun spelling _ => (keys.fits_depth _).mono keys enough) world
  refine ⟨(rounds.flatMap Round.partitions).eraseDups, ?_, nodup_eraseDups _, fun name => ?_⟩
  · unfold partitionsBelow
    rw [Work.bind_of_done ended]
    rfl
  · rw [List.mem_eraseDups, found]

/-- A spelling of no directory fails the search before it looks for any marker. -/
theorem partitionsBelow_failed (stored : table.store = keys.store) {spellings : List String}
    (bad : ∃ spelling ∈ spellings, ¬ keys.IsSeed table.root spelling) (world : World Unit) :
    ∃ spelling ∈ spellings, ¬ keys.IsSeed table.root spelling
      ∧ (table.partitionsBelow spellings world).1
        = .failed (.listing spelling (.notFound (Path.resolve table.root spelling)))
      ∧ (table.options.parallelism ≤ 1 → ∃ front rest, spellings = front ++ spelling :: rest
        ∧ ∀ earlier ∈ front, keys.IsSeed table.root earlier)
      ∧ world.Calling Probe (table.partitionsBelow spellings world).2 := by
  have filled : spellings ≠ [] := by
    rintro rfl
    obtain ⟨_, member, _⟩ := bad
    cases member
  obtain ⟨spelling, member, missing, outcome, earliest⟩ := batch_checkSeed_failed stored bad world
  have stopped : table.partitionsBelow spellings world
      = (.failed (.listing spelling (.notFound (Path.resolve table.root spelling))),
        (table.batch 0 table.checkSeed (table.seeds spellings) world).2) := by
    unfold partitionsBelow
    rw [table.search_of_ne_nil filled, bind_assoc, Work.bind_of_failed outcome]
  have probed : (table.batch 0 table.checkSeed (table.seeds spellings)).Respects
      (World.Calling Probe) := by
    unfold batch
    exact Engine.map_respects (World.calling_rest Probe) World.Calling.trans .taskFailed
      (checkSeed_probes table) _ _ _
  rw [stopped]
  exact ⟨spelling, member, missing, rfl, earliest, probed world⟩

end Table

end PartitionedTable
