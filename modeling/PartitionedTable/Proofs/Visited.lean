import PartitionedTable.Proofs.Bookkeeping
import PartitionedTable.Proofs.Pointwise

/-!
What a search reports of a store whose listings may say anything. A directory is visited when it is
spelled or listed in a visited directory without a marker; nothing keeps the visited directories below
the root or apart from each other. The root is asked for only where a directory is reported: a marked
directory outside of it fails the search, one without a marker is merely entered. So every reported
name is the way from the root to one visited directory, and if the listed paths are paths that a store
can hold, to one only.
-/

namespace PartitionedTable

namespace Path

/-- `path` is `root` or lies below it, by whole segments. -/
def Encloses (root path : Path) : Prop := ∃ names, path = root.under names

theorem encloses_iff {root path : Path} :
    root.Encloses path ↔ ∃ name, relativeName? root path = some name := by
  constructor
  · rintro ⟨names, rfl⟩
    exact ⟨_, relativeName?_under root names⟩
  · rintro ⟨name, named⟩
    obtain ⟨names, below, -⟩ := relativeName?_eq_some_iff.mp named
    exact ⟨names, below⟩

theorem relativeName?_eq_none_iff {root path : Path} :
    relativeName? root path = none ↔ ¬ root.Encloses path := by
  rw [encloses_iff, ← Option.isSome_iff_exists, Option.not_isSome_iff_eq_none]

end Path

namespace Work

variable {σ ε δ α β : Type}

theorem EndsIn.unique {work : Work σ ε α} {outcome outcome' : Outcome ε α}
    (ended : work.EndsIn outcome) (ended' : work.EndsIn outcome') (state : σ) :
    outcome = outcome' :=
  (ended state).symm.trans (ended' state)

theorem Steady.endsIn_done {work : Work σ ε α} (steady : work.Steady) {state : σ} {value : α}
    (ended : (work state).1 = .done value) : work.EndsIn (.done value) :=
  ended ▸ steady.endsIn state

/-- Work in two parts has a value exactly if the first part has one and the second goes on from it to
the value. -/
theorem bind_eq_done_iff {first : Work σ ε α} {next : α → Work σ ε β} {state : σ} {result : β} :
    ((first >>= next) state).1 = .done result ↔ ∃ value, (first state).1 = .done value
      ∧ (next value (first state).2).1 = .done result := by
  rw [bind_apply]
  generalize first state = ended
  obtain ⟨outcome, after⟩ := ended
  cases outcome <;> simp

theorem mapError_eq_done_iff {work : Work σ ε α} {describe : ε → δ} {state : σ} {value : α} :
    (work.mapError describe state).1 = .done value ↔ (work state).1 = .done value := by
  rw [mapError_apply]
  generalize (work state).1 = outcome
  cases outcome <;> simp [Outcome.mapError]

end Work

namespace Store

variable (store : Store Unit) (directory : Path)

/-- The look for a marker says that there is one. -/
def Marks : Prop := (store.hasMarker directory).EndsIn (.done true)

/-- The look for a marker says that there is none. -/
def Bare : Prop := (store.hasMarker directory).EndsIn (.done false)

/-- The directories that a walk goes on with are `children`. -/
def Lists (children : List Path) : Prop :=
  (store.directoriesIn directory Layout.isBookkeeping).EndsIn (.done children)

/-- Listed directories are paths that a store can hold; where they lie is left open. -/
def ListsValid : Prop :=
  ∀ directory listing, (store.list directory ()).1 = .done listing →
    ∀ path ∈ listing.directories, path.Valid

variable {store directory}

theorem not_bare_of_marks (marks : store.Marks directory) : ¬ store.Bare directory := by
  intro bare
  cases marks.unique bare { memory := () }

theorem Lists.unique {children children' : List Path} (lists : store.Lists directory children)
    (lists' : store.Lists directory children') : children = children' :=
  Outcome.done_injective _ _ (Work.EndsIn.unique lists lists' { memory := () })

theorem Lists.valid {children : List Path} (listsValid : store.ListsValid)
    (lists : store.Lists directory children) : ∀ path ∈ children, path.Valid := by
  intro path member
  obtain ⟨listing, answered, kept⟩ := Work.bind_eq_done_iff.mp (lists { memory := () })
  cases kept
  exact listsValid directory listing (Work.mapError_eq_done_iff.mp answered) path
    (List.mem_filter.mp member).1

end Store

/-- A directory that a walk from the spelled directories comes upon: it is spelled, or listed in one
that the walk came upon and that has no marker. -/
inductive Visited (store : Store Unit) (root : Path) (spellings : List String) : Path → Prop where
  | seed {spelling : String} (asked : spelling ∈ spellings) :
      Visited store root spellings (Path.resolve root spelling)
  | child {directory path : Path} {children : List Path}
      (visited : Visited store root spellings directory) (bare : store.Bare directory)
      (lists : store.Lists directory children) (member : path ∈ children) :
      Visited store root spellings path

/-- The names that lead from the root to a visited directory are names that a store can hold. -/
theorem Visited.isName {store : Store Unit} {root : Path} {spellings : List String}
    (listsValid : store.ListsValid) {names : List String}
    (visited : Visited store root spellings (root.under names)) :
    ∀ name ∈ names, Path.IsName name := by
  intro name member
  generalize located : root.under names = directory at visited
  cases visited with
  | seed asked =>
      rw [Path.resolve_eq_under] at located
      rw [root.under_injective located] at member
      exact Path.isName_of_mem_map_escape member
  | child visited bare lists listed =>
      have valid := lists.valid listsValid directory listed
      rw [← located] at valid
      exact valid name (List.mem_append_right _ member)

namespace Table

section Sight

variable {table : Table Unit} {directory : Path}

/-- A directory is classified by its marker, and then by its place or by its listing. -/
theorem sight_eq_done_iff {findings : List Finding} : table.sight directory = .done findings
    ↔ (table.store.Marks directory ∧ ∃ name, Path.relativeName? table.root directory = some name
        ∧ findings = [.partition name])
      ∨ (table.store.Bare directory ∧ ∃ children, table.store.Lists directory children
        ∧ findings = children.map fun child => .descend ⟨child, ""⟩) := by
  have asks : (table.store.hasMarker directory).Steady := table.store.holdsOneOf_steady directory _
  constructor
  · intro seen
    obtain ⟨marked, asked, rest⟩ := Work.bind_eq_done_iff.mp seen
    have answer := asks.endsIn_done (Work.mapError_eq_done_iff.mp asked)
    cases marked with
    | true =>
        obtain ⟨name, named, found⟩ := Work.bind_eq_done_iff.mp rest
        cases found
        exact .inl ⟨answer, name, table.partitionName_gives directory _ name named, rfl⟩
    | false =>
        obtain ⟨children, listed, found⟩ := Work.bind_eq_done_iff.mp rest
        cases found
        have lists : table.store.Lists directory children :=
          (table.store.directoriesIn_steady directory _).endsIn_done
            (Work.mapError_eq_done_iff.mp listed)
        exact .inr ⟨answer, children, lists, rfl⟩
  · rintro (⟨marks, name, named, rfl⟩ | ⟨bare, children, lists, rfl⟩)
    · have told : (do
          let name ← table.partitionName directory
          return [Finding.partition name]).EndsIn (.done [.partition name]) :=
        (partitionName_endsIn table named).bind (Work.endsIn_pure _)
      exact (Work.EndsIn.mapError marks (TableError.listing "")).bind told _
    · have told : (do
          let children ← (table.store.directoriesIn directory Layout.isBookkeeping).mapError
            (TableError.listing "")
          return children.map fun child => Finding.descend ⟨child, ""⟩).EndsIn
            (.done (children.map fun child => .descend ⟨child, ""⟩)) :=
        (Work.EndsIn.mapError lists _).bind (Work.endsIn_pure _)
      exact (Work.EndsIn.mapError bare (TableError.listing "")).bind told _

/-- A directory refuses to be classified unless it is marked and lies below the root, or is not marked
and can be listed. -/
theorem not_refuses_iff : ¬ table.Refuses directory
    ↔ (table.store.Marks directory ∧ table.root.Encloses directory)
      ∨ (table.store.Bare directory ∧ ∃ children, table.store.Lists directory children) := by
  unfold Refuses
  rw [not_not, Path.encloses_iff]
  constructor
  · rintro ⟨findings, seen⟩
    rcases sight_eq_done_iff.mp seen with ⟨marks, name, named, -⟩ | ⟨bare, children, lists, -⟩
    · exact .inl ⟨marks, name, named⟩
    · exact .inr ⟨bare, children, lists⟩
  · rintro (⟨marks, name, named⟩ | ⟨bare, children, lists⟩)
    · exact ⟨_, sight_eq_done_iff.mpr (.inl ⟨marks, name, named, rfl⟩)⟩
    · exact ⟨_, sight_eq_done_iff.mpr (.inr ⟨bare, children, lists, rfl⟩)⟩

theorem mem_shown_iff {finding : Finding} : finding ∈ table.shown directory
    ↔ ∃ findings, table.sight directory = .done findings ∧ finding ∈ findings := by
  unfold shown
  cases table.sight directory <;> simp

theorem partition_mem_shown_iff {name : String} : .partition name ∈ table.shown directory
    ↔ table.store.Marks directory ∧ Path.relativeName? table.root directory = some name := by
  rw [mem_shown_iff]
  constructor
  · rintro ⟨findings, seen, member⟩
    rcases sight_eq_done_iff.mp seen with ⟨marks, other, named, rfl⟩ | ⟨-, children, -, rfl⟩
    · cases List.mem_singleton.mp member
      exact ⟨marks, named⟩
    · obtain ⟨child, _, equal⟩ := List.mem_map.mp member
      cases equal
  · rintro ⟨marks, named⟩
    exact ⟨_, sight_eq_done_iff.mpr (.inl ⟨marks, name, named, rfl⟩), List.mem_singleton_self _⟩

theorem descend_mem_shown_iff {path : Path} :
    (∃ visit, .descend visit ∈ table.shown directory ∧ visit.directory = path)
      ↔ table.store.Bare directory ∧ ∃ children, table.store.Lists directory children
        ∧ path ∈ children := by
  simp only [mem_shown_iff]
  constructor
  · rintro ⟨visit, ⟨findings, seen, member⟩, rfl⟩
    rcases sight_eq_done_iff.mp seen with ⟨-, name, -, rfl⟩ | ⟨bare, children, lists, rfl⟩
    · cases List.mem_singleton.mp member
    · obtain ⟨child, listed, equal⟩ := List.mem_map.mp member
      cases equal
      exact ⟨bare, children, lists, listed⟩
  · rintro ⟨bare, children, lists, listed⟩
    exact ⟨⟨path, ""⟩, ⟨_, sight_eq_done_iff.mpr (.inr ⟨bare, children, lists, rfl⟩),
      List.mem_map_of_mem listed⟩, rfl⟩

end Sight

section Leading

variable {shown : Path → List Finding}

theorem Leads.snoc {steps : Nat} {directory last : Path} {visit : Visit}
    (leads : Leads shown steps directory last) (left : .descend visit ∈ shown last) :
    Leads shown (steps + 1) directory visit.directory := by
  induction leads with
  | here directory => exact .onward left (.here _)
  | onward first later ih => exact .onward first (ih left)

variable {table : Table Unit} {spellings : List String}

theorem visited_of_leads {steps : Nat} {directory last : Path}
    (leads : Leads table.shown steps directory last)
    (begun : Visited table.store table.root spellings directory) :
    Visited table.store table.root spellings last := by
  induction leads with
  | here directory => exact begun
  | onward left later ih =>
      obtain ⟨bare, children, lists, member⟩ := descend_mem_shown_iff.mp ⟨_, left, rfl⟩
      exact ih (.child begun bare lists member)

theorem visited_iff_leads {directory : Path} :
    Visited table.store table.root spellings directory
      ↔ ∃ start ∈ spellings.map (Path.resolve table.root), ∃ steps,
        Leads table.shown steps start directory := by
  constructor
  · intro visited
    induction visited with
    | seed asked => exact ⟨_, List.mem_map_of_mem asked, 0, .here _⟩
    | child visited bare lists member ih =>
        obtain ⟨start, listed, steps, leads⟩ := ih
        obtain ⟨visit, left, rfl⟩ := descend_mem_shown_iff.mpr ⟨bare, _, lists, member⟩
        exact ⟨start, listed, steps + 1, leads.snoc left⟩
  · rintro ⟨start, listed, steps, leads⟩
    obtain ⟨spelling, asked, rfl⟩ := List.mem_map.mp listed
    exact visited_of_leads leads (.seed asked)

end Leading

section Searches

variable {table : Table Unit} {spellings : List String} {world : World Unit}
  {outcome : Outcome TableError (List String)}

/-- A search that ends succeeds exactly if it may start everywhere and every visited directory can be
classified. -/
theorem Finds.succeeds_iff (found : table.Finds spellings world outcome) : outcome.Succeeds
    ↔ (∀ spelling ∈ spellings, table.Admits (Path.resolve table.root spelling))
      ∧ ∀ directory, Visited table.store table.root spellings directory →
        ¬ table.Refuses directory := by
  have same : (table.rescheduled table.options table.order table.rounds).Finds spellings world
      outcome := found
  obtain ⟨enough, told⟩ := same.pointwise
  constructor
  · intro succeeds
    refine ⟨fun spelling asked => ?_, fun directory visited refuses => ?_⟩
    · have clear := ((told enough (Nat.le_refl enough)).succeeds_iff found.1).mp succeeds _
        (List.mem_map_of_mem asked)
      exact not_not.mp (not_or.mp clear).1
    · -- Rounds enough for the whole search and for the way to this directory.
      obtain ⟨start, listed, steps, leads⟩ := visited_iff_leads.mp visited
      have clear := ((told (max enough (steps + 1)) (Nat.le_max_left _ _)).succeeds_iff found.1).mp
        succeeds start listed
      exact (not_or.mp clear).2
        ⟨steps, Nat.lt_of_lt_of_le (Nat.lt_succ_self steps) (Nat.le_max_right _ _), _, leads, refuses⟩
  · rintro ⟨admits, answers⟩
    refine ((told enough (Nat.le_refl enough)).succeeds_iff found.1).mpr fun start listed => ?_
    rintro (refused | ⟨steps, _, last, leads, refuses⟩)
    · obtain ⟨spelling, asked, rfl⟩ := List.mem_map.mp listed
      exact refused (admits spelling asked)
    · exact answers last (visited_iff_leads.mpr ⟨start, listed, steps, leads⟩) refuses

theorem Finds.mem_iff {names : List String} (found : table.Finds spellings world (.done names))
    (name : String) : name ∈ names ↔ ∃ directory, Visited table.store table.root spellings directory
      ∧ table.store.Marks directory ∧ Path.relativeName? table.root directory = some name := by
  have same : (table.rescheduled table.options table.order table.rounds).Finds spellings world
      (.done names) := found
  obtain ⟨enough, told⟩ := same.pointwise
  rw [(told enough (Nat.le_refl enough)).mem_iff]
  simp only [Offers, partition_mem_shown_iff, visited_iff_leads]
  constructor
  · rintro ⟨start, listed, steps, last, leads, marks, named⟩
    exact ⟨last, ⟨start, listed, steps, leads⟩, marks, named⟩
  · rintro ⟨last, ⟨start, listed, steps, leads⟩, marks, named⟩
    exact ⟨start, listed, steps, last, leads, marks, named⟩

/-- The frontiers of a walk hold what its first frontier leads to. A round that was classified hands on
just what its directories show; the induction follows the walk. -/
theorem mem_frontier_iff_leads (status : String) (limit number : Nat) (frontier : List Visit)
    {walked : List Round} (ended : (table.walk status limit number frontier world).1 = .done walked)
    (directory : Path) :
    (∃ round ∈ walked, ∃ visit ∈ round.frontier, visit.directory = directory)
      ↔ ∃ start ∈ frontier.map Visit.directory, ∃ steps, Leads table.shown steps start directory := by
  induction limit, number, frontier using walk.induct generalizing world walked with
  | case1 limit number =>
      rw [walk] at ended
      cases ended
      simp
  | case2 number visit others =>
      rw [walk] at ended
      cases ended
  | case3 limit number visit others ih =>
      rw [walk, Work.bind_of_done rfl] at ended
      generalize (announce status world).2 = world at ended
      generalize visit :: others = frontier at ih ended ⊢
      obtain ⟨findings, classified, ended⟩ := Work.bind_eq_done_iff.mp ended
      obtain ⟨later, walks, whole⟩ := Work.bind_eq_done_iff.mp ended
      cases whole
      have answers : ∀ visit ∈ frontier, ¬ table.Refuses visit.directory := by
        intro visit member refuses
        obtain ⟨error, failed, -⟩ := batchFlat_failed table table.classify_steady
          (classify_failsOnly table) ⟨visit, member, classify_refused refuses⟩ number world
        cases classified.symm.trans failed
      obtain ⟨findings', classified', -, onward⟩ :=
        table.batchFlat_classify_done answers number world
      cases classified.symm.trans classified'
      have next : ∀ path, path ∈ ({ frontier, findings } : Round).next.map Visit.directory
          ↔ ∃ start ∈ frontier.map Visit.directory,
            ∃ visit, .descend visit ∈ table.shown start ∧ visit.directory = path := by
        intro path
        rw [List.mem_map, ← onward]
        simp only [Round.mem_next_iff]
      simp only [List.mem_cons, exists_eq_or_imp]
      rw [ih findings walks, ← List.mem_map]
      constructor
      · rintro (here | ⟨path, listed, steps, leads⟩)
        · exact ⟨directory, here, 0, .here directory⟩
        · obtain ⟨start, member, visit, left, rfl⟩ := (next path).mp listed
          exact ⟨start, member, steps + 1, .onward left leads⟩
      · rintro ⟨start, member, steps, leads⟩
        cases leads with
        | here => exact .inl member
        | onward left leads =>
            exact .inr ⟨_, (next _).mpr ⟨start, member, _, left, rfl⟩, _, leads⟩

/-- The directories in the rounds of a search that ends well are the visited ones. -/
theorem mem_frontier_iff_visited {walked : List Round}
    (ended : (table.search spellings world).1 = .done walked) (directory : Path) :
    (∃ round ∈ walked, ∃ visit ∈ round.frontier, visit.directory = directory)
      ↔ Visited table.store table.root spellings directory := by
  rw [visited_iff_leads]
  by_cases empty : spellings = []
  · subst empty
    cases ended
    simp
  · rw [table.search_of_ne_nil empty] at ended
    obtain ⟨_, _, walks⟩ := Work.bind_eq_done_iff.mp ended
    rw [mem_frontier_iff_leads _ _ _ _ walks, seeds, List.map_map]
    rfl

end Searches

section Dated

variable {table : Table Unit}

/-- A directory so many levels below the root, as the listings of a search by date lead to it. -/
inductive ListedAt (store : Store Unit) (root : Path) : Nat → Path → Prop where
  | root : ListedAt store root 0 root
  | child {level : Nat} {directory path : Path} {children : List Path}
      (above : ListedAt store root level directory) (lists : store.Lists directory children)
      (member : path ∈ children) : ListedAt store root (level + 1) path

theorem ListedAt.above {store : Store Unit} {root directory : Path} {level more : Nat}
    (listed : ListedAt store root (level + more) directory) :
    ∃ path, ListedAt store root level path := by
  induction more generalizing directory with
  | zero => exact ⟨directory, listed⟩
  | succ more ih =>
      cases listed with
      | child above lists member => exact ih above

/-- If every directory on the way can be listed, going down ends at the listed directories; the
induction is on the levels that are left. -/
theorem descendants_listedAt (levels number : Nat) {level : Nat} {frontier : List Path}
    (placed : ∀ directory, directory ∈ frontier ↔ ListedAt table.store table.root level directory)
    (lists : ∀ more < levels, ∀ directory,
      ListedAt table.store table.root (level + more) directory →
        ∃ children, table.store.Lists directory children)
    (world : World Unit) :
    ∃ directories, (table.descendants levels number frontier world).1 = .done directories
      ∧ ∀ directory, directory ∈ directories
        ↔ ListedAt table.store table.root (level + levels) directory := by
  induction levels, number, frontier using descendants.induct generalizing level world with
  | case1 number frontier => exact ⟨frontier, rfl, placed⟩
  | case2 number levels =>
      refine ⟨[], rfl, fun directory => iff_of_false List.not_mem_nil fun listed => ?_⟩
      obtain ⟨path, above⟩ := listed.above
      exact List.not_mem_nil ((placed path).mpr above)
  | case3 levels number directory others ih =>
      rw [descendants]
      generalize directory :: others = frontier at placed ⊢
      have here : ∀ directory ∈ frontier, ∃ children, table.store.Lists directory children :=
        fun directory member => lists 0 (Nat.succ_pos levels) directory ((placed directory).mp member)
      choose! children listed using here
      have answers : ∀ directory ∈ frontier,
          (table.childrenByName directory).EndsIn (.done (children directory)) :=
        fun directory member => Work.EndsIn.mapError (listed directory member) _
      obtain ⟨outputs, ended, found⟩ := batchFlat_values table number world children answers
      rw [Work.bind_of_done ended]
      have onward : ∀ path, path ∈ outputs ↔ ListedAt table.store table.root (level + 1) path := by
        intro path
        rw [found]
        constructor
        · rintro ⟨directory, member, below⟩
          exact .child ((placed directory).mp member) (listed directory member) below
        · intro below
          cases below with
          | @child _ directory _ others above lists member =>
              have chosen := (placed directory).mpr above
              obtain rfl := lists.unique (listed directory chosen)
              exact ⟨directory, chosen, member⟩
      have deeper : ∀ more < levels, ∀ directory,
          ListedAt table.store table.root (level + 1 + more) directory →
            ∃ children, table.store.Lists directory children := by
        intro more early
        rw [Nat.add_right_comm, Nat.add_assoc]
        exact lists (more + 1) (Nat.succ_lt_succ early)
      obtain ⟨directories, ended', all⟩ := ih outputs onward deeper _
      refine ⟨directories, ended', fun directory => ?_⟩
      rw [all, Nat.add_right_comm, Nat.add_assoc]

/-- A search by date whose listings succeed fails for a directory outside of the root if there is one
three levels down, and else names all directories there. -/
theorem datePartitions_listedAt
    (lists : ∀ level < dateDepth, ∀ directory, ListedAt table.store table.root level directory →
      ∃ children, table.store.Lists directory children) (world : World Unit) :
    (∃ directory, ListedAt table.store table.root dateDepth directory
        ∧ ¬ table.root.Encloses directory
        ∧ (table.datePartitions world).1 = .failed (.outside directory))
      ∨ (∀ directory, ListedAt table.store table.root dateDepth directory →
          table.root.Encloses directory)
        ∧ ∃ names, (table.datePartitions world).1 = .done names ∧ names.Nodup
          ∧ ∀ name, name ∈ names ↔ ∃ directory, ListedAt table.store table.root dateDepth directory
            ∧ Path.relativeName? table.root directory = some name := by
  unfold datePartitions
  rw [Work.bind_of_done rfl]
  generalize (announce _ world).2 = world
  have atRoot : ∀ directory, directory ∈ [table.root]
      ↔ ListedAt table.store table.root 0 directory := by
    intro directory
    rw [List.mem_singleton]
    constructor
    · rintro rfl
      exact .root
    · intro listed
      cases listed
      rfl
  obtain ⟨directories, ended, found⟩ := descendants_listedAt dateDepth 0 atRoot
    (fun more early directory listed => lists more early directory (Nat.zero_add more ▸ listed)) world
  rw [Nat.zero_add] at found
  rw [Work.bind_of_done ended]
  by_cases outside : ∃ directory ∈ directories, Path.relativeName? table.root directory = none
  · obtain ⟨directory, member, unnamed, failed⟩ := mapM_partitionName_failed table outside
    refine .inl ⟨directory, (found directory).mp member, Path.relativeName?_eq_none_iff.mp unnamed, ?_⟩
    rw [Work.bind_of_failed (failed _)]
  · have below : ∀ directory ∈ directories,
        ∃ name, Path.relativeName? table.root directory = some name := by
      intro directory member
      rw [← Path.encloses_iff]
      by_contra out
      exact outside ⟨directory, member, Path.relativeName?_eq_none_iff.mpr out⟩
    refine .inr ⟨fun directory listed => ?_, ?_⟩
    · exact Path.encloses_iff.mpr (below directory ((found directory).mpr listed))
    · rw [Work.bind_of_done (mapM_partitionName_does table below _).1]
      refine ⟨_, rfl, nodup_eraseDups _, fun name => ?_⟩
      rw [List.mem_eraseDups, List.mem_map]
      constructor
      · rintro ⟨directory, member, rfl⟩
        obtain ⟨name, named⟩ := below directory member
        exact ⟨directory, (found directory).mp member, by rw [named]; rfl⟩
      · rintro ⟨directory, listed, named⟩
        exact ⟨directory, (found directory).mpr listed, by rw [named]; rfl⟩

end Dated

/-- Listings cannot make a search report what is not below the root, nor report two directories as one.
On a store that remembers nothing, whatever it answers and under every schedule: a search below some
spellings that ends well reports just the names of the visited directories that have a marker, all of
them the root or below it, and as long as listed paths are ones that a store can hold, each name for one
directory. A visited directory outside of the root fails the search if it has a marker; without one it
fails it only if it cannot be listed. What is visited is what the rounds hold. A search by date whose
listings succeed fails for a path exactly if one of the directories three levels down lies outside of the
root, it names such a one, and else it reports the names of all of them. -/
theorem reports_only_below_root (table : Table Unit) (world : World Unit) :
    (∀ spellings outcome, table.Finds spellings world outcome →
      let visited := Visited table.store table.root spellings
      let marks := table.store.Marks
      (∀ names, outcome = .done names →
        names.Nodup
          ∧ (∀ name, name ∈ names ↔ ∃ directory, visited directory ∧ marks directory
            ∧ Path.relativeName? table.root directory = some name)
          ∧ (∀ directory, visited directory → marks directory → table.root.Encloses directory)
          ∧ (table.store.ListsValid → ∀ one other, visited one → marks one → visited other →
            marks other → Path.relativeName? table.root one = Path.relativeName? table.root other →
            one = other))
      ∧ (∀ directory, visited directory → marks directory → ¬ table.root.Encloses directory →
        ¬ outcome.Succeeds)
      ∧ (outcome.Succeeds
        ↔ (∀ spelling ∈ spellings, table.Admits (Path.resolve table.root spelling))
          ∧ ∀ directory, visited directory → (marks directory ∧ table.root.Encloses directory)
            ∨ (table.store.Bare directory ∧ ∃ children, table.store.Lists directory children))
      ∧ ∀ rounds walked, ((table.within rounds).search spellings world).1 = .done walked →
        ∀ directory, (∃ round ∈ walked, ∃ visit ∈ round.frontier, visit.directory = directory)
          ↔ visited directory)
    ∧ ((∀ level < 3, ∀ directory, ListedAt table.store table.root level directory →
        ∃ children, table.store.Lists directory children) →
      let third := ListedAt table.store table.root 3
      ((∃ directory, (table.datePartitions world).1 = .failed (.outside directory))
        ↔ ∃ directory, third directory ∧ ¬ table.root.Encloses directory)
      ∧ (∀ directory, (table.datePartitions world).1 = .failed (.outside directory) →
        third directory ∧ ¬ table.root.Encloses directory)
      ∧ ((∀ directory, third directory → table.root.Encloses directory) →
        ∃ names, (table.datePartitions world).1 = .done names ∧ names.Nodup
          ∧ ∀ name, name ∈ names ↔ ∃ directory, third directory
            ∧ Path.relativeName? table.root directory = some name)) := by
  constructor
  · intro spellings outcome found visited marks
    have succeeds := found.succeeds_iff
    simp only [not_refuses_iff] at succeeds
    have inside : outcome.Succeeds → ∀ directory, visited directory → marks directory →
        table.root.Encloses directory := by
      intro good directory reached marked
      rcases (succeeds.mp good).2 directory reached with ⟨_, below⟩ | ⟨bare, _⟩
      · exact below
      · exact absurd bare (Store.not_bare_of_marks marked)
    refine ⟨?_, ?_, succeeds, ?_⟩
    · rintro names rfl
      refine ⟨found.nodup, found.mem_iff, inside (Outcome.succeeds_done names), ?_⟩
      intro listsValid one other reached marked reached' marked' same
      obtain ⟨below, rfl⟩ := inside (Outcome.succeeds_done names) one reached marked
      obtain ⟨below', rfl⟩ := inside (Outcome.succeeds_done names) other reached' marked'
      exact Path.eq_of_relativeName?_eq (reached.isName listsValid) (reached'.isName listsValid) same
    · exact fun directory reached marked out good => out (inside good directory reached marked)
    · intro rounds walked searched directory
      have visited_iff := mem_frontier_iff_visited searched directory
      exact visited_iff
  · intro lists third
    rcases datePartitions_listedAt lists world with
      ⟨culprit, listed, out, failed⟩ | ⟨inside, names, ended, found⟩
    · refine ⟨iff_of_true ⟨culprit, failed⟩ ⟨culprit, listed, out⟩, ?_, ?_⟩
      · intro directory failed'
        cases failed.symm.trans failed'
        exact ⟨listed, out⟩
      · exact fun inside => absurd (inside culprit listed) out
    · refine ⟨iff_of_false ?_ ?_, ?_, fun _ => ⟨names, ended, found⟩⟩
      · rintro ⟨directory, failed⟩
        cases ended.symm.trans failed
      · rintro ⟨directory, listed, out⟩
        exact out (inside directory listed)
      · intro directory failed
        cases ended.symm.trans failed

/-- A listing of `lake/trips` that leads to `lake/trips2` and names one partition twice: the search goes
into the foreign directory and reports nothing of it, the search by date fails for what lies there. -/
theorem reports_only_below_root_foreign_directory :
    let root : Path := ⟨["lake", "trips"]⟩
    let foreign : Path := ⟨["lake", "trips2"]⟩
    let head : Path → Outcome StoreError Unit := fun path =>
      if path = (root.child "a").child ".hoodie_partition_metadata" then .done ()
      else .failed (.notFound "" "")
    let list : Path → Outcome StoreError Listing := fun path =>
      if path = root then
        .done { directories := [foreign, root.child "a", root.child "a"], files := [] }
      else if path.segments.length < 4 ∧ path ≠ root.child "a" then
        .done { directories := [path.child "b"], files := [] }
      else .done { directories := [], files := [] }
    let table : Table Unit := { store := Store.stateless head list, root, rounds := 0 }
    let world : World Unit := { memory := () }
    table.Finds [""] world (.done ["a"])
      ∧ Visited table.store root [""] foreign ∧ ¬ root.Encloses foreign
      ∧ (∃ directory, Visited table.store root [""] directory ∧ table.store.Marks directory
        ∧ Path.relativeName? root directory = some "a")
      ∧ ∃ directory, (table.datePartitions world).1 = .failed (.outside directory)
        ∧ ListedAt table.store root 3 directory ∧ ¬ root.Encloses directory := by
  intro root foreign head list table world
  have found : table.Finds [""] world (.done ["a"]) := by
    have ended : ((table.within 4).partitionsBelow [""] world).1 = .done ["a"] := by decide +kernel
    exact ended ▸ finds_of_ended (ended ▸ fun equal => by cases equal)
  have unmarked : (table.store.hasMarker root world).1 = .done false := by decide +kernel
  have bare : table.store.Bare root := (table.store.holdsOneOf_steady root _).endsIn_done unmarked
  have children : (table.store.directoriesIn root Layout.isBookkeeping world).1
      = .done [foreign, root.child "a", root.child "a"] := by
    decide +kernel
  have listed : table.store.Lists root [foreign, root.child "a", root.child "a"] :=
    (table.store.directoriesIn_steady root _).endsIn_done children
  have seed : Visited table.store root [""] (Path.resolve root "") :=
    .seed (List.mem_singleton_self "")
  have dated : (table.datePartitions world).1 = .failed (.outside ⟨["lake", "trips2", "b", "b"]⟩) := by
    decide +kernel
  have lists : ∀ level < 3, ∀ directory, ListedAt table.store table.root level directory →
      ∃ children, table.store.Lists directory children := by
    intro level _ directory _
    have answered : ∃ listing, list directory = .done listing := by
      unfold list
      split
      · exact ⟨_, rfl⟩
      · split <;> exact ⟨_, rfl⟩
    obtain ⟨listing, answered⟩ := answered
    have called : (table.store.callList directory .children).EndsIn (.done listing) :=
      fun _ => answered
    exact ⟨_, (called.mapError _).bind (Work.endsIn_pure _)⟩
  obtain ⟨searches, dates⟩ := reports_only_below_root table world
  obtain ⟨-, reported, -⟩ := (searches [""] _ found).1 ["a"] rfl
  refine ⟨found, .child seed bare listed List.mem_cons_self, ?_,
    (reported "a").mp (List.mem_singleton_self "a"), _, dated, (dates lists).2.1 _ dated⟩
  exact Path.relativeName?_eq_none_iff.mp (by decide +kernel)

end Table

end PartitionedTable
