import Mathlib.Data.List.Nodup
import PartitionedTable.Proofs.Marked

/-!
Which directories a fixed number of levels down a search finds on a flat set of keys: those that
hold something and are reached by that many names, none of them the bookkeeping name. The listings
of one level split this set by the first name, as the rounds of a walk do for marked directories.
Each level is listed once and completely before the next one (`KeyStore.Tier`).
-/

namespace PartitionedTable

namespace KeyStore

variable (keys : KeyStore)

/-- `path` lies `levels` levels below `directory` and is listed on the way down from it. -/
def IsDescendant (levels : Nat) (directory path : Path) : Prop :=
  ∃ names, names.length = levels ∧ path = directory.under names
    ∧ Layout.bookkeepingName ∉ names ∧ (names ≠ [] → keys.Holds path)

theorem isDescendant_zero_iff {directory path : Path} :
    keys.IsDescendant 0 directory path ↔ path = directory := by
  constructor
  · rintro ⟨names, none, rfl, _, _⟩
    rw [List.length_eq_zero_iff.mp none, Path.under_nil]
  · rintro rfl
    exact ⟨[], rfl, (Path.under_nil path).symm, List.not_mem_nil, fun filled => absurd rfl filled⟩

theorem isDescendant_succ_iff {levels : Nat} {directory path : Path} :
    keys.IsDescendant (levels + 1) directory path
      ↔ ∃ child ∈ keys.children directory, keys.IsDescendant levels child path := by
  constructor
  · rintro ⟨names, count, rfl, kept, held⟩
    cases names with
    | nil => cases count
    | cons name names =>
        have ordinary : name ≠ Layout.bookkeepingName :=
          fun equal => kept (equal ▸ List.mem_cons_self)
        have below := held (List.cons_ne_nil name names)
        refine ⟨directory.child name, keys.child_mem_children below ordinary, names,
          Nat.succ.inj count, ?_, fun member => kept (List.mem_cons_of_mem name member),
          fun _ => below⟩
        rw [Path.child_under]
  · rintro ⟨child, listed, names, rfl, rfl, kept, held⟩
    obtain ⟨name, rfl, ordinary, present⟩ := keys.mem_children_iff.mp listed
    refine ⟨name :: names, rfl, ?_, ?_, ?_⟩
    · rw [Path.child_under]
    · rw [List.mem_cons, not_or]
      exact ⟨Ne.symm ordinary, kept⟩
    · intro _
      cases names with
      | nil => rwa [Path.under_nil]
      | cons second names => exact held (List.cons_ne_nil second names)

/-- A directory lies only one number of levels below another. -/
theorem IsDescendant.levels_eq {levels levels' : Nat} {directory path : Path}
    (one : keys.IsDescendant levels directory path)
    (other : keys.IsDescendant levels' directory path) : levels = levels' := by
  obtain ⟨names, count, located, -⟩ := one
  obtain ⟨names', count', located', -⟩ := other
  obtain rfl := directory.under_injective (located.symm.trans located')
  exact count.symm.trans count'

/-- Three levels down, in terms of the keys: some key has at least one more segment. -/
theorem isDescendant_three_iff {directory path : Path} :
    keys.IsDescendant 3 directory path ↔ ∃ a b c, Layout.bookkeepingName ∉ [a, b, c]
      ∧ path = directory.under [a, b, c] ∧ ∃ entry ∈ keys.files, ∃ fourth rest,
        entry.location = directory.under (a :: b :: c :: fourth :: rest) := by
  constructor
  · rintro ⟨names, count, rfl, kept, held⟩
    obtain ⟨a, b, c, rfl⟩ := List.length_eq_three.mp count
    obtain ⟨entry, stored, fourth, rest, located⟩ := held (List.cons_ne_nil a [b, c])
    rw [Path.under_under] at located
    exact ⟨a, b, c, kept, rfl, entry, stored, fourth, rest, located⟩
  · rintro ⟨a, b, c, kept, rfl, entry, stored, fourth, rest, located⟩
    refine ⟨[a, b, c], rfl, rfl, kept, fun _ => ⟨entry, stored, fourth, rest, ?_⟩⟩
    rw [located, Path.under_under]
    rfl

theorem nodup_children (directory : Path) : (keys.children directory).Nodup := by
  have distinct : (keys.namesBelow directory).Nodup := by
    unfold namesBelow
    exact (List.mergeSort_perm _ _).nodup_iff.mpr (Table.nodup_eraseDups _)
  have injective : Function.Injective directory.child := fun name name' same => by
    simpa using congrArg Path.name same
  exact (distinct.map injective).filter _

/-- Different directories have no child in common. -/
theorem nodup_flatMap_children {directories : List Path} (distinct : directories.Nodup) :
    (directories.flatMap keys.children).Nodup := by
  rw [List.nodup_flatMap]
  refine ⟨fun directory _ => keys.nodup_children directory, distinct.imp fun apart => ?_⟩
  intro path here there
  obtain ⟨name, rfl, -⟩ := keys.mem_children_iff.mp here
  obtain ⟨name', same, -⟩ := keys.mem_children_iff.mp there
  apply apart
  simpa using congrArg Path.parent same

/-- `tier` holds each directory that lies `levels` levels below one of `frontier` once. -/
structure Tier (levels : Nat) (frontier tier : List Path) : Prop where
  distinct : tier.Nodup
  mem_iff : ∀ path, path ∈ tier ↔ ∃ directory ∈ frontier, keys.IsDescendant levels directory path

theorem tier_zero {frontier turn : List Path} (distinct : frontier.Nodup)
    (chosen : turn.Perm frontier) : keys.Tier 0 frontier turn := by
  refine ⟨chosen.nodup_iff.mpr distinct, fun path => ?_⟩
  simp [keys.isDescendant_zero_iff, chosen.mem_iff]

theorem tier_nil (levels : Nat) : keys.Tier levels [] [] :=
  ⟨List.nodup_nil, fun path => by simp⟩

/-- What lies some levels below the children lies a level more below the frontier. -/
theorem Tier.up {levels : Nat} {frontier turn tier : List Path} (chosen : turn.Perm frontier)
    (below : keys.Tier levels (turn.flatMap keys.children) tier) :
    keys.Tier (levels + 1) frontier tier := by
  refine ⟨below.distinct, fun path => ?_⟩
  rw [below.mem_iff]
  constructor
  · rintro ⟨child, member, further⟩
    obtain ⟨directory, member, listed⟩ := List.mem_flatMap.mp member
    exact ⟨directory, chosen.mem_iff.mp member, keys.isDescendant_succ_iff.mpr ⟨child, listed, further⟩⟩
  · rintro ⟨directory, member, further⟩
    obtain ⟨child, listed, further⟩ := keys.isDescendant_succ_iff.mp further
    exact ⟨child, List.mem_flatMap.mpr ⟨directory, chosen.mem_iff.mpr member, listed⟩, further⟩

end KeyStore

namespace Table

variable {keys : KeyStore} {table : Table Unit}

theorem childrenByName_does (stored : table.store = keys.store) (directory : Path) :
    (table.childrenByName directory).Does (keys.children directory)
      [.list directory .children] := by
  have listed : (table.store.directoriesIn directory Layout.isBookkeeping).Does
      (keys.children directory) [.list directory .children] :=
    stored ▸ keys.directoriesIn_does directory Layout.isBookkeeping
  exact listed.mapError _

theorem batchFlat_does {ι ο : Type} (table : Table Unit) {task : ι → Job Unit (List ο)}
    {values : ι → List ο} {made : ι → List Call} {items : List ι}
    (does : ∀ item ∈ items, (task item).Does (values item) (made item)) (number : Nat)
    (world : World Unit) :
    ∃ turn : List ι, turn.Perm items
      ∧ (table.batchFlat number task items world).1 = .done (turn.flatMap values)
      ∧ (table.batchFlat number task items world).2.calls = world.calls ++ turn.flatMap made :=
  Engine.flatMap_does does .taskFailed (table.order number) (table.options.budget items.length) world

/-- Going down from a frontier lists every directory on the way once, level by level, and finds what
lies that many levels below. -/
theorem descendants_tiers (stored : table.store = keys.store) (levels number : Nat)
    {frontier : List Path} (distinct : frontier.Nodup) (world : World Unit) :
    ∃ (tiers : List (List Path)) (found : List Path),
      (table.descendants levels number frontier world).1 = .done found
      ∧ (table.descendants levels number frontier world).2.calls
        = world.calls ++ tiers.flatten.map (.list · .children)
      ∧ tiers.length = levels
      ∧ (∀ (level : Nat) (tier : List Path), tiers[level]? = some tier →
        keys.Tier level frontier tier)
      ∧ keys.Tier levels frontier found := by
  induction levels, number, frontier using descendants.induct generalizing world with
  | case1 number frontier =>
      refine ⟨[], frontier, rfl, by simp [descendants], rfl, by simp, ?_⟩
      exact keys.tier_zero distinct (.refl frontier)
  | case2 number levels =>
      refine ⟨List.replicate (levels + 1) [], [], rfl, by simp [descendants], by simp, ?_,
        keys.tier_nil (levels + 1)⟩
      intro level tier reached
      obtain rfl := List.eq_of_mem_replicate (List.mem_of_getElem? reached)
      exact keys.tier_nil level
  | case3 levels number directory others ih =>
      rw [descendants]
      generalize directory :: others = frontier at distinct ⊢
      obtain ⟨turn, chosen, ended, calls⟩ := table.batchFlat_does
        (fun directory (_ : directory ∈ frontier) => childrenByName_does stored directory)
        number world
      rw [← List.map_eq_flatMap] at calls
      have once := chosen.nodup_iff.mpr distinct
      rw [Work.bind_of_done ended]
      obtain ⟨tiers, found, ended, later, count, each, last⟩ := ih (turn.flatMap keys.children)
        (keys.nodup_flatMap_children once)
        (table.batchFlat number table.childrenByName frontier world).2
      refine ⟨turn :: tiers, found, ended, ?_, by simp [count], ?_, last.up keys chosen⟩
      · rw [later, calls]
        simp
      · intro level tier reached
        cases level with
        | zero =>
            obtain rfl : turn = tier := by simpa using reached
            exact keys.tier_zero distinct chosen
        | succ level => exact (each level tier (by simpa using reached)).up keys chosen

/-- A search by date ends with the names of the directories three levels down, and its calls are the
listings of the levels above. -/
theorem datePartitions_tiers (stored : table.store = keys.store) (world : World Unit) :
    ∃ (tiers : List (List Path)) (names : List String),
      (table.datePartitions world).1 = .done names ∧ names.Nodup
      ∧ (∀ name, name ∈ names ↔ ∃ directory, keys.IsDescendant dateDepth table.root directory
        ∧ Path.relativeName? table.root directory = some name)
      ∧ (table.datePartitions world).2.calls
        = world.calls ++ tiers.flatten.map (.list · .children)
      ∧ tiers.length = dateDepth
      ∧ ∀ (level : Nat) (tier : List Path), tiers[level]? = some tier →
        keys.Tier level [table.root] tier := by
  unfold datePartitions
  rw [Work.bind_of_done rfl]
  have unheard : (announce "Listing date partitions three levels down" world).2.calls = world.calls :=
    rfl
  rw [← unheard]
  generalize (announce "Listing date partitions three levels down" world).2 = world
  obtain ⟨tiers, directories, ended, calls, count, each, found⟩ :=
    descendants_tiers stored dateDepth 0 (List.nodup_singleton table.root) world
  have below : ∀ directory ∈ directories,
      ∃ name, Path.relativeName? table.root directory = some name := by
    intro directory member
    obtain ⟨_, atRoot, names, _, rfl, _⟩ := (found.mem_iff directory).mp member
    rw [List.mem_singleton.mp atRoot]
    exact ⟨_, Path.relativeName?_under table.root names⟩
  obtain ⟨told, silent⟩ := mapM_partitionName_does table below
    (table.descendants dateDepth 0 [table.root] world).2
  rw [Work.bind_of_done ended, Work.bind_of_done told]
  refine ⟨tiers, _, rfl, nodup_eraseDups _, fun name => ?_, ?_, count, each⟩
  · rw [List.mem_eraseDups, List.mem_map]
    constructor
    · rintro ⟨directory, member, rfl⟩
      obtain ⟨name, named⟩ := below directory member
      obtain ⟨_, atRoot, further⟩ := (found.mem_iff directory).mp member
      rw [List.mem_singleton.mp atRoot] at further
      exact ⟨directory, further, by simp [named]⟩
    · rintro ⟨directory, further, named⟩
      refine ⟨directory, (found.mem_iff directory).mpr ⟨_, List.mem_singleton_self _, further⟩, ?_⟩
      simp [named]
  · show (directories.mapM table.partitionName _).2.calls = _
    rw [silent, List.append_nil, calls]

theorem datePartitions_done (stored : table.store = keys.store) (world : World Unit) :
    ∃ names, (table.datePartitions world).1 = .done names ∧ names.Nodup
      ∧ ∀ name, name ∈ names ↔ ∃ directory, keys.IsDescendant dateDepth table.root directory
        ∧ Path.relativeName? table.root directory = some name := by
  obtain ⟨_, names, ended, distinct, found, -⟩ := datePartitions_tiers stored world
  exact ⟨names, ended, distinct, found⟩

/-- A search by date on a flat set of keys always succeeds. It finds exactly the names of three parts,
none of them the bookkeeping name, that some key below the root begins with and goes on from; markers
play no part. All its calls are listings: of the root, then of each directory one level down, then of
each directory two levels down, off the bookkeeping directory, every one of them once. The budget of
tasks and the schedule make no difference but for the order within a level. -/
theorem datePartitions_exact (keys : KeyStore) (root : Path) (options : ListingOptions)
    (order : Nat → Engine.Order) (world : World Unit) :
    let table : Table Unit := { Table.ofKeys keys root options with order }
    ∃ (names : List String) (ones twos : List Path),
      (table.datePartitions world).1 = .done names ∧ names.Nodup
      ∧ (∀ name, name ∈ names ↔ ∃ a b c, Layout.bookkeepingName ∉ [a, b, c]
        ∧ name = "/".intercalate [a, b, c] ∧ ∃ entry ∈ keys.files, ∃ fourth rest,
          entry.location = root.under (a :: b :: c :: fourth :: rest))
      ∧ (table.datePartitions world).2.calls
        = world.calls ++ (root :: (ones ++ twos)).map (.list · .children)
      ∧ (root :: (ones ++ twos)).Nodup
      ∧ (∀ directory, directory ∈ ones ↔ keys.IsDescendant 1 root directory)
      ∧ ∀ directory, directory ∈ twos ↔ keys.IsDescendant 2 root directory := by
  intro table
  have stored : table.store = keys.store := rfl
  obtain ⟨tiers, names, ended, distinct, found, calls, count, each⟩ :=
    datePartitions_tiers stored world
  obtain ⟨zeros, ones, twos, rfl⟩ := List.length_eq_three.mp count
  have one_iff : ∀ directory, directory ∈ ones ↔ keys.IsDescendant 1 root directory := fun directory =>
    ((each 1 ones rfl).mem_iff directory).trans (by simp [table, Table.ofKeys])
  have two_iff : ∀ directory, directory ∈ twos ↔ keys.IsDescendant 2 root directory := fun directory =>
    ((each 2 twos rfl).mem_iff directory).trans (by simp [table, Table.ofKeys])
  have atRoot : zeros = [root] := by
    have first := each 0 zeros rfl
    apply List.perm_singleton.mp
    rw [List.perm_ext_iff_of_nodup first.distinct (List.nodup_singleton root)]
    intro directory
    rw [first.mem_iff]
    simp [keys.isDescendant_zero_iff, table, Table.ofKeys]
  have zero : keys.IsDescendant 0 root root := keys.isDescendant_zero_iff.mpr rfl
  refine ⟨names, ones, twos, ended, distinct, fun name => ?_, ?_, ?_, one_iff, two_iff⟩
  · rw [found]
    constructor
    · rintro ⟨directory, further, named⟩
      obtain ⟨a, b, c, kept, rfl, held⟩ := keys.isDescendant_three_iff.mp further
      rw [Path.relativeName?_under] at named
      exact ⟨a, b, c, kept, (Option.some.inj named).symm, held⟩
    · rintro ⟨a, b, c, kept, rfl, held⟩
      exact ⟨_, keys.isDescendant_three_iff.mpr ⟨a, b, c, kept, rfl, held⟩,
        Path.relativeName?_under root [a, b, c]⟩
  · rw [calls, atRoot]
    simp
  · -- A directory lies on one level only, so none is listed on two.
    rw [List.nodup_cons, List.nodup_append, List.mem_append, not_or, one_iff, two_iff]
    refine ⟨⟨fun also => ?_, fun also => ?_⟩, (each 1 ones rfl).distinct, (each 2 twos rfl).distinct, ?_⟩
    · cases zero.levels_eq keys also
    · cases zero.levels_eq keys also
    · rintro directory here other there rfl
      cases ((one_iff directory).mp here).levels_eq keys ((two_iff directory).mp there)

end Table

end PartitionedTable
