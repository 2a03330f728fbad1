import PartitionedTable.Proofs.Handback

/-!
When it is safe to take a table as partitioned by date. The search by markers stops at the topmost
marked directory of each branch, the search by date counts three levels and looks at no marker. They
find the same directories exactly if every branch is marked for the first time three levels down
(`KeyStore.ByDate`): a marked directory higher up is found by markers only, or hides what the other
search finds, and one three levels down without a marker is found by date only.
-/

namespace PartitionedTable

namespace KeyStore

variable (keys : KeyStore)

/-- The table at `root` is laid out by date: off the bookkeeping directory, no directory less than
three levels down is marked, and each one three levels down is. -/
structure ByDate (root : Path) : Prop where
  plain : ∀ levels directory, levels < Table.dateDepth →
    keys.IsDescendant levels root directory → ¬ keys.Marked directory
  marked : ∀ directory, keys.IsDescendant Table.dateDepth root directory → keys.Marked directory

variable {keys}

/-- What lies above a directory that holds something lies on the way down to it. -/
theorem isDescendant_front {root : Path} {front rest : List String}
    (held : keys.Holds (root.under (front ++ rest)))
    (kept : Layout.bookkeepingName ∉ front ++ rest) :
    keys.IsDescendant front.length root (root.under front) := by
  refine ⟨front, rfl, rfl, fun member => kept (List.mem_append_left rest member), fun _ => ?_⟩
  obtain ⟨entry, stored, name, names, located⟩ := held
  rw [Path.under_under, List.append_assoc] at located
  cases rest with
  | nil => exact ⟨entry, stored, name, names, by rw [located, Path.under_under, List.nil_append]⟩
  | cons next rest =>
      exact ⟨entry, stored, next, rest ++ name :: names, by rw [located, Path.under_under]; rfl⟩

theorem reported_self {seed : Path} (marked : keys.Marked seed) :
    keys.Reported seed (seed.under []) := by
  rw [Path.under_nil]
  exact (keys.reported_iff_of_marked marked).mpr rfl

/-- A marked directory off the bookkeeping directory is reported or has a reported one above it: the
topmost that is marked. -/
theorem exists_reported_above {seed : Path} {names : List String}
    (marked : keys.Marked (seed.under names)) (kept : Layout.bookkeepingName ∉ names) :
    ∃ front, front <+: names ∧ keys.Reported seed (seed.under front) := by
  induction names generalizing seed with
  | nil =>
      rw [Path.under_nil] at marked
      exact ⟨[], List.nil_prefix, reported_self marked⟩
  | cons name names ih =>
      by_cases here : keys.Marked seed
      · exact ⟨[], List.nil_prefix, reported_self here⟩
      · obtain ⟨ordinary, kept⟩ := not_or.mp (List.mem_cons.not.mp kept)
        have listed := keys.child_mem_children (keys.holds_of_marked marked) (Ne.symm ordinary)
        rw [← Path.child_under] at marked
        obtain ⟨front, shorter, reported⟩ := ih marked kept
        refine ⟨name :: front, List.cons_prefix_cons.mpr ⟨rfl, shorter⟩, ?_⟩
        rw [← Path.child_under]
        exact (keys.reported_iff_of_not_marked here).mpr ⟨_, listed, reported⟩

/-- In a table laid out by date, what is reported lies three levels down. -/
theorem ByDate.isDescendant_of_reported {root directory : Path} (dated : keys.ByDate root)
    (reported : keys.Reported root directory) :
    keys.IsDescendant Table.dateDepth root directory := by
  obtain ⟨names, rfl, marked, kept, topmost⟩ := reported
  have held := keys.holds_of_marked marked
  have descends : keys.IsDescendant names.length root (root.under names) :=
    ⟨names, rfl, rfl, kept, fun _ => held⟩
  rcases Nat.lt_trichotomy names.length Table.dateDepth with above | level | below
  · exact absurd marked (dated.plain _ _ above descends)
  · exact level ▸ descends
  · -- The directory three levels down on the way is marked, so it hides this one.
    have cut := List.take_append_drop Table.dateDepth names
    have count : (names.take Table.dateDepth).length = Table.dateDepth :=
      List.length_take_of_le (Nat.le_of_lt below)
    rw [← cut] at held kept
    have way := isDescendant_front held kept
    rw [count] at way
    have rest : names.drop Table.dateDepth ≠ [] := by
      rw [ne_eq, List.drop_eq_nil_iff]
      omega
    exact absurd (dated.marked _ way) (topmost _ _ cut.symm rest)

/-- In a table laid out by date, what lies three levels down is reported. -/
theorem ByDate.reported_of_isDescendant {root directory : Path} (dated : keys.ByDate root)
    (descends : keys.IsDescendant Table.dateDepth root directory) : keys.Reported root directory := by
  have marked := dated.marked directory descends
  obtain ⟨names, count, rfl, kept, -⟩ := descends
  refine ⟨names, rfl, marked, kept, ?_⟩
  rintro front rest rfl filled
  have shorter : front.length < Table.dateDepth := by
    rw [← count, List.length_append]
    have := List.length_pos_of_ne_nil filled
    omega
  exact dated.plain _ _ shorter (isDescendant_front (keys.holds_of_marked marked) kept)

/-- The two searches come upon the same directories exactly in a table laid out by date. -/
theorem isDescendant_iff_reported_iff_byDate {root : Path} :
    (∀ directory, keys.IsDescendant Table.dateDepth root directory ↔ keys.Reported root directory)
      ↔ keys.ByDate root := by
  constructor
  · intro same
    constructor
    · rintro levels directory above ⟨names, count, rfl, kept, -⟩ marked
      obtain ⟨front, shorter, reported⟩ := exists_reported_above marked kept
      obtain ⟨names', count', located, -⟩ := (same _).mpr reported
      obtain rfl := root.under_injective located
      have bound := shorter.length_le
      omega
    · intro directory descends
      obtain ⟨_, _, marked, _⟩ := (same directory).mp descends
      exact marked
  · exact fun dated directory => ⟨dated.reported_of_isDescendant, dated.isDescendant_of_reported⟩

/-- Directories of the store with the same name under a root are the same. -/
theorem eq_of_relativeName?_eq (valid : keys.Valid) {root directory directory' : Path} {name : String}
    (held : keys.Holds directory) (held' : keys.Holds directory')
    (named : Path.relativeName? root directory = some name)
    (named' : Path.relativeName? root directory' = some name) : directory = directory' := by
  obtain ⟨names, rfl, rfl⟩ := Path.relativeName?_eq_some_iff.mp named
  obtain ⟨names', rfl, same⟩ := Path.relativeName?_eq_some_iff.mp named'
  rw [keys.names_eq_of_text_eq valid held held' same.symm]

/-- A set of directories whose names are among those of another is a part of it. -/
theorem mem_of_names_subset (valid : keys.Valid) {root : Path} {left right : Path → Prop}
    (leftHeld : ∀ directory, left directory →
      keys.Holds directory ∧ ∃ names, directory = root.under names)
    (rightHeld : ∀ directory, right directory → keys.Holds directory)
    (subset : ∀ name, (∃ directory, left directory ∧ Path.relativeName? root directory = some name) →
      ∃ directory, right directory ∧ Path.relativeName? root directory = some name)
    {directory : Path} (member : left directory) : right directory := by
  obtain ⟨held, names, rfl⟩ := leftHeld directory member
  have named := Path.relativeName?_under root names
  obtain ⟨other, member', named'⟩ := subset _ ⟨_, member, named⟩
  obtain rfl := eq_of_relativeName?_eq valid (rightHeld other member') held named' named
  exact member'

/-- Two sets of directories at or below a root are the same if they have the same names. -/
theorem same_names_iff (valid : keys.Valid) {root : Path} {left right : Path → Prop}
    (leftHeld : ∀ directory, left directory →
      keys.Holds directory ∧ ∃ names, directory = root.under names)
    (rightHeld : ∀ directory, right directory →
      keys.Holds directory ∧ ∃ names, directory = root.under names) :
    (∀ name, (∃ directory, left directory ∧ Path.relativeName? root directory = some name)
        ↔ ∃ directory, right directory ∧ Path.relativeName? root directory = some name)
      ↔ ∀ directory, left directory ↔ right directory := by
  constructor
  · intro same directory
    constructor
    · exact mem_of_names_subset valid leftHeld (fun other member => (rightHeld other member).1)
        fun name => (same name).mp
    · exact mem_of_names_subset valid rightHeld (fun other member => (leftHeld other member).1)
        fun name => (same name).mpr
  · intro same name
    exact exists_congr fun directory => and_congr_left fun _ => same directory

theorem holds_of_isDescendant {root directory : Path}
    (descends : keys.IsDescendant Table.dateDepth root directory) :
    keys.Holds directory ∧ ∃ names, directory = root.under names := by
  obtain ⟨names, count, located, -, held⟩ := descends
  refine ⟨held ?_, names, located⟩
  rintro rfl
  cases count

theorem holds_of_reported {root directory : Path} (reported : keys.Reported root directory) :
    keys.Holds directory ∧ ∃ names, directory = root.under names := by
  obtain ⟨names, located, marked, -⟩ := reported
  exact ⟨keys.holds_of_marked marked, names, located⟩

end KeyStore

namespace Table

/-- Taking a table as partitioned by date is safe exactly if it is laid out by date. All partitions
are asked for twice, once with the option set and once without; budgets, schedules and what was done
before may differ. Both searches succeed, and they give the same set of partitions if and only if no
directory at the root or one or two levels down is marked and every one three levels down is, the
bookkeeping directory and what lies in it left out. -/
theorem partitions_agree_iff_byDate (keys : KeyStore) (valid : keys.Valid) (root : Path)
    (options options' : ListingOptions) (order order' : Nat → Engine.Order)
    (world world' : World Unit) :
    let dated : Table Unit :=
      { Table.ofKeys keys root { options with assumeDatePartitioning := true } with order }
    let walked : Table Unit :=
      { Table.ofKeys keys root { options' with assumeDatePartitioning := false } with order := order' }
    ∃ names names', (dated.partitions world).1 = .done names ∧ names.Nodup
      ∧ (walked.partitions world').1 = .done names' ∧ names'.Nodup
      ∧ ((∀ name, name ∈ names ↔ name ∈ names') ↔ keys.ByDate root) := by
  intro dated walked
  have seed : ∀ spelling ∈ [""], keys.IsSeed walked.root spelling := by
    intro spelling member
    rw [List.mem_singleton.mp member]
    exact .inl (Path.under_nil root)
  have stored : dated.store = keys.store := rfl
  have stored' : walked.store = keys.store := rfl
  obtain ⟨names, ended, distinct, found⟩ := datePartitions_done stored world
  obtain ⟨names', ended', distinct', found'⟩ :=
    partitionsBelow_done stored' (Nat.lt_succ_self keys.depth) seed world'
  refine ⟨names, names', ended, distinct, ended', distinct', ?_⟩
  have fromRoot : ∀ name, name ∈ names'
      ↔ ∃ directory, keys.Reported root directory ∧ Path.relativeName? root directory = some name := by
    intro name
    rw [found' name]
    have atRoot : Path.resolve walked.root "" = root := Path.under_nil root
    simp only [List.mem_singleton, exists_eq_left, atRoot]
    rfl
  rw [← keys.isDescendant_iff_reported_iff_byDate,
    ← KeyStore.same_names_iff valid (fun _ => KeyStore.holds_of_isDescendant)
      fun _ => KeyStore.holds_of_reported]
  exact forall_congr' fun name => iff_congr (found name) (fromRoot name)

/-- One day three levels down is found either way; a marker on its month shows to one search only. -/
theorem partitions_agree_iff_byDate_one_day :
    let day : FileEntry := ⟨⟨["2024", "03", "01", ".hoodie_partition_metadata"]⟩, 10, default⟩
    let month : FileEntry := ⟨⟨["2024", "03", ".hoodie_partition_metadata.orc"]⟩, 10, default⟩
    let daily : KeyStore := { files := [day] }
    let monthly : KeyStore := { files := [day, month], distinct := by decide }
    daily.Valid ∧ daily.ByDate Path.top ∧ monthly.Valid ∧ ¬ monthly.ByDate Path.top := by
  intro day month daily monthly
  have valid : daily.Valid := by
    simp [KeyStore.Valid, Path.Valid, Path.IsName, daily, day]
  have valid' : monthly.Valid := by
    simp [KeyStore.Valid, Path.Valid, Path.IsName, monthly, day, month]
  let dated (keys : KeyStore) : Table Unit :=
    { Table.ofKeys keys Path.top { assumeDatePartitioning := true } with order := fun _ _ => 1 }
  let walked (keys : KeyStore) : Table Unit :=
    { Table.ofKeys keys Path.top { assumeDatePartitioning := false } with order := fun _ _ => 0 }
  let world : World Unit := { memory := () }
  refine ⟨valid, ?_, valid', ?_⟩
  · obtain ⟨names, names', ended, -, ended', -, same⟩ := partitions_agree_iff_byDate daily valid
      Path.top {} {} (fun _ _ => 1) (fun _ _ => 0) world world
    have found : ((dated daily).partitions world).1 = .done ["2024/03/01"] := by decide +kernel
    have found' : ((walked daily).partitions world).1 = .done ["2024/03/01"] := by decide +kernel
    cases found.symm.trans ended
    cases found'.symm.trans ended'
    exact same.mp fun name => Iff.rfl
  · obtain ⟨names, names', ended, -, ended', -, same⟩ := partitions_agree_iff_byDate monthly valid'
      Path.top {} {} (fun _ _ => 1) (fun _ _ => 0) world world
    have found : ((dated monthly).partitions world).1 = .done ["2024/03/01"] := by decide +kernel
    have found' : ((walked monthly).partitions world).1 = .done ["2024/03"] := by decide +kernel
    cases found.symm.trans ended
    cases found'.symm.trans ended'
    intro byDate
    have missed := same.mpr byDate "2024/03"
    simp at missed

end Table

end PartitionedTable
