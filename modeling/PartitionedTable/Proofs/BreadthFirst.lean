import Mathlib.Data.List.Count
import PartitionedTable.Proofs.Rounds
import PartitionedTable.Proofs.Dated

/-!
What a search touches when its tasks run one at a time. Round by round it visits the directories in
the order in which a single queue would give them out (`BreadthFirst`). The calls made for a visit
depend on the directory alone: the markers are tried up to the first that is there, and the directory
is listed if none is. How often a directory is visited can be told from the keys: as often as there
are seeds that reach it (`KeyStore.Reaches`).
-/

namespace PartitionedTable

/-- The order in which nodes leave a queue, when each of them puts at the end of the queue the nodes
that it leads to: `order` is what comes out of `queue` until it is empty. -/
inductive BreadthFirst {α : Type} (onward : α → List α) : List α → List α → Prop where
  | rest : BreadthFirst onward [] []
  | visit {node : α} {queue order : List α} (later : BreadthFirst onward (queue ++ onward node) order) :
      BreadthFirst onward (node :: queue) (node :: order)

namespace BreadthFirst

variable {α : Type} {onward : α → List α}

/-- A queue gives out only one order. -/
theorem unique {queue order order' : List α} (one : BreadthFirst onward queue order)
    (other : BreadthFirst onward queue order') : order = order' := by
  induction one generalizing order' with
  | rest =>
      cases other
      rfl
  | visit later ih =>
      cases other with
      | visit later' => rw [ih later']

/-- A whole level leaves the queue before what it leads to. -/
theorem level {front queue order : List α}
    (later : BreadthFirst onward (queue ++ front.flatMap onward) order) :
    BreadthFirst onward (front ++ queue) (front ++ order) := by
  induction front generalizing queue with
  | nil => simpa using later
  | cons node front ih =>
      rw [List.cons_append, List.cons_append]
      refine .visit ?_
      rw [List.append_assoc]
      apply ih
      simpa using later

end BreadthFirst

namespace KeyStore

variable (keys : KeyStore)

/-- Where a walk goes on from a directory: nowhere if it is marked. -/
def onward (directory : Path) : List Path :=
  if keys.Marked directory then [] else keys.children directory

theorem mem_onward_iff {directory path : Path} :
    path ∈ keys.onward directory ↔ ¬ keys.Marked directory ∧ path ∈ keys.children directory := by
  by_cases marked : keys.Marked directory <;> simp [onward, marked]

theorem nodup_onward (directory : Path) : (keys.onward directory).Nodup := by
  unfold onward
  split
  · exact List.nodup_nil
  · exact keys.nodup_children directory

instance (directory : Path) : Decidable (keys.Holds directory) :=
  decidable_of_iff (¬ (keys.listing directory).isEmpty = true) <| by
    rw [keys.isEmpty_listing_iff, not_not]

instance (root : Path) (spelling : String) : Decidable (keys.IsSeed root spelling) :=
  inferInstanceAs (Decidable (_ ∨ _))

/-- A walk that begins at `seed` comes to `directory`: it lies at or below `seed` off the bookkeeping
directory, something lies in it unless it is `seed` itself, and no directory on the way before it is
marked. -/
def Reaches (seed directory : Path) : Prop :=
  ∃ names, Path.below? seed directory = some names ∧ Layout.bookkeepingName ∉ names
    ∧ (names ≠ [] → keys.Holds directory)
    ∧ ∀ count < names.length, ¬ keys.Marked (seed.under (names.take count))

instance (seed directory : Path) : Decidable (keys.Reaches seed directory) :=
  match below : Path.below? seed directory with
  | none => isFalse fun ⟨_, found, _⟩ => by simp [below] at found
  | some names =>
      decidable_of_iff (Layout.bookkeepingName ∉ names ∧ (names ≠ [] → keys.Holds directory)
        ∧ ∀ count < names.length, ¬ keys.Marked (seed.under (names.take count))) <| by
          simp [Reaches, below]

variable {keys}

/-- A seed reaches itself, and what those reach that the walk goes on to. -/
theorem reaches_iff {seed directory : Path} :
    keys.Reaches seed directory
      ↔ directory = seed ∨ ∃ child ∈ keys.onward seed, keys.Reaches child directory := by
  simp only [Reaches, Path.below?_eq_some_iff_under]
  constructor
  · rintro ⟨names, rfl, kept, held, clear⟩
    cases names with
    | nil => exact .inl (Path.under_nil seed)
    | cons name names =>
        have plain : ¬ keys.Marked seed := by simpa using clear 0 (Nat.succ_pos _)
        have below := held (List.cons_ne_nil name names)
        obtain ⟨ordinary, kept⟩ := not_or.mp (List.mem_cons.not.mp kept)
        have listed := keys.child_mem_children below (Ne.symm ordinary)
        refine .inr ⟨seed.child name, keys.mem_onward_iff.mpr ⟨plain, listed⟩, names,
          (Path.child_under seed name names).symm, kept, fun _ => below, ?_⟩
        intro count inside
        rw [Path.child_under, ← List.take_succ_cons]
        exact clear (count + 1) (Nat.succ_lt_succ inside)
  · rintro (rfl | ⟨child, listed, names, rfl, kept, held, clear⟩)
    · exact ⟨[], (Path.under_nil directory).symm, by simp, by simp, by simp⟩
    · obtain ⟨plain, listed⟩ := keys.mem_onward_iff.mp listed
      obtain ⟨name, rfl, ordinary, present⟩ := keys.mem_children_iff.mp listed
      refine ⟨name :: names, Path.child_under seed name names, ?_, ?_, ?_⟩
      · rw [List.mem_cons, not_or]
        exact ⟨Ne.symm ordinary, kept⟩
      · intro _
        cases names with
        | nil => rwa [Path.under_nil]
        | cons second names => exact held (List.cons_ne_nil second names)
      · intro count inside
        cases count with
        | zero => simpa using plain
        | succ count =>
            rw [List.take_succ_cons, ← Path.child_under]
            exact clear count (Nat.lt_of_succ_lt_succ inside)

/-- What is reached from a child has the child's name on the way to it. -/
theorem Reaches.under_child {seed directory : Path} {name : String}
    (reached : keys.Reaches (seed.child name) directory) :
    ∃ names, directory = seed.under (name :: names) := by
  obtain ⟨names, below, -⟩ := reached
  refine ⟨names, ?_⟩
  rw [← Path.child_under]
  exact Path.below?_eq_some_iff_under.mp below

/-- Of what a walk goes on to, at most one directory reaches a given one, and none reaches back. -/
theorem countP_onward (seed directory : Path) :
    (keys.onward seed).countP (fun child => keys.Reaches child directory)
      = if directory ≠ seed ∧ keys.Reaches seed directory then 1 else 0 := by
  have named : ∀ child ∈ keys.onward seed, keys.Reaches child directory →
      ∃ name names, child = seed.child name ∧ directory = seed.under (name :: names) := by
    intro child listed reached
    obtain ⟨name, rfl, -⟩ := keys.mem_children_iff.mp (keys.mem_onward_iff.mp listed).2
    obtain ⟨names, located⟩ := reached.under_child
    exact ⟨name, names, rfl, located⟩
  by_cases further : ∃ child ∈ keys.onward seed, keys.Reaches child directory
  · obtain ⟨child, listed, reached⟩ := further
    obtain ⟨name, names, rfl, located⟩ := named child listed reached
    have below : directory ≠ seed := by
      intro same
      rw [same] at located
      cases seed.under_injective ((Path.under_nil seed).trans located)
    have only : ∀ other ∈ keys.onward seed,
        (decide (keys.Reaches other directory) = true ↔ (other == seed.child name) = true) := by
      intro other listed'
      rw [decide_eq_true_iff, beq_iff_eq]
      constructor
      · intro reached'
        obtain ⟨name', names', rfl, located'⟩ := named other listed' reached'
        obtain ⟨rfl, -⟩ := List.cons.inj (seed.under_injective (located'.symm.trans located))
        rfl
      · rintro rfl
        exact reached
    rw [if_pos ⟨below, reaches_iff.mpr (.inr ⟨_, listed, reached⟩)⟩, List.countP_congr only]
    exact List.count_eq_one_of_mem (keys.nodup_onward seed) listed
  · have none : ¬ (directory ≠ seed ∧ keys.Reaches seed directory) := by
      rintro ⟨below, reached⟩
      exact further ((reaches_iff.mp reached).resolve_left below)
    rw [if_neg none, List.countP_eq_zero]
    intro child listed reached
    exact further ⟨child, listed, of_decide_eq_true reached⟩

/-- What lies below a marked directory is not reached from where the directory is. -/
theorem Reaches.not_below_marked {seed directory : Path} (reached : keys.Reaches seed directory)
    (marked : keys.Marked directory) (name : String) (names : List String) :
    ¬ keys.Reaches seed (directory.under (name :: names)) := by
  rintro ⟨way, below, -, -, clear⟩
  obtain ⟨front, here, -⟩ := reached
  obtain rfl := Path.below?_eq_some_iff_under.mp here
  rw [Path.under_under, Path.below?_under] at below
  obtain rfl := Option.some.inj below
  apply clear front.length (by simp)
  rwa [List.take_left]

/-- A directory is visited as often as something in the queue reaches it. -/
theorem count_visited {queue visited : List Path} (order : BreadthFirst keys.onward queue visited)
    (directory : Path) :
    visited.count directory = queue.countP (fun seed => keys.Reaches seed directory) := by
  induction order with
  | rest => rfl
  | @visit node queue visited later ih =>
      rw [List.count_cons, ih, List.countP_append, List.countP_cons, countP_onward, Nat.add_assoc]
      congr 1
      by_cases here : directory = node
      · have reached : keys.Reaches node node := reaches_iff.mpr (.inl rfl)
        simp [here, reached]
      · simp [here, Ne.symm here]

end KeyStore

namespace Table

variable {keys : KeyStore} {table : Table Unit}

theorem announce_does (description : String) :
    (announce description : Job Unit Unit).Does () [] :=
  fun world => ⟨rfl, (List.append_nil world.calls).symm⟩

/-- What is left to visit after a round is where the walk goes on from its directories. -/
theorem next_directories (root : Path) (frontier : List Visit) :
    ((frontier.flatMap (yield keys root)).filterMap Finding.visit?).map Visit.directory
      = (frontier.map Visit.directory).flatMap keys.onward := by
  induction frontier with
  | nil => rfl
  | cons visit frontier ih =>
      have here : ((yield keys root visit).filterMap Finding.visit?).map Visit.directory
          = keys.onward visit.directory := by
        unfold yield KeyStore.onward
        split
        · rfl
        · rw [List.filterMap_map, List.map_filterMap]
          exact List.filterMap_some
      rw [List.flatMap_cons, List.filterMap_append, List.map_append, ih, here, List.map_cons,
        List.flatMap_cons]

/-- One task at a time, a walk visits directories in the order of a queue, and its calls are those of
the visits. Each round empties the queue of one level; the induction follows the walk. -/
theorem walk_visits (stored : table.store = keys.store) (single : table.options.parallelism ≤ 1)
    (status : String) (limit number : Nat) {frontier : List Visit}
    (below : ∀ visit ∈ frontier, ∃ names, visit.directory = table.root.under names)
    (fits : ∀ visit ∈ frontier, keys.Fits limit visit.directory) :
    ∃ visited rounds, BreadthFirst keys.onward (frontier.map Visit.directory) visited
      ∧ (table.walk status limit number frontier).Does rounds
        (visited.flatMap (visitCalls keys)) := by
  induction limit, number, frontier using walk.induct with
  | case1 limit number =>
      rw [walk]
      exact ⟨[], [], .rest, Work.does_pure []⟩
  | case2 number visit others => exact absurd (fits visit List.mem_cons_self).1 (Nat.lt_irrefl 0)
  | case3 limit number visit others ih =>
      rw [walk]
      generalize visit :: others = frontier at below fits ih ⊢
      have classified : (table.batchFlat number table.classify frontier).Does
          (frontier.flatMap (yield keys table.root))
          (frontier.flatMap fun visit => visitCalls keys visit.directory) := by
        refine Engine.flatMap_does_of_single (fun visit member => ?_) _ _ (slots_budget single _)
        obtain ⟨names, under⟩ := below visit member
        exact classify_does stored under
      let round : Round := { frontier, findings := frontier.flatMap (yield keys table.root) }
      have onward : ∀ next ∈ round.next, (∃ names, next.directory = table.root.under names)
          ∧ keys.Fits limit next.directory := by
        intro next member
        obtain ⟨visit, listed, left⟩ := List.mem_flatMap.mp (Round.mem_next_iff.mp member)
        obtain ⟨names, under⟩ := below visit listed
        exact fits_of_descend under (fits visit listed) left
      obtain ⟨visited, rounds, order, walked⟩ := ih round.findings (fun next member =>
        (onward next member).1) fun next member => (onward next member).2
      rw [show round.next.map Visit.directory = _ from next_directories table.root frontier] at order
      refine ⟨frontier.map Visit.directory ++ visited, round :: rounds, ?_, ?_⟩
      · have emptied : BreadthFirst keys.onward (_ ++ []) (_ ++ visited) := .level order
        rwa [List.append_nil] at emptied
      · rw [List.flatMap_append, List.flatMap_map, ← List.append_nil (visited.flatMap _)]
        exact (announce_does status).bind
          (classified.bind (walked.bind (Work.does_pure (round :: rounds))))

theorem search_visits (stored : table.store = keys.store) (single : table.options.parallelism ≤ 1)
    {spellings : List String} (existing : ∀ spelling ∈ spellings, keys.IsSeed table.root spelling)
    (fits : ∀ spelling ∈ spellings, keys.Fits table.rounds (Path.resolve table.root spelling)) :
    ∃ visited rounds,
      BreadthFirst keys.onward (spellings.map (Path.resolve table.root)) visited
      ∧ (table.search spellings).Does rounds
        ((spellings.map (Path.resolve table.root)).flatMap (checkCalls table.root)
          ++ visited.flatMap (visitCalls keys)) := by
  by_cases empty : spellings = []
  · subst empty
    exact ⟨[], [], .rest, Work.does_pure []⟩
  · have checked : (table.batch 0 table.checkSeed (table.seeds spellings)).Does
        ((table.seeds spellings).map fun _ => ())
        ((table.seeds spellings).flatMap fun seed => checkCalls table.root seed.directory) := by
      refine Engine.map_does_of_single (fun seed seeded => ?_) _ _ (slots_budget single _)
      obtain ⟨spelling, asked, rfl⟩ := List.mem_map.mp seeded
      exact checkSeed_does stored (existing spelling asked)
    have below : ∀ visit ∈ table.seeds spellings,
        (∃ names, visit.directory = table.root.under names)
          ∧ keys.Fits table.rounds visit.directory := by
      intro visit seeded
      obtain ⟨spelling, asked, rfl⟩ := List.mem_map.mp seeded
      exact ⟨⟨_, Path.resolve_eq_under table.root spelling⟩, fits spelling asked⟩
    obtain ⟨visited, rounds, order, walked⟩ := walk_visits stored single (searchStatus spellings)
      table.rounds 1 (fun visit seeded => (below visit seeded).1)
      fun visit seeded => (below visit seeded).2
    have resolved : (table.seeds spellings).map Visit.directory
        = spellings.map (Path.resolve table.root) := by
      simp [seeds]
    rw [resolved] at order
    rw [← List.flatMap_map, resolved] at checked
    rw [table.search_of_ne_nil empty]
    exact ⟨visited, rounds, order, checked.bind walked⟩

theorem of_mem_visitCalls {directory : Path} {call : Call}
    (made : call ∈ visitCalls keys directory) :
    (∃ name, call = .head (directory.child name))
      ∨ (¬ keys.Marked directory ∧ call = .list directory .children) := by
  rcases List.mem_append.mp made with probed | listed
  · obtain ⟨name, -, rfl⟩ := List.mem_map.mp probed
    exact .inl ⟨name, rfl⟩
  · split at listed
    · cases listed
    · rename_i plain
      exact .inr ⟨plain, List.mem_singleton.mp listed⟩

theorem nodup_visitCalls (directory : Path) : (visitCalls keys directory).Nodup := by
  let missing := fun name => !keys.contains (directory.child name)
  have tried : (Layout.markerNames.takeWhile missing
      ++ (Layout.markerNames.dropWhile missing).take 1).Nodup := by
    have all : Layout.markerNames.Nodup := by decide
    rw [← @List.takeWhile_append_dropWhile _ missing Layout.markerNames] at all
    exact all.sublist ((List.take_sublist 1 _).append_left _)
  have apart : Function.Injective fun name => Call.head (directory.child name) := by
    intro name name' same
    simpa using congrArg Path.name (Call.head.inj same)
  refine List.nodup_append.mpr ⟨tried.map apart, ?_, ?_⟩
  · split
    · exact List.nodup_nil
    · exact List.nodup_singleton _
  · rintro call probed other listed rfl
    obtain ⟨name, -, rfl⟩ := List.mem_map.mp probed
    split at listed
    · cases listed
    · cases List.mem_singleton.mp listed

/-- Visits of different directories have no call in common. -/
theorem nodup_flatMap_visitCalls {visited : List Path} (distinct : visited.Nodup) :
    (visited.flatMap (visitCalls keys)).Nodup := by
  rw [List.nodup_flatMap]
  refine ⟨fun directory _ => nodup_visitCalls directory, distinct.imp fun apart => ?_⟩
  intro call here there
  apply apart
  rcases of_mem_visitCalls here with ⟨name, rfl⟩ | ⟨-, rfl⟩
  · rcases of_mem_visitCalls there with ⟨name', same⟩ | ⟨-, same⟩
    · simpa using congrArg Path.parent (Call.head.inj same)
    · cases same
  · rcases of_mem_visitCalls there with ⟨name', same⟩ | ⟨-, same⟩
    · cases same
    · exact (Call.list.inj same).1

/-- What a search on a flat set of keys touches when its tasks run one at a time and the spelled
directories exist. After the checks of these it visits directories in the order in which a single
queue gives them out, which there is only one of, and calls nothing but what the visits need: the
markers up to the first that is there, and a listing if none is. A directory is visited as often as
there are spellings that reach it. One that is marked is never listed, and nothing below it is visited
on account of a spelling that reaches it. With a single spelling no call is made twice. -/
theorem partitionsBelow_touches (keys : KeyStore) (root : Path) (options : ListingOptions)
    (order : Nat → Engine.Order) (single : options.parallelism ≤ 1) {spellings : List String}
    (existing : ∀ spelling ∈ spellings, keys.IsSeed root spelling) :
    let table : Table Unit := { Table.ofKeys keys root options with order }
    let seeds := spellings.map (Path.resolve root)
    ∃ (visited : List Path) (names : List String),
      (∀ queued, BreadthFirst keys.onward seeds queued ↔ queued = visited)
      ∧ (table.partitionsBelow spellings).Does names
        (seeds.flatMap (checkCalls root) ++ visited.flatMap (visitCalls keys))
      ∧ (∀ directory,
        visited.count directory = seeds.countP fun seed => keys.Reaches seed directory)
      ∧ (∀ directory, keys.Marked directory →
        .list directory .children ∉ visited.flatMap (visitCalls keys)
          ∧ ∀ seed, keys.Reaches seed directory →
            ∀ name names, ¬ keys.Reaches seed (directory.under (name :: names)))
      ∧ (spellings.length ≤ 1 → (visited.flatMap (visitCalls keys)).Nodup) := by
  intro table seeds
  have stored : table.store = keys.store := rfl
  have fits : ∀ spelling ∈ spellings, keys.Fits table.rounds (Path.resolve root spelling) :=
    fun spelling _ => keys.fits_depth _
  obtain ⟨visited, rounds, order, walked⟩ := search_visits stored single existing fits
  have counted := KeyStore.count_visited order
  refine ⟨visited, (rounds.flatMap Round.partitions).eraseDups, fun queued => ?_, ?_, counted,
    fun directory marked => ⟨?_, fun seed reached => reached.not_below_marked marked⟩, ?_⟩
  · constructor
    · exact fun other => other.unique order
    · rintro rfl
      exact order
  · rw [← List.append_nil (_ ++ visited.flatMap _)]
    exact walked.bind (Work.does_pure _)
  · intro listed
    obtain ⟨other, -, made⟩ := List.mem_flatMap.mp listed
    rcases of_mem_visitCalls made with ⟨name, equal⟩ | ⟨plain, equal⟩
    · cases equal
    · exact plain ((Call.list.inj equal).1 ▸ marked)
  · intro alone
    apply nodup_flatMap_visitCalls
    rw [List.nodup_iff_count_le_one]
    intro directory
    rw [counted]
    calc seeds.countP _ ≤ seeds.length := List.countP_le_length
      _ = spellings.length := List.length_map _
      _ ≤ 1 := alone

/-- One marked directory, spelled once itself and once through the root: it is visited twice. -/
theorem partitionsBelow_touches_twice :
    let marker : FileEntry := ⟨⟨["a", ".hoodie_partition_metadata"]⟩, 10, default⟩
    let keys : KeyStore := { files := [marker] }
    let table : Table Unit :=
      { Table.ofKeys keys Path.top { parallelism := 1 } with order := fun _ _ => 0 }
    (∀ spelling ∈ ["", "a"], keys.IsSeed Path.top spelling)
      ∧ ∃ names, (table.partitionsBelow ["", "a"]).Does names
        ([.list ⟨["a"]⟩ .existence]
          ++ Layout.markerNames.map (fun name => .head ⟨[name]⟩) ++ [.list Path.top .children]
          ++ [.head marker.location, .head marker.location]) := by
  intro marker keys table
  have existing : ∀ spelling ∈ ["", "a"], keys.IsSeed Path.top spelling := by decide +kernel
  obtain ⟨visited, names, visits, does, -⟩ := partitionsBelow_touches keys Path.top
    { parallelism := 1 } (fun _ _ => 0) (Nat.le_refl 1) existing
  have below : keys.onward Path.top = [⟨["a"]⟩] := by decide +kernel
  have hidden : keys.onward ⟨["a"]⟩ = [] := by decide +kernel
  have order : BreadthFirst keys.onward (["", "a"].map (Path.resolve Path.top))
      [Path.top, ⟨["a"]⟩, ⟨["a"]⟩] := by
    have resolved : ["", "a"].map (Path.resolve Path.top) = [Path.top, ⟨["a"]⟩] := by
      decide +kernel
    rw [resolved]
    refine .visit ?_
    rw [below]
    refine .visit ?_
    rw [hidden]
    refine .visit ?_
    rw [hidden]
    exact .rest
  obtain rfl := (visits _).mp order
  refine ⟨existing, names, ?_⟩
  convert does using 1
  decide +kernel

end Table

end PartitionedTable
