import PartitionedTable.Proofs.Marked

/-!
The rounds of a walk, one by one. Whatever classifying a directory hands on to the directories it
leads to holds in every round (`Table.walk_gives`). On a flat set of keys that is how far below its
seed a directory lies, and that a key lies below it. So the keys bound the rounds: the walk ends when
it is past the deepest of them, although nothing in it counts.
-/

namespace PartitionedTable

namespace Table

/-- A round classifies something, only visits that are as they should be, and finds what classifying
them may find. -/
structure Round.Keeps (holds : Visit → Prop) (follows : Visit → Finding → Prop) (round : Round) :
    Prop where
  filled : round.frontier ≠ []
  held : ∀ visit ∈ round.frontier, holds visit
  found : ∀ finding ∈ round.findings, ∃ visit ∈ round.frontier, follows visit finding

section Invariants

variable {μ : Type} {table : Table μ} {holds : Nat → Visit → Prop}
  {follows : Visit → Finding → Prop}

/-- What one round hands on to the next, from `depth` rounds into the walk on, all rounds from there
on have. The induction follows the walk. -/
theorem walk_gives
    (classifies : ∀ depth visit, holds depth visit → (table.classify visit).Gives
      fun findings => ∀ finding ∈ findings, follows visit finding)
    (goesOn : ∀ depth visit next, holds depth visit → follows visit (.descend next) →
      holds (depth + 1) next)
    (status : String) (limit number depth : Nat) {frontier : List Visit}
    (begins : ∀ visit ∈ frontier, holds depth visit) :
    (table.walk status limit number frontier).Gives fun rounds =>
      ∀ (position : Nat) (round : Round), rounds[position]? = some round →
        round.Keeps (holds (depth + position)) follows := by
  induction limit, number, frontier using walk.induct generalizing depth with
  | case1 limit number =>
      rw [walk]
      exact Work.gives_pure fun position round reached => by simp at reached
  | case2 number visit others =>
      rw [walk]
      exact Work.gives_fail _ _
  | case3 limit number visit others ih =>
      rw [walk]
      have filled : visit :: others ≠ [] := List.cons_ne_nil visit others
      generalize visit :: others = frontier at begins filled ih ⊢
      refine (Work.gives_any _).bind fun _ _ => ?_
      refine (Engine.flatMap_gives (fun visit member => classifies depth visit
        (begins visit member)) _ _ _).bind fun findings found => ?_
      have onward : ∀ next ∈ ({ frontier, findings } : Round).next, holds (depth + 1) next := by
        intro next member
        obtain ⟨visit, listed, leads⟩ := found _ (Round.mem_next_iff.mp member)
        exact goesOn depth visit next (begins visit listed) leads
      refine (ih findings (depth + 1) onward).bind fun later known => Work.gives_pure ?_
      intro position round reached
      cases position with
      | zero =>
          obtain rfl : { frontier, findings } = round := by simpa using reached
          exact ⟨filled, begins, found⟩
      | succ position =>
          rw [List.getElem?_cons_succ] at reached
          have kept := known position round reached
          rwa [Nat.add_assoc, Nat.add_comm 1] at kept

/-- A walk from the spelled directories begins at depth zero. -/
theorem search_gives
    (classifies : ∀ depth visit, holds depth visit → (table.classify visit).Gives
      fun findings => ∀ finding ∈ findings, follows visit finding)
    (goesOn : ∀ depth visit next, holds depth visit → follows visit (.descend next) →
      holds (depth + 1) next)
    {spellings : List String}
    (begins : ∀ spelling ∈ spellings, holds 0 ⟨Path.resolve table.root spelling, spelling⟩) :
    (table.search spellings).Gives fun rounds =>
      ∀ (position : Nat) (round : Round), rounds[position]? = some round →
        round.Keeps (holds position) follows := by
  unfold search
  split
  · exact Work.gives_pure fun position round reached => by simp at reached
  · have seeded : ∀ visit ∈ table.seeds spellings, holds 0 visit := by
      intro visit member
      obtain ⟨spelling, asked, rfl⟩ := List.mem_map.mp member
      exact begins spelling asked
    refine (Work.gives_any _).bind fun _ _ => ?_
    simpa using walk_gives classifies goesOn (searchStatus spellings) table.rounds 1 0 seeded

end Invariants

end Table

namespace KeyStore

variable (keys : KeyStore)

/-- How many segments below `directory` the keys at or below it lie. -/
def levelsBelow (directory : Path) : List Nat :=
  keys.files.filterMap fun entry => (Path.below? directory entry.location).map List.length

/-- The largest number of segments that a key lies below one of `directories`. -/
def reach (directories : List Path) : Nat := (directories.flatMap keys.levelsBelow).max?.getD 0

theorem le_reach {directories : List Path} {directory : Path} (member : directory ∈ directories)
    {entry : FileEntry} (stored : entry ∈ keys.files) {names : List String}
    (located : entry.location = directory.under names) : names.length ≤ keys.reach directories := by
  apply List.le_max?_getD_of_mem
  apply List.mem_flatMap.mpr ⟨directory, member, ?_⟩
  apply List.mem_filterMap.mpr ⟨entry, stored, ?_⟩
  rw [located, Path.below?_under]
  rfl

/-- A visit `depth` rounds into a walk from the spelled directories: it lies that many segments below
the directory that it came from, and, past the first round, some key lies below it. -/
structure Placed (root : Path) (spellings : List String) (depth : Nat) (visit : Table.Visit) :
    Prop where
  asked : visit.spelling ∈ spellings
  below : ∃ names, names.length = depth
    ∧ visit.directory = (Path.resolve root visit.spelling).under names
  held : 0 < depth → keys.Holds visit.directory

variable {keys} {root : Path} {spellings : List String}

/-- Going on into a listed directory leads one segment further down, on the way to a key. -/
theorem Placed.next {depth : Nat} {visit next : Table.Visit}
    (placed : keys.Placed root spellings depth visit)
    (left : .descend next ∈ Table.yield keys root visit) :
    keys.Placed root spellings (depth + 1) next := by
  obtain ⟨asked, ⟨names, count, located⟩, -⟩ := placed
  unfold Table.yield at left
  split at left
  · simp at left
  · obtain ⟨child, listed, equal⟩ := List.mem_map.mp left
    cases equal
    obtain ⟨name, rfl, -, held⟩ := keys.mem_children_iff.mp listed
    refine ⟨asked, ⟨names ++ [name], ?_, ?_⟩, fun _ => held⟩
    · simp [count]
    · show visit.directory.child name = _
      rw [located, Path.child_eq_under, Path.under_under]

/-- Past the first round, a visit lies above the deepest key. -/
theorem Placed.lt_reach {depth : Nat} {visit : Table.Visit}
    (placed : keys.Placed root spellings depth visit) (later : 0 < depth) :
    depth < keys.reach (spellings.map (Path.resolve root)) := by
  obtain ⟨asked, ⟨names, count, located⟩, held⟩ := placed
  obtain ⟨entry, stored, name, rest, under⟩ := held later
  rw [located, Path.under_under] at under
  have bound := keys.le_reach (List.mem_map_of_mem asked) stored under
  rw [List.length_append, List.length_cons, count] at bound
  omega

end KeyStore

namespace Table

variable {keys : KeyStore} {table : Table Unit}

/-- Rounds enough to get past the deepest key are enough for the walk. -/
theorem fits_reach {root : Path} {spellings : List String} {rounds : Nat}
    (enough : max 1 (keys.reach (spellings.map (Path.resolve root))) ≤ rounds) :
    ∀ spelling ∈ spellings, keys.Fits rounds (Path.resolve root spelling) := by
  intro spelling member
  refine ⟨by omega, fun entry stored names located => ?_⟩
  have bound := keys.le_reach (List.mem_map_of_mem member) stored located
  omega

theorem search_placed (stored : table.store = keys.store) (spellings : List String) :
    (table.search spellings).Gives fun rounds =>
      ∀ (position : Nat) (round : Round), rounds[position]? = some round →
        round.frontier ≠ []
          ∧ ∀ visit ∈ round.frontier, keys.Placed table.root spellings position visit := by
  have classifies : ∀ depth visit, keys.Placed table.root spellings depth visit →
      (table.classify visit).Gives fun findings =>
        ∀ finding ∈ findings, finding ∈ yield keys table.root visit := by
    rintro depth visit ⟨-, ⟨names, -, located⟩, -⟩ world findings ended
    rw [Path.resolve_eq_under, Path.under_under] at located
    rw [classify_endsIn stored located world] at ended
    cases ended
    exact fun finding member => member
  have begins : ∀ spelling ∈ spellings,
      keys.Placed table.root spellings 0 ⟨Path.resolve table.root spelling, spelling⟩ :=
    fun spelling asked => ⟨asked, ⟨[], rfl, (Path.under_nil _).symm⟩, fun later => by simp at later⟩
  intro world rounds ended position round reached
  have kept := search_gives classifies (fun _ _ _ placed left => placed.next left) begins world
    rounds ended position round reached
  exact ⟨kept.filled, kept.held⟩

/-- The walk over a flat set of keys ends by itself. From spelled directories that exist, with `bound`
the largest number of segments that a key lies below one of them, and at least one: however many
rounds more than `bound` the walk may take, it comes to the same end after `bound` rounds at most.
Counted from zero, the frontier of each round holds only directories that lie just so many segments
below the seed that they came from, and past the first round only those with a key below them. -/
theorem search_ends_within_reach (keys : KeyStore) (root : Path) (options : ListingOptions)
    (order : Nat → Engine.Order) {spellings : List String}
    (existing : ∀ spelling ∈ spellings, keys.IsSeed root spelling) (world : World Unit) :
    let table : Table Unit := { Table.ofKeys keys root options with order }
    let bound := max 1 (keys.reach (spellings.map (Path.resolve root)))
    ∃ walked after,
      (∀ rounds, bound ≤ rounds → (table.within rounds).search spellings world = (.done walked, after))
      ∧ walked.length ≤ bound
      ∧ ∀ (position : Nat) (round : Round), walked[position]? = some round →
        ∀ visit ∈ round.frontier, keys.Placed root spellings position visit := by
  intro table bound
  have stored : (table.within bound).store = keys.store := rfl
  obtain ⟨walked, ended, -⟩ :=
    search_done stored existing (fits_reach (Nat.le_refl bound)) world
  have placed := search_placed stored spellings world walked ended
  refine ⟨walked, ((table.within bound).search spellings world).2, ?_, ?_, ?_⟩
  · intro rounds enough
    rw [table.search_continues enough spellings world (by simp [ended]), ← ended]
  · -- The last round has a visit, and past the first round that lies above the deepest key.
    by_cases short : walked.length ≤ 1
    · omega
    · have inside : walked.length - 1 < walked.length := by omega
      obtain ⟨filled, held⟩ := placed _ _ (List.getElem?_eq_getElem inside)
      obtain ⟨visit, listed⟩ := List.exists_mem_of_ne_nil _ filled
      have above := (held visit listed).lt_reach (by omega)
      change _ < keys.reach (spellings.map (Path.resolve root)) at above
      omega
  · intro position round reached
    exact (placed position round reached).2

/-- One marker two levels down takes three rounds. -/
theorem search_ends_within_reach_two_levels :
    let marker : FileEntry := ⟨⟨["a", "b", ".hoodie_partition_metadata"]⟩, 10, default⟩
    let keys : KeyStore := { files := [marker] }
    let table : Table Unit := { Table.ofKeys keys Path.top {} with order := fun _ _ => 0 }
    keys.IsSeed Path.top "" ∧ max 1 (keys.reach ([""].map (Path.resolve Path.top))) = 3
      ∧ ∃ walked after, walked.length = 3 ∧ ∀ rounds, 3 ≤ rounds →
        (table.within rounds).search [""] { memory := () } = (.done walked, after) := by
  intro marker keys table
  have seed : keys.IsSeed Path.top "" := .inl rfl
  have bound : max 1 (keys.reach ([""].map (Path.resolve Path.top))) = 3 := by decide +kernel
  have existing : ∀ spelling ∈ [""], keys.IsSeed Path.top spelling := by simp [seed]
  obtain ⟨walked, after, ends, -⟩ :=
    search_ends_within_reach keys Path.top {} (fun _ _ => 0) existing { memory := () }
  rw [bound] at ends
  have counted : ((table.within 3).search [""] { memory := () }).1.map List.length = .done 3 := by
    decide +kernel
  rw [show (table.within 3).search [""] { memory := () } = _ from ends 3 (Nat.le_refl 3)] at counted
  exact ⟨seed, bound, walked, after, Outcome.done_injective _ _ counted, ends⟩

end Table

end PartitionedTable
