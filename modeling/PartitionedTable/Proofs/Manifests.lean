import PartitionedTable.Proofs.InTurn
import PartitionedTable.Proofs.Steady

/-!
Listing several partitions at once comes to what listing each of them comes to. A listing makes one
call, whatever the answer; a batch of listings makes one for each distinct spelling, gives the lists
that the single listings give, under their spellings, and fails as one of them does.
-/

namespace PartitionedTable

namespace Store

variable {μ : Type} (store : Store μ) (directory : Path)

theorem levelOrNone_makes (purpose : Purpose) :
    (store.levelOrNone directory purpose).Makes [.list directory purpose] := by
  refine (Work.makes_call _ _).attempt.bind_silent fun answer => ?_
  cases answer with
  | ok listing => exact Work.makes_pure listing
  | error source =>
      dsimp only
      split
      · exact Work.makes_pure _
      · exact Work.makes_fail _

theorem dataFilesIn_makes : (store.dataFilesIn directory).Makes [.list directory .files] :=
  (store.levelOrNone_makes directory .files).bind_silent fun _ => Work.makes_pure _

end Store

namespace Table

section Single

variable {μ : Type} (table : Table μ)

/-- The call that lists what is spelled. -/
def filesCall (spelling : String) : Call := .list (Path.resolve table.root spelling) .files

theorem files_makes (spelling : String) :
    (table.files spelling).Makes [table.filesCall spelling] :=
  (table.store.dataFilesIn_makes _).mapError _

theorem files_steady (table : Table Unit) (spelling : String) : (table.files spelling).Steady :=
  (table.store.dataFilesIn_steady _).mapError _

end Single

variable (table : Table Unit)

/-- A task of a batch of listings ends as the single listing does, under its spelling. -/
theorem manifest_endsIn (spelling : String) (world : World Unit) :
    (table.manifest spelling).EndsIn ((table.files spelling world).1.map (spelling, ·)) := by
  intro world'
  unfold manifest
  rw [Work.bind_pure_fst, (table.files_steady spelling).endsIn world]

theorem manifest_does {spelling : String} {entries : List FileEntry} {world : World Unit}
    (listed : (table.files spelling world).1 = .done entries) :
    (table.manifest spelling).Does (spelling, entries) [table.filesCall spelling] := by
  have made : (table.manifest spelling).Makes [table.filesCall spelling] :=
    (table.files_makes spelling).bind_silent fun _ => Work.makes_pure _
  have ended := table.manifest_endsIn spelling world
  rw [listed] at ended
  exact made.does ended

/-- A batch of listings succeeds only if every single listing does. Then its manifests hold what those
give, and its calls are one for each manifest, in the same order. -/
theorem batch_manifest_done {distinct : List String} {number : Nat} {world : World Unit}
    {manifests : List (String × List FileEntry)}
    (ended : (table.batch number table.manifest distinct world).1 = .done manifests)
    (world' : World Unit) :
    ∃ (turn : List String) (entries : String → List FileEntry), turn.Perm distinct
      ∧ (∀ spelling ∈ distinct, (table.files spelling world').1 = .done (entries spelling))
      ∧ manifests = turn.map (fun spelling => (spelling, entries spelling))
      ∧ (table.batch number table.manifest distinct world).2.calls
        = world.calls ++ turn.map table.filesCall := by
  have accounts := Engine.map_accounts .taskFailed (table.order number)
    (table.options.budget distinct.length) world
    fun spelling (_ : spelling ∈ distinct) => table.manifest_endsIn spelling world'
  have good : ∀ spelling ∈ distinct, ∃ entries, (table.files spelling world').1 = .done entries :=
    fun spelling member => Outcome.succeeds_map_iff.mp
      (accounts.succeeds_iff.mp ⟨manifests, ended⟩ spelling member)
  choose! entries listed using good
  obtain ⟨turn, chosen, told, calls⟩ := Engine.map_does
    (fun spelling member => table.manifest_does (listed spelling member)) .taskFailed
    (table.order number) (table.options.budget distinct.length) world
  rw [← List.map_eq_flatMap] at calls
  exact ⟨turn, entries, chosen, listed, Outcome.done_injective _ _ (ended.symm.trans told), calls⟩

/-- The spellings of manifests made for some spellings are these. -/
theorem manifests_keys (turn : List String) (entries : String → List FileEntry) :
    (turn.map fun spelling => (spelling, entries spelling)).map Prod.fst = turn := by
  rw [List.map_map]
  exact List.map_id turn

theorem nodup_eraseDups (names : List String) : names.eraseDups.Nodup := by
  induction size : names.length using Nat.strongRecOn generalizing names with
  | _ size ih =>
    cases names with
    | nil => exact List.nodup_nil
    | cons name names =>
        rw [List.eraseDups_cons, List.nodup_cons]
        constructor
        · simp
        · refine ih _ ?_ _ rfl
          have shorter := List.length_filter_le (fun other => !other == name) names
          simp only [← size, List.length_cons]
          omega

/-- Whether or not there is anything to list, a listing of several partitions is the batch of the
distinct spellings. -/
theorem filesOfEach_eq_batch (spellings : List String) (world : World Unit) :
    ∃ start : World Unit, start.calls = world.calls
      ∧ table.filesOfEach spellings world
        = table.batch 0 table.manifest spellings.eraseDups start := by
  unfold filesOfEach
  cases distinct : spellings.eraseDups with
  | nil =>
      refine ⟨world, rfl, ?_⟩
      simp [batch, Engine.map, Engine.run, Engine.drain]
  | cons spelling others =>
      have filled : ¬ (spelling :: others).isEmpty = true := by simp
      rw [if_neg filled]
      exact ⟨(announce (listingStatus (spelling :: others).length) world).2, rfl, rfl⟩

/-- Listing several partitions agrees with listing each of them, on a store that remembers nothing and
whatever the schedule. It succeeds exactly if every single listing does. Then the spellings of its
manifests are the distinct ones asked for, each once, the files under a spelling are what the single
listing gives, and one call was made for each. Otherwise it fails as one of the single listings does,
a crash being told as a failed task. Nothing to list makes no call and reports no status. -/
theorem filesOfEach_exact (spellings : List String) (world world' : World Unit) :
    let single := fun spelling => (table.files spelling world').1
    let answer := table.filesOfEach spellings world
    (answer.1.Succeeds ↔ ∀ spelling ∈ spellings, (single spelling).Succeeds)
    ∧ (∀ manifests, answer.1 = .done manifests →
      (manifests.map Prod.fst).Nodup
        ∧ (∀ spelling, spelling ∈ manifests.map Prod.fst ↔ spelling ∈ spellings)
        ∧ (∀ spelling entries, (spelling, entries) ∈ manifests
          ↔ spelling ∈ spellings ∧ single spelling = .done entries)
        ∧ answer.2.calls = world.calls ++ (manifests.map Prod.fst).map table.filesCall)
    ∧ (¬ answer.1.Succeeds → ∃ spelling ∈ spellings,
      (∃ error, single spelling = .failed error ∧ answer.1 = .failed error)
        ∨ (single spelling = .crashed ∧ answer.1 = .failed .taskFailed))
    ∧ table.filesOfEach [] world = (.done [], world) := by
  intro single answer
  obtain ⟨start, silent, same⟩ := table.filesOfEach_eq_batch spellings world
  have accounts := Engine.map_accounts .taskFailed (table.order 0)
    (table.options.budget spellings.eraseDups.length) start
    fun spelling (_ : spelling ∈ spellings.eraseDups) => table.manifest_endsIn spelling world'
  have answered : answer = table.batch 0 table.manifest spellings.eraseDups start := same
  have succeeds : answer.1.Succeeds ↔ ∀ spelling ∈ spellings, (single spelling).Succeeds := by
    rw [answered]
    refine accounts.succeeds_iff.trans ?_
    simp only [List.mem_eraseDups, Outcome.succeeds_map_iff, single]
  refine ⟨succeeds, ?_, ?_, rfl⟩
  · intro manifests ended
    rw [answered] at ended ⊢
    obtain ⟨turn, entries, chosen, listed, rfl, calls⟩ := table.batch_manifest_done ended world'
    have asked : ∀ spelling, spelling ∈ turn ↔ spelling ∈ spellings := fun spelling =>
      chosen.mem_iff.trans List.mem_eraseDups
    rw [manifests_keys, ← silent]
    refine ⟨chosen.nodup_iff.mpr (nodup_eraseDups spellings), asked, fun spelling files => ?_, calls⟩
    rw [List.mem_map]
    constructor
    · rintro ⟨other, member, equal⟩
      cases equal
      exact ⟨(asked spelling).mp member, listed spelling (chosen.subset member)⟩
    · rintro ⟨named, found⟩
      have member := (asked spelling).mpr named
      cases (listed spelling (chosen.subset member)).symm.trans found
      exact ⟨spelling, member, rfl⟩
  · intro fails
    rw [answered] at fails ⊢
    obtain ⟨begun, spelling, started, blamed⟩ := accounts.blames fails
    refine ⟨spelling, List.mem_eraseDups.mp (begun.subset started), ?_⟩
    rcases blamed with ⟨error, ended, told⟩ | ⟨ended, told⟩
    · exact .inl ⟨error, Outcome.map_eq_failed_iff.mp ended, told⟩
    · exact .inr ⟨Outcome.map_eq_crashed_iff.mp ended, told⟩

end Table

end PartitionedTable
