import PartitionedTable.Proofs.Manifests
import PartitionedTable.Proofs.Spelling

/-!
Whether a directory exists. An empty directory shows only in the listing of the directory above it, so
that listing has the last word; it is asked for only if nothing is found in the directory itself. The
answer is still the one that the directory above would have given as long as the store is consistent:
a directory that shows something is shown above (`Store.Consistent`). Any other store has a directory
about which the two differ. A flat set of keys is consistent.
-/

namespace PartitionedTable

/-- The listing of a directory in which there is nothing. -/
def Listing.nothing : Listing := { directories := [], files := [] }

theorem Listing.isEmpty_iff {listing : Listing} : listing.isEmpty = true ↔ listing = .nothing := by
  obtain ⟨directories, files⟩ := listing
  simp [isEmpty, nothing]

theorem Listing.not_isEmpty_iff {listing : Listing} :
    (!listing.isEmpty) = true ↔ listing ≠ .nothing := by
  rw [Bool.not_eq_true', Bool.eq_false_iff, ne_eq, isEmpty_iff]

namespace Path

/-- The text of a path below another is that of the path above, a separator and its own name. -/
theorem text_eq_parent_text {path : Path} (deep : path.parent ≠ top) :
    path.text = path.parent.text ++ "/" ++ path.name := by
  have below : path ≠ top := by
    rintro rfl
    exact deep rfl
  calc path.text = (path.parent.child path.name).text := by rw [child_parent_name below]
    _ = path.parent.text ++ "/" ++ path.name := text_child deep path.name

end Path

namespace Store

/-- What is known of every listing of a directory, and of nothing, is known of what is found there. -/
theorem levelOrNone_gives_of_callList {μ : Type} {store : Store μ} {directory : Path}
    {purpose : Purpose} {known : Listing → Prop}
    (lists : (store.callList directory purpose).Gives known) (none : known .nothing) :
    (store.levelOrNone directory purpose).Gives known := by
  refine lists.attempt.bind fun answer told => ?_
  cases answer with
  | ok listing => exact Work.gives_pure (told listing rfl)
  | error source =>
      dsimp only
      split
      · exact Work.gives_pure none
      · exact Work.gives_fail _ _

variable (store : Store Unit)

/-- What the store shows of a directory: what it lists there, and nothing if it knows of no such
place. -/
inductive Shows (directory : Path) : Listing → Prop where
  | listed {listing : Listing} (answered : (store.list directory ()).1 = .done listing) :
      Shows directory listing
  | unknown {source : StoreError} (answered : (store.list directory ()).1 = .failed source)
      (missing : source.isNotFound = true) : Shows directory .nothing

/-- The store knows of the place and does not list it. -/
def Refuses (directory : Path) (source : StoreError) : Prop :=
  (store.list directory ()).1 = .failed source ∧ source.isNotFound = false

/-- A directory that shows something is shown by the directory above, unless it is the root. -/
def Consistent : Prop :=
  ∀ directory inside above, store.Shows directory inside → inside ≠ .nothing →
    store.Shows directory.parent above → directory = Path.top ∨ directory ∈ above.directories

variable {store} {directory : Path} {inside above : Listing} {source : StoreError}

theorem Shows.levelOrNone_does (shows : store.Shows directory inside) (purpose : Purpose) :
    (store.levelOrNone directory purpose).Does inside [.list directory purpose] := by
  refine (store.levelOrNone_makes directory purpose).does ?_
  cases shows with
  | listed answered =>
      have called : (store.callList directory purpose).EndsIn (.done inside) := fun _ => answered
      exact called.attempt.bind (Work.endsIn_pure inside)
  | @unknown source answered missing =>
      have called : (store.callList directory purpose).EndsIn (.failed source) := fun _ => answered
      refine called.attempt.bind ?_
      dsimp only
      rw [if_pos missing]
      exact Work.endsIn_pure _

theorem Refuses.levelOrNone_endsIn (refuses : store.Refuses directory source) (purpose : Purpose) :
    (store.levelOrNone directory purpose).EndsIn (.failed (.listing directory source)) := by
  obtain ⟨answered, present⟩ := refuses
  have called : (store.callList directory purpose).EndsIn (.failed source) := fun _ => answered
  refine called.attempt.bind ?_
  dsimp only
  rw [present]
  exact Work.endsIn_fail _

variable (store) in
/-- A store shows a directory, refuses it, or crashes over it. -/
theorem shows_or_refuses_or_crashes (directory : Path) :
    (∃ inside, store.Shows directory inside) ∨ (∃ source, store.Refuses directory source)
      ∨ (store.list directory ()).1 = .crashed := by
  cases answered : (store.list directory ()).1 with
  | done inside => exact .inl ⟨inside, .listed answered⟩
  | failed source =>
      cases missing : source.isNotFound with
      | true => exact .inl ⟨.nothing, .unknown answered missing⟩
      | false => exact .inr (.inl ⟨source, answered, missing⟩)
  | crashed => exact .inr (.inr rfl)

variable (store) in
/-- What is found is what the store shows. -/
theorem levelOrNone_gives (directory : Path) (purpose : Purpose) :
    (store.levelOrNone directory purpose).Gives (store.Shows directory) := by
  intro world listing ended
  rcases store.shows_or_refuses_or_crashes directory with ⟨inside, shows⟩ | ⟨source, refuses⟩ | crashes
  · cases ((shows.levelOrNone_does purpose).endsIn world).symm.trans ended
    exact shows
  · cases (refuses.levelOrNone_endsIn purpose world).symm.trans ended
  · have called : (store.callList directory purpose).EndsIn .crashed := fun _ => crashes
    cases (called.attempt.bind_crashed _ world).symm.trans ended

variable (store) in
/-- The root is known to exist. -/
theorem directoryExists_top : (store.directoryExists Path.top).Does true [] := by
  unfold directoryExists
  rw [if_pos rfl]
  exact Work.does_pure true

section Below

variable (below : directory ≠ Path.top)
include below

/-- A directory that shows something exists, and no more is asked. -/
theorem Shows.directoryExists_of_ne_nothing (shows : store.Shows directory inside)
    (filled : inside ≠ .nothing) :
    (store.directoryExists directory).Does true [.list directory .existence] := by
  unfold directoryExists
  rw [if_neg below]
  refine (shows.levelOrNone_does .existence).bind ?_
  rw [if_pos (Listing.not_isEmpty_iff.mpr filled)]
  exact Work.does_pure true

/-- A directory that shows nothing exists if the directory above shows it. -/
theorem Shows.directoryExists_of_nothing (shows : store.Shows directory .nothing)
    (shows' : store.Shows directory.parent above) :
    (store.directoryExists directory).Does (decide (directory ∈ above.directories))
      [.list directory .existence, .list directory.parent .existence] := by
  unfold directoryExists
  rw [if_neg below]
  refine (shows.levelOrNone_does .existence).bind ?_
  rw [if_neg (by decide)]
  refine (shows'.levelOrNone_does .existence).bind ?_
  rw [List.contains_eq_mem]
  exact Work.does_pure _

theorem Refuses.directoryExists_endsIn (refuses : store.Refuses directory source) :
    (store.directoryExists directory).EndsIn (.failed (.listing directory source)) := by
  unfold directoryExists
  rw [if_neg below]
  exact (refuses.levelOrNone_endsIn .existence).bind_failed _

theorem Shows.directoryExists_of_refuses (shows : store.Shows directory .nothing)
    (refuses : store.Refuses directory.parent source) :
    (store.directoryExists directory).EndsIn (.failed (.listing directory.parent source)) := by
  unfold directoryExists
  rw [if_neg below]
  refine (shows.levelOrNone_does .existence).endsIn.bind ?_
  rw [if_neg (by decide)]
  exact (refuses.levelOrNone_endsIn .existence).bind_failed _

/-- The directory above is asked if nothing shows in the directory itself. -/
theorem Shows.directoryExists_makes (shows : store.Shows directory .nothing) :
    (store.directoryExists directory).Makes
      [.list directory .existence, .list directory.parent .existence] := by
  unfold directoryExists
  rw [if_neg below]
  refine (shows.levelOrNone_does .existence).bind_makes ?_
  rw [if_neg (by decide)]
  exact (store.levelOrNone_makes _ _).bind_silent fun _ => Work.makes_pure _

/-- It is not asked otherwise. -/
theorem directoryExists_makes (filled : ¬ store.Shows directory .nothing) :
    (store.directoryExists directory).Makes [.list directory .existence] := by
  unfold directoryExists
  rw [if_neg below]
  refine (store.levelOrNone_makes directory .existence).bind_silent_of_gives
    (store.levelOrNone_gives directory .existence) fun inside shows => ?_
  have found : inside ≠ .nothing := by
    rintro rfl
    exact filled shows
  rw [if_pos (Listing.not_isEmpty_iff.mpr found)]
  exact Work.makes_pure true

end Below

/-- The check answers as the directory above would, on the consistent stores and on no others. -/
theorem consistent_iff : store.Consistent ↔ ∀ directory inside above,
    store.Shows directory inside → store.Shows directory.parent above →
      (store.directoryExists directory).EndsIn
        (.done (decide (directory = Path.top ∨ directory ∈ above.directories))) := by
  constructor
  · intro consistent directory inside above shows shows'
    by_cases atTop : directory = Path.top
    · subst atTop
      rw [decide_eq_true (.inl rfl)]
      exact store.directoryExists_top.endsIn
    by_cases bare : inside = .nothing
    · subst bare
      rw [Bool.decide_or, decide_eq_false atTop, Bool.false_or]
      exact (shows.directoryExists_of_nothing atTop shows').endsIn
    · rw [decide_eq_true (consistent directory inside above shows bare shows')]
      exact (shows.directoryExists_of_ne_nothing atTop bare).endsIn
  · intro agrees directory inside above shows filled shows'
    by_cases atTop : directory = Path.top
    · exact .inl atTop
    · have found := (shows.directoryExists_of_ne_nothing atTop filled).endsIn { memory := () }
      have told := agrees directory inside above shows shows' { memory := () }
      have same := Outcome.done_injective _ _ (found.symm.trans told)
      exact of_decide_eq_true same.symm

end Store

namespace KeyStore

variable {keys : KeyStore} {directory : Path}

/-- A set of keys shows what it lists. -/
theorem shows_iff {inside : Listing} :
    keys.store.Shows directory inside ↔ inside = keys.listing directory := by
  constructor
  · intro shows
    cases shows with
    | listed answered =>
        cases answered
        rfl
    | unknown answered missing => cases answered
  · rintro rfl
    exact .listed rfl

theorem listing_eq_nothing_iff : keys.listing directory = .nothing ↔ ¬ keys.Holds directory := by
  rw [← Listing.isEmpty_iff, isEmpty_listing_iff]

theorem consistent_store (keys : KeyStore) : keys.store.Consistent := by
  intro directory inside above shows filled shows'
  rw [shows_iff] at shows shows'
  subst shows shows'
  by_cases atTop : directory = Path.top
  · exact .inl atTop
  · rw [ne_eq, listing_eq_nothing_iff, not_not] at filled
    exact .inr (keys.mem_directories_iff.mpr
      ⟨directory.name, (Path.child_parent_name atTop).symm, filled⟩)

variable (keys) in
/-- A directory that holds something is found by listing it, unless it is the store's root, which
needs no listing. -/
theorem directoryExists_does (held : keys.Holds directory) :
    (keys.store.directoryExists directory).Does true
      (if directory = Path.top then [] else [.list directory .existence]) := by
  by_cases atTop : directory = Path.top
  · rw [if_pos atTop, atTop]
    exact keys.store.directoryExists_top
  · rw [if_neg atTop]
    have filled : keys.listing directory ≠ .nothing := fun bare =>
      listing_eq_nothing_iff.mp bare held
    exact (shows_iff.mpr rfl).directoryExists_of_ne_nothing atTop filled

variable (keys) in
/-- The directory above lists only what exists anyway. -/
theorem directoryExists_of_not_holds (below : directory ≠ Path.top) (bare : ¬ keys.Holds directory) :
    (keys.store.directoryExists directory).EndsIn (.done false) := by
  have shows : keys.store.Shows directory .nothing :=
    shows_iff.mpr (listing_eq_nothing_iff.mpr bare).symm
  have absent : directory ∉ (keys.listing directory.parent).directories := by
    rw [mem_directories_iff]
    rintro ⟨_, _, held⟩
    exact bare held
  have told := (shows.directoryExists_of_nothing below (shows_iff.mpr rfl)).endsIn
  rwa [decide_eq_false absent] at told

end KeyStore

namespace Store

/-- Whether a directory exists is told as the listing of the directory above would tell it, however
the check comes to know. That is so on every consistent store, and on no other. The root is known to
exist. Below it one listing is made, and the directory above is asked only if nothing shows in the
directory itself; it is the path without its last name, the other names as they are. A listing that is
made and refused fails the check. A set of keys makes a consistent store, on which the directories that
exist are the root and those with a key strictly below them. -/
theorem directoryExists_as_shown_above (store : Store Unit) :
    (store.Consistent ↔ ∀ directory inside above, store.Shows directory inside →
        store.Shows directory.parent above → (store.directoryExists directory).EndsIn
          (.done (decide (directory = Path.top ∨ directory ∈ above.directories))))
      ∧ (store.directoryExists Path.top).Does true []
      ∧ (∀ directory, directory ≠ Path.top →
        directory.parent.child directory.name = directory
          ∧ (directory.parent ≠ Path.top →
            directory.text = directory.parent.text ++ "/" ++ directory.name)
          ∧ (store.Shows directory .nothing → (store.directoryExists directory).Makes
            [.list directory .existence, .list directory.parent .existence])
          ∧ (¬ store.Shows directory .nothing →
            (store.directoryExists directory).Makes [.list directory .existence])
          ∧ (∀ source, store.Refuses directory source →
            (store.directoryExists directory).EndsIn (.failed (.listing directory source)))
          ∧ ∀ source, store.Shows directory .nothing → store.Refuses directory.parent source →
            (store.directoryExists directory).EndsIn (.failed (.listing directory.parent source)))
      ∧ ∀ keys : KeyStore, keys.store.Consistent ∧ ∀ directory, ∃ present,
        (keys.store.directoryExists directory).EndsIn (.done present)
          ∧ (present = true ↔ directory = Path.top ∨ keys.Holds directory) := by
  refine ⟨consistent_iff, store.directoryExists_top, fun directory below => ?_,
    fun keys => ⟨keys.consistent_store, fun directory => ?_⟩⟩
  · refine ⟨Path.child_parent_name below, Path.text_eq_parent_text, ?_, ?_, ?_, ?_⟩
    · exact fun shows => shows.directoryExists_makes below
    · exact directoryExists_makes below
    · exact fun source refuses => refuses.directoryExists_endsIn below
    · exact fun source shows refuses => shows.directoryExists_of_refuses below refuses
  · by_cases present : directory = Path.top ∨ keys.Holds directory
    · refine ⟨true, ?_, iff_of_true rfl present⟩
      rcases present with rfl | held
      · exact keys.store.directoryExists_top.endsIn
      · exact (keys.directoryExists_does held).endsIn
    · obtain ⟨below, bare⟩ := not_or.mp present
      refine ⟨false, keys.directoryExists_of_not_holds below bare, iff_of_false ?_ present⟩
      exact Bool.false_ne_true

end Store

end PartitionedTable
