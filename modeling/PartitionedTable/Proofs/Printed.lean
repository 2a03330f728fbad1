import Mathlib.Data.List.Perm.Basic
import PartitionedTable.CommandLine.Output
import PartitionedTable.Proofs.ByteOrder

/-!
What a run prints is told by what it found. Entries with different keys are sorted in one way only, so
the order in which they were found leaves no trace; and a row without a line break of its own is read
back from the text whole. So the text is one line for every entry, in strict order, and it is the same
for all arrangements of the entries.
-/

namespace PartitionedTable

namespace Text

section Sorted

variable {α : Type} (key : α → String) {items items' : List α}

/-- Entries of different keys are sorted in one way only. -/
theorem mergeSort_eq_of_perm (same : items.Perm items') (distinct : (items.map key).Nodup) :
    (items.mergeSort fun left right => decide (key left ≤ key right))
      = items'.mergeSort fun left right => decide (key left ≤ key right) := by
  have distinct' : (items'.map key).Nodup := (same.map key).nodup_iff.mp distinct
  refine List.Perm.eq_of_pairwise (fun left right _ _ before after => ?_)
    (pairwise_mergeSort_bytesBefore key distinct) (pairwise_mergeSort_bytesBefore key distinct') ?_
  · exact absurd after (List.lt_asymm before)
  · exact ((List.mergeSort_perm items _).trans same).trans (List.mergeSort_perm items' _).symm

end Sorted

/-- A number is written in digits. -/
theorem not_mem_padded {c : Char} (other : ¬ c.isDigit = true) (width value : Nat) :
    c ∉ padded width value := by
  intro member
  rcases List.mem_append.mp member with zero | digit
  · rw [List.eq_of_mem_replicate zero] at other
    exact other rfl
  · exact other (Nat.isDigit_of_mem_toDigits (by decide) (by decide) digit)

end Text

/-- A point in time is written in digits and five other characters. -/
theorem Instant.not_mem_text {c : Char} (other : ¬ c.isDigit = true)
    (noMark : c ∉ ['+', '-', '.', ':', 'T']) (instant : Instant) : c ∉ instant.text.toList := by
  have digits (width value : Nat) : c ∉ Text.padded width value :=
    Text.not_mem_padded other width value
  have zero : c ≠ '0' := by
    rintro rfl
    exact other rfl
  simp only [List.mem_cons, List.not_mem_nil, or_false, not_or] at noMark
  have year (number : Int) : c ∉ yearText number := by
    unfold yearText
    split_ifs <;> simp [digits, noMark]
  have fraction (nanoseconds : Nat) : c ∉ fractionText nanoseconds := by
    unfold fractionText
    split_ifs <;> simp [digits, noMark]
  unfold text characters
  simp [digits, year, fraction, noMark, zero]

namespace CommandLine

/-- The text is just these rows, each ended by a line break. -/
def IsLines (text : String) (rows : List String) : Prop :=
  Text.fields '\n' text.toList = rows.map String.toList ++ [[]]

theorem isLines_lines {rows : List String} (clean : ∀ row ∈ rows, '\n' ∉ row.toList) :
    IsLines (lines rows) rows := by
  unfold IsLines lines
  induction rows with
  | nil => rfl
  | cons row rows ih =>
      have whole := clean row List.mem_cons_self
      have others := ih fun other member => clean other (List.mem_cons_of_mem row member)
      have first : ∀ rest, Text.fields '\n' (row.toList ++ ("\n".toList ++ rest))
          = row.toList :: Text.fields '\n' rest := Text.fields_append whole
      rw [List.map_cons, String.join_cons, String.append_assoc, String.toList_append,
        String.toList_append, first, others]
      rfl

/-- The text has one line for each of the names, in the strict order of their bytes. -/
def ListsNames (text : String) (names : List String) : Prop :=
  ∃ rows : List String, rows.Perm names ∧ rows.Pairwise Text.BytesBefore ∧ IsLines text rows

section Names

variable {names : List String}

theorem partitionLines_listsNames (distinct : names.Nodup) (clean : ∀ name ∈ names, '\n' ∉ name.toList) :
    ListsNames (partitionLines names) names := by
  have chosen : (sortedTexts names).Perm names := List.mergeSort_perm names _
  rw [← List.map_id names] at distinct
  exact ⟨sortedTexts names, chosen, Text.pairwise_mergeSort_bytesBefore id distinct,
    isLines_lines fun row member => clean row (chosen.subset member)⟩

end Names

/-- A data file of a partition, by the spelling of the partition. -/
abbrev Row := String × FileEntry

/-- The line for a row. -/
def Row.line (row : Row) : String := fileLine row.1 row.2

/-- One row comes before another: by the spellings, and under one spelling by the locations. -/
def Row.Before (row other : Row) : Prop :=
  Text.BytesBefore row.1 other.1
    ∨ row.1 = other.1 ∧ Text.BytesBefore row.2.location.text other.2.location.text

/-- The rows of some manifests, in no order. -/
def rowsOf (manifests : List (String × List FileEntry)) : List Row :=
  manifests.flatMap fun (spelling, entries) => entries.map (spelling, ·)

/-- The text has one line for each of the rows, in strict order. -/
def ListsRows (text : String) (found : List Row) : Prop :=
  ∃ rows : List Row, rows.Perm found ∧ rows.Pairwise Row.Before ∧ IsLines text (rows.map Row.line)

theorem lineBreak_not_mem_line {row : Row} (spelled : '\n' ∉ row.1.toList)
    (named : '\n' ∉ row.2.name.toList) : '\n' ∉ row.line.toList := by
  have size : '\n' ∉ Nat.toDigits 10 row.2.size := by
    intro member
    cases Nat.isDigit_of_mem_toDigits (by decide) (by decide) member
  have time := row.2.modified.not_mem_text (by decide : ¬ '\n'.isDigit = true) (by decide)
  unfold Row.line fileLine
  rw [String.toList_intercalate]
  simp [List.intercalate, spelled, named, size, time]

section Manifests

variable {manifests manifests' : List (String × List FileEntry)}

/-- The manifests in the order in which they are printed, each with its files in order. -/
def arranged (manifests : List (String × List FileEntry)) : List (String × List FileEntry) :=
  (manifests.mergeSort fun left right => decide (left.1 ≤ right.1)).map fun manifest =>
    (manifest.1, FileEntry.sorted manifest.2)

theorem fileLines_eq (manifests : List (String × List FileEntry)) :
    fileLines manifests = lines ((rowsOf (arranged manifests)).map Row.line) := by
  unfold fileLines rowsOf arranged
  rw [List.map_flatMap, List.flatMap_map]
  simp only [List.map_map]
  rfl

theorem rowsOf_arranged_perm (manifests : List (String × List FileEntry)) :
    (rowsOf (arranged manifests)).Perm (rowsOf manifests) := by
  unfold rowsOf arranged
  rw [List.flatMap_map]
  exact (List.mergeSort_perm manifests _).flatMap fun manifest _ =>
    (List.mergeSort_perm manifest.2 _).map _

/-- Where the spellings differ and the files of each have locations of their own, the rows are in
strict order. -/
theorem rowsOf_arranged_pairwise (distinct : (manifests.map Prod.fst).Nodup)
    (apart : ∀ manifest ∈ manifests, (manifest.2.map fun entry => entry.location.text).Nodup) :
    (rowsOf (arranged manifests)).Pairwise Row.Before := by
  have chosen := List.mergeSort_perm manifests fun left right => decide (left.1 ≤ right.1)
  unfold rowsOf arranged
  rw [List.flatMap_map, List.pairwise_flatMap]
  constructor
  · intro manifest member
    rw [List.pairwise_map]
    have sorted := Text.pairwise_mergeSort_bytesBefore _ (apart manifest (chosen.subset member))
    exact sorted.imp fun before => .inr ⟨rfl, before⟩
  · refine (Text.pairwise_mergeSort_bytesBefore Prod.fst distinct).imp fun before row member row' member' => ?_
    obtain ⟨_, _, rfl⟩ := List.mem_map.mp member
    obtain ⟨_, _, rfl⟩ := List.mem_map.mp member'
    exact .inl before

theorem fileLines_listsRows (distinct : (manifests.map Prod.fst).Nodup)
    (apart : ∀ manifest ∈ manifests, (manifest.2.map fun entry => entry.location.text).Nodup)
    (clean : ∀ row ∈ rowsOf manifests, '\n' ∉ row.1.toList ∧ '\n' ∉ row.2.name.toList) :
    ListsRows (fileLines manifests) (rowsOf manifests) := by
  have chosen := rowsOf_arranged_perm manifests
  refine ⟨rowsOf (arranged manifests), chosen, rowsOf_arranged_pairwise distinct apart, ?_⟩
  rw [fileLines_eq]
  refine isLines_lines fun line member => ?_
  obtain ⟨row, listed, rfl⟩ := List.mem_map.mp member
  obtain ⟨spelled, named⟩ := clean row (chosen.subset listed)
  exact lineBreak_not_mem_line spelled named

theorem fileLines_eq_of_perm (same : manifests.Perm manifests')
    (distinct : (manifests.map Prod.fst).Nodup) : fileLines manifests = fileLines manifests' := by
  unfold fileLines
  dsimp only
  rw [Text.mergeSort_eq_of_perm Prod.fst same distinct]

end Manifests

end CommandLine

end PartitionedTable
