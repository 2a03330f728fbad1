/-!
Splitting text at a separator. `fields` keeps empty pieces and always gives at least one;
`parts` drops the empty ones, so repeated, leading and trailing separators do not matter.
-/

namespace PartitionedTable.Text

/-- The pieces of `text` between separators, empty ones included. -/
def fields (separator : Char) : List Char → List (List Char)
  | [] => [[]]
  | c :: rest =>
      if c = separator then [] :: fields separator rest
      else match fields separator rest with
        | [] => [[c]]
        | piece :: pieces => (c :: piece) :: pieces

/-- The non-empty pieces of `text` between separators, in order. -/
def parts (separator : Char) (text : String) : List String :=
  ((fields separator text.toList).filter (fun piece => !piece.isEmpty)).map String.ofList

theorem fields_ne_nil (separator : Char) (text : List Char) : fields separator text ≠ [] := by
  cases text with
  | nil => simp [fields]
  | cons c rest =>
      unfold fields
      split
      · simp
      · split <;> simp

end PartitionedTable.Text
