/-!
Numbers in decimal text. Writing pads with zeros on the left; reading takes ASCII digits only.
`word?` reads the numbers of the settings and of the command line: at most the largest number of
sixty-four bits, with as many leading zeros as one likes and a plus sign if one likes.
-/

namespace PartitionedTable.Text

/-- A number in decimal, with zeros on the left up to `width` digits. -/
def padded (width value : Nat) : List Char :=
  (Nat.toDigits 10 value).leftpad width '0'

/-- The number that a non-empty run of ASCII digits spells. -/
def number? (digits : List Char) : Option Nat :=
  if !digits.isEmpty && digits.all Char.isDigit then some (Nat.ofDigitChars 10 digits 0) else none

/-- The largest number of sixty-four bits. -/
def wordLimit : Nat := UInt64.size - 1

/-- The number that `text` spells: digits, after a plus sign or without, up to `wordLimit`. -/
def word? (text : String) : Option Nat :=
  let digits := match text.toList with
    | '+' :: rest => rest
    | whole => whole
  (number? digits).filter (· ≤ wordLimit)

theorem number?_toDigits (value : Nat) : number? (Nat.toDigits 10 value) = some value := by
  have digits : (Nat.toDigits 10 value).all Char.isDigit = true := by
    rw [List.all_eq_true]
    intro c member
    exact Nat.isDigit_of_mem_toDigits (by decide) (by decide) member
  have nonempty : (Nat.toDigits 10 value).isEmpty = false := by
    rw [List.isEmpty_eq_false_iff]
    exact List.ne_nil_of_length_pos Nat.length_toDigits_pos
  rw [number?, digits, nonempty, Nat.ofDigitChars_toDigits (by decide) (by decide)]
  rfl

end PartitionedTable.Text
