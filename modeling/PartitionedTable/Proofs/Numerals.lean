import Mathlib.Data.Nat.Digits.Defs
import PartitionedTable.Text.Numeral

/-!
Numbers in decimal text. What is read from a run of digits is the number that the digits show; a plus sign
and zeros in front do not change it. A number has one text of a given length, and the text that zeros in
front fill up to a least length is the shortest one of that length or more.
-/

namespace PartitionedTable

namespace Text

/-- `digits`, the most significant one first, are the decimal digits that `text` shows. -/
def Shows (text : List Char) (digits : List Nat) : Prop :=
  digits ≠ [] ∧ (∀ digit ∈ digits, digit < 10) ∧ text = digits.map Nat.digitChar

/-- The text spells a number in decimal, after a plus sign or without. -/
def Spells (text : String) (value : Nat) : Prop :=
  ∃ (signed : Bool) (shown : List Char) (digits : List Nat),
    text.toList = (if signed then ['+'] else []) ++ shown ∧ Shows shown digits
      ∧ value = Nat.ofDigits 10 digits.reverse

theorem isDigit_iff {c : Char} : c.isDigit = true ↔ ∃ digit < 10, digit.digitChar = c := by
  constructor
  · intro digit
    have written : ∀ digit < 10, digit.digitChar = Char.ofNat ('0'.toNat + digit) := by decide
    obtain ⟨low, high⟩ := Char.isDigit_iff_toNat.mp digit
    have top : '9'.toNat = '0'.toNat + 9 := by decide
    refine ⟨c.toNat - '0'.toNat, by omega, ?_⟩
    rw [written _ (by omega), Nat.add_sub_cancel' low, Char.ofNat_toNat]
  · rintro ⟨digit, small, rfl⟩
    rw [Nat.isDigit_digitChar]
    exact decide_eq_true small

/-- A run of digits is read from its most significant end. -/
theorem ofDigitChars_digits {digits : List Nat} (small : ∀ digit ∈ digits, digit < 10)
    (start : Nat) :
    Nat.ofDigitChars 10 (digits.map Nat.digitChar) start
      = 10 ^ digits.length * start + Nat.ofDigits 10 digits.reverse := by
  induction digits generalizing start with
  | nil => simp [Nat.ofDigitChars_nil]
  | cons digit digits ih =>
      rw [List.map_cons, Nat.ofDigitChars_cons_digitChar_of_lt_ten (small digit List.mem_cons_self),
        ih fun other member => small other (List.mem_cons_of_mem digit member),
        Nat.ofDigits_reverse_cons, List.length_cons, Nat.pow_succ]
      ring

theorem exists_digits {text : List Char} (all : ∀ c ∈ text, c.isDigit = true) :
    ∃ digits : List Nat, (∀ digit ∈ digits, digit < 10) ∧ text = digits.map Nat.digitChar := by
  induction text with
  | nil => exact ⟨[], by simp, rfl⟩
  | cons c text ih =>
      obtain ⟨digit, small, rfl⟩ := isDigit_iff.mp (all c List.mem_cons_self)
      obtain ⟨digits, smalls, rfl⟩ := ih fun other member => all other (List.mem_cons_of_mem _ member)
      exact ⟨digit :: digits, List.forall_mem_cons.mpr ⟨small, smalls⟩, rfl⟩

theorem number?_eq_some_iff {text : List Char} {value : Nat} :
    number? text = some value
      ↔ ∃ digits, Shows text digits ∧ value = Nat.ofDigits 10 digits.reverse := by
  unfold number?
  constructor
  · intro read
    split at read
    · rename_i numeral
      simp only [Bool.and_eq_true, Bool.not_eq_true', List.all_eq_true] at numeral
      obtain ⟨digits, small, rfl⟩ := exists_digits numeral.2
      refine ⟨digits, ⟨?_, small, rfl⟩, ?_⟩
      · rintro rfl
        simp at numeral
      · rw [← Option.some.inj read, ofDigitChars_digits small, Nat.mul_zero, Nat.zero_add]
    · cases read
  · rintro ⟨digits, ⟨filled, small, rfl⟩, rfl⟩
    have numeral : (!(digits.map Nat.digitChar).isEmpty
        && (digits.map Nat.digitChar).all Char.isDigit) = true := by
      simp only [Bool.and_eq_true, Bool.not_eq_true', List.all_eq_true]
      refine ⟨by simpa using filled, fun c member => ?_⟩
      obtain ⟨digit, chosen, rfl⟩ := List.mem_map.mp member
      exact isDigit_iff.mpr ⟨digit, small digit chosen, rfl⟩
    rw [if_pos numeral, ofDigitChars_digits small, Nat.mul_zero, Nat.zero_add]

theorem Shows.head_ne {c : Char} {text : List Char} {digits : List Nat}
    (shows : Shows (c :: text) digits) : c ≠ '+' := by
  obtain ⟨filled, small, written⟩ := shows
  cases digits with
  | nil => exact absurd rfl filled
  | cons digit digits =>
      have numeral := isDigit_iff.mpr ⟨digit, small digit List.mem_cons_self, rfl⟩
      rw [← (List.cons.inj written).1] at numeral
      rintro rfl
      exact absurd numeral (by decide)

/-- A plus sign in front is taken off, and the rest is read as a number. -/
theorem spells_iff {text : String} {value : Nat} :
    Spells text value
      ↔ number? (match text.toList with
        | '+' :: rest => rest
        | whole => whole) = some value := by
  unfold Spells
  generalize text.toList = whole
  constructor
  · rintro ⟨signed, shown, digits, rfl, shows, rfl⟩
    have read : number? shown = some (Nat.ofDigits 10 digits.reverse) :=
      number?_eq_some_iff.mpr ⟨digits, shows, rfl⟩
    cases signed with
    | true => exact read
    | false =>
        rw [if_neg Bool.false_ne_true, List.nil_append]
        split
        · exact absurd rfl shows.head_ne
        · exact read
  · intro read
    obtain ⟨digits, shows, rfl⟩ := number?_eq_some_iff.mp read
    split at shows
    · exact ⟨true, _, digits, rfl, shows, rfl⟩
    · exact ⟨false, _, digits, rfl, shows, rfl⟩

theorem Spells.unique {text : String} {value value' : Nat} (spells : Spells text value)
    (spells' : Spells text value') : value = value' :=
  Option.some.inj ((spells_iff.mp spells).symm.trans (spells_iff.mp spells'))

/-- What is read is the number that the text spells, as long as it has sixty-four bits. -/
theorem word?_eq_some_iff {text : String} {value : Nat} :
    word? text = some value ↔ Spells text value ∧ value ≤ 2 ^ 64 - 1 := by
  rw [spells_iff]
  simp only [word?, Option.filter_eq_some_iff, decide_eq_true_eq]
  rfl

example : word? "+00018446744073709551615" = some (2 ^ 64 - 1)
    ∧ word? "18446744073709551616" = none ∧ word? "+" = none := by decide

/-- A number that is written in decimal is spelled. -/
theorem spells_toString (value : Nat) : Spells (toString value) value := by
  obtain ⟨digits, shows, same⟩ := number?_eq_some_iff.mp (number?_toDigits value)
  exact ⟨false, _, digits, by simp, shows, same⟩

/-- The text is a number in decimal, in just so many digits. -/
def Numeral (width : Nat) (text : List Char) (value : Nat) : Prop :=
  ∃ digits, Shows text digits ∧ digits.length = width ∧ value = Nat.ofDigits 10 digits.reverse

/-- The text is a number in decimal, in at least so many digits and in no more than it needs. -/
def NumeralFrom (least : Nat) (text : List Char) (value : Nat) : Prop :=
  ∃ width, Numeral width text value ∧ least ≤ width ∧ (least < width → 10 ^ (width - 1) ≤ value)

variable {width least value : Nat} {text text' : List Char}

theorem Numeral.isDigit (numeral : Numeral width text value) : ∀ c ∈ text, c.isDigit = true := by
  obtain ⟨digits, ⟨-, small, rfl⟩, -, -⟩ := numeral
  intro c member
  obtain ⟨digit, chosen, rfl⟩ := List.mem_map.mp member
  exact isDigit_iff.mpr ⟨digit, small digit chosen, rfl⟩

theorem Numeral.length_eq (numeral : Numeral width text value) : text.length = width := by
  obtain ⟨digits, ⟨-, -, rfl⟩, rfl, -⟩ := numeral
  exact List.length_map _

theorem Numeral.number?_eq (numeral : Numeral width text value) : number? text = some value := by
  obtain ⟨digits, shows, -, same⟩ := numeral
  exact number?_eq_some_iff.mpr ⟨digits, shows, same⟩

theorem Numeral.value_lt (numeral : Numeral width text value) : value < 10 ^ width := by
  obtain ⟨digits, ⟨-, small, -⟩, rfl, rfl⟩ := numeral
  have small' : ∀ digit ∈ digits.reverse, digit < 10 := by simpa using small
  have bound := Nat.ofDigits_lt_base_pow_length (by decide) small'
  rwa [List.length_reverse] at bound

/-- A number has one text of a given length. -/
theorem Numeral.unique (numeral : Numeral width text value) (numeral' : Numeral width text' value) :
    text = text' := by
  obtain ⟨digits, ⟨-, small, rfl⟩, length, rfl⟩ := numeral
  obtain ⟨digits', ⟨-, small', rfl⟩, length', same⟩ := numeral'
  have reversed : digits.reverse = digits'.reverse := by
    apply Nat.ofDigits_inj_of_len_eq (by decide) _ _ _ same
    · rw [List.length_reverse, List.length_reverse, length, length']
    · simpa using small
    · simpa using small'
  rw [List.reverse_inj.mp reversed]

theorem numeral_toDigits (value : Nat) :
    Numeral (Nat.toDigits 10 value).length (Nat.toDigits 10 value) value := by
  obtain ⟨digits, shows, same⟩ := number?_eq_some_iff.mp (number?_toDigits value)
  refine ⟨digits, shows, ?_, same⟩
  rw [shows.2.2, List.length_map]

/-- Zeros in front do not change the value. -/
theorem Numeral.padded (numeral : Numeral width text value) (zeros : Nat) :
    Numeral (zeros + width) (List.replicate zeros '0' ++ text) value := by
  obtain ⟨digits, ⟨filled, small, rfl⟩, rfl, rfl⟩ := numeral
  refine ⟨List.replicate zeros 0 ++ digits, ⟨?_, ?_, ?_⟩, ?_, ?_⟩
  · simp [filled]
  · intro digit member
    rcases List.mem_append.mp member with zero | member
    · rw [List.eq_of_mem_replicate zero]
      decide
    · exact small digit member
  · rw [List.map_append, List.map_replicate]
    rfl
  · rw [List.length_append, List.length_replicate]
  · rw [List.reverse_append, List.reverse_replicate, Nat.ofDigits_append,
      Nat.ofDigits_replicate_zero, Nat.mul_zero, Nat.add_zero]

theorem numeral_padded (pos : 0 < width) (small : value < 10 ^ width) :
    Numeral width (padded width value) value := by
  have short := Nat.toDigits_length 10 value width pos small
  have filled := (numeral_toDigits value).padded (width - (Nat.toDigits 10 value).length)
  rwa [Nat.sub_add_cancel short] at filled

theorem numeral_iff (pos : 0 < width) :
    Numeral width text value ↔ value < 10 ^ width ∧ text = padded width value := by
  constructor
  · intro numeral
    exact ⟨numeral.value_lt, numeral.unique (numeral_padded pos numeral.value_lt)⟩
  · rintro ⟨small, rfl⟩
    exact numeral_padded pos small

theorem padded_of_long (long : width ≤ (Nat.toDigits 10 value).length) :
    padded width value = Nat.toDigits 10 value := by
  rw [padded, List.leftpad, Nat.sub_eq_zero_of_le long]
  rfl

theorem numeralFrom_padded (pos : 0 < least) (value : Nat) :
    NumeralFrom least (padded least value) value := by
  let length := (Nat.toDigits 10 value).length
  have own : value < 10 ^ length := (numeral_toDigits value).value_lt
  by_cases short : length ≤ least
  · have small : value < 10 ^ least := own.trans_le (Nat.pow_le_pow_right (by decide) short)
    exact ⟨least, numeral_padded pos small, le_rfl, fun longer => absurd longer (lt_irrefl _)⟩
  · have long : least ≤ length := by omega
    refine ⟨length, ?_, long, fun _ => ?_⟩
    · rw [padded_of_long long]
      exact numeral_toDigits value
    · by_contra below
      have shorter := Nat.toDigits_length 10 value (length - 1) (by omega) (by omega)
      omega

/-- A number that is filled up to a least length has one text. -/
theorem numeralFrom_iff (pos : 0 < least) : NumeralFrom least text value ↔ text = padded least value := by
  constructor
  · rintro ⟨width, numeral, long, needed⟩
    rw [numeral_iff (pos.trans_le long)] at numeral
    obtain ⟨small, rfl⟩ := numeral
    rcases long.eq_or_lt with rfl | longer
    · rfl
    · have above : width - 1 < (Nat.toDigits 10 value).length :=
        (Nat.pow_lt_pow_iff_right (by decide : 1 < 10)).mp
          ((needed longer).trans_lt (numeral_toDigits value).value_lt)
      have reaches : width ≤ (Nat.toDigits 10 value).length := by omega
      rw [padded_of_long reaches, padded_of_long (long.trans reaches)]
  · rintro rfl
    exact numeralFrom_padded pos value

end Text

end PartitionedTable
