import PartitionedTable.Proofs.Spelling

/-!
No spelling leads out of the table. What is spelled is reached from the root by one name for each part
of the spelling, and such a name is a segment of its own: it is not empty, it does not climb, and it
holds nothing but plain characters and percent-encoded bytes. The way from a root to a path below it is
told by whole segments; of paths that a store can hold, the texts alone tell the same
(`Path.relativeName?_eq_behind?`).
-/

namespace PartitionedTable

namespace Text

/-- What is left of `whole` behind `front`, told from the texts alone: behind a front that is not empty,
a rest that is not empty begins with a separator. -/
def behind? (front whole : String) : Option String :=
  ((front.toList.isPrefixOf? whole.toList).bind fun rest =>
    if front = "" ∨ rest = [] then some rest else ['/'].isPrefixOf? rest).map String.ofList

theorem behind?_eq_some_iff {front whole rest : String} :
    behind? front whole = some rest
      ↔ (front = "" ∧ whole = rest) ∨ (whole = front ∧ rest = "")
        ∨ (front ≠ "" ∧ whole = front ++ "/" ++ rest) := by
  unfold behind?
  simp only [Option.map_eq_some_iff, Option.bind_eq_some_iff,
    List.isPrefixOf?_eq_some_iff_append_eq]
  constructor
  · rintro ⟨_, ⟨behind, joined, left⟩, rfl⟩
    split at left
    · rename_i short
      cases left
      rcases short with rfl | rfl
      · exact .inl ⟨rfl, by rw [← String.toList_inj, ← joined, String.toList_ofList]; simp⟩
      · exact .inr (.inl ⟨by rw [← String.toList_inj, ← joined, List.append_nil], rfl⟩)
    · rename_i long
      rw [List.isPrefixOf?_eq_some_iff_append_eq] at left
      refine .inr (.inr ⟨(not_or.mp long).1, ?_⟩)
      rw [← String.toList_inj, ← joined, ← left]
      simp [String.toList_append]
  · rintro (⟨rfl, rfl⟩ | ⟨rfl, rfl⟩ | ⟨filled, rfl⟩)
    · exact ⟨whole.toList, ⟨whole.toList, rfl, if_pos (.inl rfl)⟩, String.ofList_toList⟩
    · exact ⟨[], ⟨[], List.append_nil _, if_pos (.inr rfl)⟩, rfl⟩
    · refine ⟨rest.toList, ⟨'/' :: rest.toList, by simp [String.toList_append], ?_⟩,
        String.ofList_toList⟩
      rw [if_neg (by simp [filled]), List.isPrefixOf?_eq_some_iff_append_eq]
      rfl

end Text

namespace Path

theorem valid_top : top.Valid := fun _ member => absurd member List.not_mem_nil

/-- Of the paths that a store can hold, only its root has no text. -/
theorem Valid.text_eq_empty_iff {path : Path} (valid : path.Valid) : path.text = "" ↔ path = top :=
  valid.text_inj valid_top

/-- Taking a root's text off the text of a path leaves the way from the root to the path. -/
theorem relativeName?_eq_behind? {root path : Path} (valid : root.Valid) (valid' : path.Valid) :
    relativeName? root path = Text.behind? root.text path.text := by
  apply Option.ext
  intro way
  rw [Text.behind?_eq_some_iff, relativeName?_eq_some_iff]
  constructor
  · rintro ⟨names, rfl, rfl⟩
    by_cases atTop : root = top
    · subst atTop
      exact .inl ⟨rfl, rfl⟩
    by_cases here : names = []
    · subst here
      exact .inr (.inl ⟨by rw [under_nil], rfl⟩)
    · exact .inr (.inr ⟨valid.text_eq_empty_iff.not.mpr atTop, text_under atTop here⟩)
  · rintro (⟨empty, rfl⟩ | ⟨same, rfl⟩ | ⟨filled, joined⟩)
    · obtain rfl := valid.text_eq_empty_iff.mp empty
      exact ⟨path.segments, rfl, rfl⟩
    · obtain rfl := (valid'.text_inj valid).mp same
      exact ⟨[], (under_nil path).symm, rfl⟩
    · have atTop : root ≠ top := valid.text_eq_empty_iff.not.mp filled
      -- The parts of what is left are the names behind the root's own.
      have below : path = root.under (Text.parts '/' way) := by
        apply ext_segments
        rw [← valid'.parts_text, joined, Text.parts_append, valid.parts_text]
        rfl
      have onward : Text.parts '/' way ≠ [] := by
        intro none
        rw [none, under_nil] at below
        rw [below] at joined
        have lengths := congrArg String.length joined
        have separator : "/".length = 1 := rfl
        rw [String.length_append, String.length_append] at lengths
        omega
      rw [below, text_under atTop onward] at joined
      exact ⟨_, below, (String.append_right_inj _).mp joined⟩

/-- The upper-case hexadecimal digits. -/
def hexDigits : List Char := "0123456789ABCDEF".toList

/-- Text made of characters that stand as they are and of bytes that are written as a percent sign
and two upper-case hexadecimal digits. -/
inductive IsEncoded : List Char → Prop where
  | nil : IsEncoded []
  | plain {c : Char} {rest : List Char} (kept : IsPlain c) (encoded : IsEncoded rest) :
      IsEncoded (c :: rest)
  | byte {high low : Char} {rest : List Char} (upper : high ∈ hexDigits) (lower : low ∈ hexDigits)
      (encoded : IsEncoded rest) : IsEncoded ('%' :: high :: low :: rest)

theorem hexDigit_mem : ∀ value < 16, hexDigit value ∈ hexDigits := by decide

theorem IsEncoded.escapeByte_append (byte : UInt8) {rest : List Char} (encoded : IsEncoded rest) :
    IsEncoded (escapeByte byte ++ rest) := by
  have small : byte.toNat < 256 := byte.toNat_lt
  by_cases escaped : mustEscape byte = true
  · rw [escapeByte_of_mustEscape escaped]
    exact .byte (hexDigit_mem _ (by omega)) (hexDigit_mem _ (by omega)) encoded
  · obtain ⟨c, written, _, plain⟩ := escapeByte_of_not_mustEscape escaped
    rw [written]
    exact .plain plain encoded

theorem isEncoded_flatMap_escapeByte (bytes : List UInt8) :
    IsEncoded (bytes.flatMap escapeByte) := by
  induction bytes with
  | nil => exact .nil
  | cons byte bytes ih => exact ih.escapeByte_append byte

/-- Whatever a part holds, its segment is encoded; the two parts that climb are so dot by dot. -/
theorem isEncoded_escape (part : String) : IsEncoded (escape part).toList := by
  have two : '2' ∈ hexDigits := by decide
  have fourteen : 'E' ∈ hexDigits := by decide
  by_cases single : part = "."
  · subst single
    exact .byte two fourteen .nil
  by_cases double : part = ".."
  · subst double
    exact .byte two fourteen (.byte two fourteen .nil)
  rw [escape, if_neg single, if_neg double, String.toList_ofList]
  exact isEncoded_flatMap_escapeByte _

/-- No spelling leads out of the table. The way from the root to what is spelled is the encoded parts,
one after another, whether it is told by segments or by texts, and the root's own segments stand in
front of it. Taken apart again it gives just these parts; none of them is empty or climbs, and each
is encoded. -/
theorem resolve_stays_below {root : Path} (valid : root.Valid) (spelling : String) :
    let names := (Text.parts '/' spelling).map escape
    let way := "/".intercalate names
    let reached := resolve root spelling
    relativeName? root reached = some way
      ∧ Text.behind? root.text reached.text = some way
      ∧ reached.segments = root.segments ++ names ∧ reached.Valid
      ∧ (way = "" ↔ Text.parts '/' spelling = [])
      ∧ (way ≠ "" → Text.fields '/' way.toList = names.map String.toList)
      ∧ ∀ name ∈ names, name ≠ "" ∧ name ≠ "." ∧ name ≠ ".." ∧ IsEncoded name.toList := by
  intro names way reached
  have below : relativeName? root reached = some way := relativeName?_under root names
  have ordinary : ∀ name ∈ names, IsName name := fun _ => isName_of_mem_map_escape
  have empty : way = "" ↔ names = [] := by
    constructor
    · intro bare
      rw [← Text.parts_intercalate ordinary]
      exact congrArg (Text.parts '/') bare
    · intro none
      exact congrArg "/".intercalate none
  refine ⟨below, ?_, rfl, valid.resolve spelling, empty.trans List.map_eq_nil_iff,
    fun filled => Text.fields_names ordinary (empty.not.mp filled), fun name member => ?_⟩
  · rw [← relativeName?_eq_behind? valid (valid.resolve spelling), below]
  · obtain ⟨part, _, rfl⟩ := List.mem_map.mp member
    obtain ⟨notEmpty, notDot, notDots, _⟩ := ordinary _ member
    exact ⟨notEmpty, notDot, notDots, isEncoded_escape part⟩

/-- Dots that would climb, a percent sign that is already there and text beyond ASCII stay below. -/
theorem resolve_stays_below_dots :
    let root : Path := ⟨["lake", "a%b"]⟩
    let spelling := "/../a%2E//é"
    root.Valid ∧ relativeName? root (resolve root spelling) = some "%2E%2E/a%252E/%C3%A9"
      ∧ Text.behind? root.text (resolve root spelling).text = some "%2E%2E/a%252E/%C3%A9" := by
  intro root spelling
  have valid : root.Valid := by
    simp [root, Valid, IsName]
  have way : "/".intercalate ((Text.parts '/' spelling).map escape) = "%2E%2E/a%252E/%C3%A9" := by
    decide +kernel
  obtain ⟨below, behind, _⟩ := resolve_stays_below valid spelling
  exact ⟨valid, way ▸ below, way ▸ behind⟩

end Path

end PartitionedTable
