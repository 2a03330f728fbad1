import Mathlib.Algebra.Order.BigOperators.Group.List
import Mathlib.Algebra.Order.Ring.Nat
import Mathlib.Data.Set.Function
import PartitionedTable.Proofs.Containment

/-!
What a path is called as seen from a root, and where that name leads. Taking the root off goes by
whole segments and loses nothing: root and name, joined, give the path again, so below one root no
two paths have the same name. Resolving the name is another matter, since that percent-encodes each
segment: it leads back to the path exactly if no byte below the root has to be encoded, and to a
longer path otherwise.
-/

namespace PartitionedTable

namespace Text

/-- Two texts with a separator between them; where one of them is empty there is none. -/
def joined (front rest : String) : String :=
  if front = "" then rest else if rest = "" then front else front ++ "/" ++ rest

/-- The size of a text is the number of its bytes. -/
theorem utf8ByteSize_eq (text : String) :
    text.utf8ByteSize = (text.toList.flatMap String.utf8EncodeChar).length := by
  rw [← toUTF8_toList, ByteArray.toList, toList_loop]
  simp

/-- Joining texts puts one byte between each two of them. -/
theorem utf8ByteSize_intercalate (first : String) (others : List String) :
    ("/".intercalate (first :: others)).utf8ByteSize + 1
      = ((first :: others).map fun text => text.utf8ByteSize + 1).sum := by
  have separator : "/".utf8ByteSize = 1 := by decide
  induction others generalizing first with
  | nil => simp
  | cons second others ih =>
      have rest := ih second
      rw [String.intercalate_cons_cons, String.utf8ByteSize_append, String.utf8ByteSize_append,
        separator, List.map_cons, List.sum_cons, ← rest]
      omega

end Text

namespace Path

theorem prefix_iff_under {root path : Path} :
    root.segments <+: path.segments ↔ ∃ names, path = root.under names := by
  constructor
  · rintro ⟨names, joined⟩
    exact ⟨names, ext_segments joined.symm⟩
  · rintro ⟨names, rfl⟩
    exact List.prefix_append _ _

@[simp] theorem drop_segments_under (root : Path) (names : List String) :
    (root.under names).segments.drop root.segments.length = names :=
  List.drop_left

theorem Valid.of_under {root : Path} {names : List String} (valid : (root.under names).Valid) :
    ∀ name ∈ names, IsName name :=
  fun name member => valid name (List.mem_append_right _ member)

/-- Of names that a path can hold, the joined text is empty only if there are none. -/
theorem intercalate_eq_empty_iff {names : List String} (valid : ∀ name ∈ names, IsName name) :
    "/".intercalate names = "" ↔ names = [] := by
  have path : Valid ⟨names⟩ := valid
  rw [show names = [] ↔ (⟨names⟩ : Path) = top by simp [top]]
  exact path.text_eq_empty_iff

/-- A root's text and the way from it, joined, are the text of the path that is reached. -/
theorem joined_text {root : Path} (valid : root.Valid) {names : List String}
    (names_valid : ∀ name ∈ names, IsName name) :
    Text.joined root.text ("/".intercalate names) = (root.under names).text := by
  unfold Text.joined
  by_cases atTop : root = top
  · subst atTop
    rw [if_pos (valid.text_eq_empty_iff.mpr rfl)]
    rfl
  by_cases here : names = []
  · subst here
    simp [valid.text_eq_empty_iff, atTop]
  · rw [if_neg (valid.text_eq_empty_iff.not.mpr atTop),
      if_neg ((intercalate_eq_empty_iff names_valid).not.mpr here), text_under atTop here]

/-- Taking the root off a path loses nothing. For paths that a store can hold it comes to the same
whether whole segments or texts are taken off. It succeeds exactly if the root's segments are the
first ones of the path; what is left is then the other segments, joined, which can be taken apart
again, and joining it to the root gives the text of the path. It is empty for the root only. So no two
paths have the same name below one root. -/
theorem relativeName_loses_nothing {root path : Path} (valid : root.Valid) (valid' : path.Valid) :
    relativeName? root path = Text.behind? root.text path.text
      ∧ (∀ way, relativeName? root path = some way
          ↔ root.segments <+: path.segments
            ∧ way = "/".intercalate (path.segments.drop root.segments.length))
      ∧ (∀ way, relativeName? root path = some way →
          Text.joined root.text way = path.text
            ∧ Text.parts '/' way = path.segments.drop root.segments.length
            ∧ (way = "" ↔ path = root))
      ∧ Set.InjOn (relativeName? root) {other | other.Valid ∧ (relativeName? root other).isSome} := by
  refine ⟨relativeName?_eq_behind? valid valid', fun way => ?_, fun way named => ?_, ?_⟩
  · rw [relativeName?_eq_some_iff, prefix_iff_under]
    constructor
    · rintro ⟨names, rfl, rfl⟩
      exact ⟨⟨names, rfl⟩, by rw [drop_segments_under]⟩
    · rintro ⟨⟨names, rfl⟩, rfl⟩
      exact ⟨names, rfl, by rw [drop_segments_under]⟩
  · obtain ⟨names, rfl, rfl⟩ := relativeName?_eq_some_iff.mp named
    have ordinary := valid'.of_under
    refine ⟨joined_text valid ordinary, ?_, ?_⟩
    · rw [Text.parts_intercalate ordinary, drop_segments_under]
    · rw [intercalate_eq_empty_iff ordinary, ← root.under_injective.eq_iff, under_nil]
  · rintro left ⟨leftValid, below⟩ right ⟨rightValid, -⟩ same
    obtain ⟨way, named⟩ := Option.isSome_iff_exists.mp below
    obtain ⟨names, rfl, -⟩ := relativeName?_eq_some_iff.mp named
    obtain ⟨names', rfl, -⟩ := relativeName?_eq_some_iff.mp (same.symm.trans named)
    exact eq_of_relativeName?_eq leftValid.of_under rightValid.of_under same

/-- A directory beside the root whose text begins like the root's is not below it. -/
theorem relativeName_loses_nothing_beside :
    let root : Path := ⟨["lake", "trips"]⟩
    let path : Path := ⟨["lake", "trips", "city=Zürich", "2024"]⟩
    let beside : Path := ⟨["lake", "trips2", "2024"]⟩
    root.Valid ∧ path.Valid ∧ beside.Valid
      ∧ Text.behind? root.text path.text = some "city=Zürich/2024"
      ∧ Text.joined root.text "city=Zürich/2024" = path.text
      ∧ ∀ way, Text.behind? root.text beside.text ≠ some way := by
  intro root path beside
  have valid : root.Valid := by simp [root, Valid, IsName]
  have valid' : path.Valid := by simp [path, Valid, IsName]
  have valid'' : beside.Valid := by simp [beside, Valid, IsName]
  obtain ⟨texts, found, onward, -⟩ := relativeName_loses_nothing valid valid'
  obtain ⟨texts', found', -⟩ := relativeName_loses_nothing valid valid''
  have named := (found "city=Zürich/2024").mpr ⟨by decide, by decide⟩
  refine ⟨valid, valid', valid'', texts ▸ named, (onward _ named).1, fun way named' => ?_⟩
  have first := ((found' way).mp (texts' ▸ named')).1
  exact absurd first (by decide)

/-- No byte of a name has to be percent-encoded. -/
def Verbatim (name : String) : Prop := ∀ byte ∈ name.toUTF8.toList, mustEscape byte = false

instance (name : String) : Decidable (Verbatim name) :=
  inferInstanceAs (Decidable (∀ byte ∈ name.toUTF8.toList, mustEscape byte = false))

theorem forall_utf8EncodeChar_iff {c : Char} :
    (∀ byte ∈ String.utf8EncodeChar c, mustEscape byte = false) ↔ IsPlain c := by
  constructor
  · intro kept
    by_contra special
    obtain ⟨byte, member, escaped⟩ := exists_mustEscape special
    simp [kept byte member] at escaped
  · intro plain byte member
    rw [String.utf8EncodeChar_eq_singleton plain.utf8Size, List.mem_singleton] at member
    rw [member]
    exact (mustEscape_eq_false_iff plain.utf8Size).mpr plain

/-- Byte by byte and character by character the same names are plain. -/
theorem verbatim_iff_plainName {name : String} : Verbatim name ↔ PlainName name := by
  unfold Verbatim PlainName
  rw [Text.toUTF8_toList]
  simp only [List.mem_flatMap, forall_exists_index, and_imp]
  constructor
  · exact fun kept c member => forall_utf8EncodeChar_iff.mp fun byte => kept byte c member
  · exact fun plain byte c member => forall_utf8EncodeChar_iff.mpr (plain c member) byte

/-- The parts that stand as they are: those that do not climb and of which no byte is encoded. -/
theorem escape_eq_self_iff_verbatim {part : String} :
    escape part = part ↔ part ≠ "." ∧ part ≠ ".." ∧ Verbatim part := by
  by_cases single : part = "."
  · subst single
    simp [escape]
  by_cases double : part = ".."
  · subst double
    simp [escape]
  rw [escape_eq_flatMap single double, verbatim_iff_plainName, PlainName,
    ← flatMap_escapeChar_eq_self_iff, ← String.toList_inj, String.toList_ofList]
  simp [single, double]

theorem length_utf8Encode_escapeByte (byte : UInt8) :
    ((escapeByte byte).flatMap String.utf8EncodeChar).length
      = if mustEscape byte then 3 else 1 := by
  have digit : ∀ value < 16, (hexDigit value).utf8Size = 1 := by decide
  have small : byte.toNat < 256 := byte.toNat_lt
  by_cases escaped : mustEscape byte = true
  · have high := digit (byte.toNat / 16) (by omega)
    have low := digit (byte.toNat % 16) (by omega)
    have percent : '%'.utf8Size = 1 := by decide
    rw [escapeByte_of_mustEscape escaped, if_pos escaped]
    simp [String.length_utf8EncodeChar, high, low, percent]
  · obtain ⟨c, written, _, plain⟩ := escapeByte_of_not_mustEscape escaped
    rw [written, if_neg escaped]
    simp [String.length_utf8EncodeChar, plain.utf8Size]

/-- Each byte that has to be encoded makes a segment two bytes longer. -/
theorem utf8ByteSize_escape {part : String} (single : part ≠ ".") (double : part ≠ "..") :
    (escape part).utf8ByteSize
      = part.utf8ByteSize + 2 * part.toUTF8.toList.countP mustEscape := by
  have bytes : part.utf8ByteSize = part.toUTF8.toList.length := by
    rw [Text.utf8ByteSize_eq, Text.toUTF8_toList]
  rw [bytes, Text.utf8ByteSize_eq, escape, if_neg single, if_neg double, String.toList_ofList]
  generalize part.toUTF8.toList = text
  induction text with
  | nil => rfl
  | cons byte text ih =>
      rw [List.flatMap_cons, List.flatMap_append, List.length_append, ih,
        length_utf8Encode_escapeByte, List.countP_cons, List.length_cons]
      by_cases escaped : mustEscape byte = true
      · simp [escaped]
        omega
      · simp [escaped]
        omega

theorem utf8ByteSize_le_escape {name : String} (valid : IsName name) :
    name.utf8ByteSize ≤ (escape name).utf8ByteSize := by
  rw [utf8ByteSize_escape valid.2.1 valid.2.2.1]
  omega

theorem utf8ByteSize_lt_escape {name : String} (valid : IsName name) (special : ¬ Verbatim name) :
    name.utf8ByteSize < (escape name).utf8ByteSize := by
  have encoded : 0 < name.toUTF8.toList.countP mustEscape := by
    rw [List.countP_pos_iff]
    simpa [Verbatim] using special
  rw [utf8ByteSize_escape valid.2.1 valid.2.2.1]
  omega

theorem utf8ByteSize_text {path : Path} (below : path ≠ top) :
    path.text.utf8ByteSize + 1 = (path.segments.map fun name => name.utf8ByteSize + 1).sum := by
  obtain ⟨first, others, segments⟩ := List.exists_cons_of_ne_nil (segments_ne_nil below)
  rw [text, segments]
  exact Text.utf8ByteSize_intercalate first others

/-- Encoding the names below a root makes the path longer as soon as one of them needs it. -/
theorem utf8ByteSize_text_lt (root : Path) {names : List String}
    (valid : ∀ name ∈ names, IsName name) (special : ∃ name ∈ names, ¬ Verbatim name) :
    (root.under names).text.utf8ByteSize < (root.under (names.map escape)).text.utf8ByteSize := by
  have onward : names ≠ [] := by
    rintro rfl
    simp at special
  have below : ∀ names' : List String, names' ≠ [] → root.under names' ≠ top := by
    intro names' filled same
    simp [under, top, filled] at same
  have sizes := utf8ByteSize_text (below names onward)
  have sizes' := utf8ByteSize_text (below (names.map escape) (by simpa using onward))
  have grows : (names.map fun name => name.utf8ByteSize + 1).sum
      < ((names.map escape).map fun name => name.utf8ByteSize + 1).sum := by
    rw [List.map_map]
    apply List.sum_lt_sum
    · intro name member
      exact Nat.succ_le_succ (utf8ByteSize_le_escape (valid name member))
    · obtain ⟨name, member, escaped⟩ := special
      exact ⟨name, member, Nat.succ_lt_succ (utf8ByteSize_lt_escape (valid name member) escaped)⟩
  rw [segments_under, List.map_append, List.sum_append] at sizes sizes'
  omega

/-- A resolved part can be resolved again unchanged only if nothing was encoded in it. -/
theorem verbatim_escape_iff {part : String} :
    Verbatim (escape part) ↔ part ≠ "." ∧ part ≠ ".." ∧ Verbatim part := by
  constructor
  · intro kept
    have clean : '%' ∉ (escape part).toList := by
      intro member
      exact absurd (verbatim_iff_plainName.mp kept '%' member) (by decide)
    exact escape_eq_self_iff_verbatim.mp (escape_eq_self_of_percent_not_mem clean)
  · rintro ⟨single, double, kept⟩
    rwa [escape_eq_self_iff_verbatim.mpr ⟨single, double, kept⟩]

/-- When what a directory is called leads back to it. Resolved below the root, the name gives the
directory exactly if no byte of the directory's names below the root has to be percent-encoded, and a
path with more bytes otherwise. So a spelling that is resolved, named and resolved again gives the same
directory exactly if no part of it had to be encoded. -/
theorem resolve_leads_back_iff {root directory : Path} {way : String} (valid : directory.Valid)
    (named : relativeName? root directory = some way) :
    (resolve root way = directory
        ↔ ∀ name ∈ directory.segments.drop root.segments.length, Verbatim name)
      ∧ (resolve root way ≠ directory →
          directory.text.utf8ByteSize < (resolve root way).text.utf8ByteSize)
      ∧ ∀ spelling, ∃ called, relativeName? root (resolve root spelling) = some called
          ∧ (resolve root called = resolve root spelling
            ↔ ∀ part ∈ Text.parts '/' spelling, part ≠ "." ∧ part ≠ ".." ∧ Verbatim part) := by
  obtain ⟨names, rfl, rfl⟩ := relativeName?_eq_some_iff.mp named
  have ordinary := valid.of_under
  have back : resolve root ("/".intercalate names) = root.under names
      ↔ ∀ name ∈ names, Verbatim name := by
    simp only [resolve_intercalate_eq_iff root ordinary, verbatim_iff_plainName]
  refine ⟨by rw [back, drop_segments_under], fun different => ?_, fun spelling => ?_⟩
  · have special : ∃ name ∈ names, ¬ Verbatim name := by simpa using back.not.mp different
    rw [resolve_eq_under, Text.parts_intercalate ordinary]
    exact utf8ByteSize_text_lt root ordinary special
  · have encoded : ∀ name ∈ (Text.parts '/' spelling).map escape, IsName name :=
      fun _ => isName_of_mem_map_escape
    refine ⟨_, relativeName?_under root _, ?_⟩
    rw [resolve_eq_under root spelling, resolve_intercalate_eq_iff root encoded,
      List.forall_mem_map]
    simp only [← verbatim_iff_plainName, verbatim_escape_iff]

/-- A name with two bytes of text beyond ASCII leads to a path that is four bytes longer. -/
theorem resolve_leads_back_iff_umlaut :
    let root : Path := ⟨["lake"]⟩
    let directory : Path := ⟨["lake", "city=Zürich", "2024"]⟩
    directory.Valid ∧ relativeName? root directory = some "city=Zürich/2024"
      ∧ resolve root "city=Zürich/2024" ≠ directory
      ∧ directory.text.utf8ByteSize < (resolve root "city=Zürich/2024").text.utf8ByteSize := by
  intro root directory
  have valid : directory.Valid := by simp [directory, Valid, IsName]
  have named : relativeName? root directory = some "city=Zürich/2024" := by decide
  obtain ⟨back, longer, -⟩ := resolve_leads_back_iff valid named
  have different := back.not.mpr (by decide +kernel)
  exact ⟨valid, named, different, longer different⟩

end Path

end PartitionedTable
