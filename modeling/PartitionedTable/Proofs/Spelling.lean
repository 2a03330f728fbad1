import PartitionedTable.Proofs.Keys

/-!
Reading back what a directory is called. The name of a directory under a root joins its segments,
and taking the name apart gives the same segments again. Resolving the name then percent-encodes
each of them, which keeps a segment exactly if it is plain: printable ASCII without the reserved
punctuation.
-/

namespace PartitionedTable

namespace Text

variable {separator : Char}

theorem fields_of_not_mem {text : List Char} (absent : separator ∉ text) :
    fields separator text = [text] := by
  induction text with
  | nil => rfl
  | cons c rest ih =>
      obtain ⟨different, absent⟩ := not_or.mp (List.mem_cons.not.mp absent)
      rw [fields, if_neg (Ne.symm different), ih absent]

/-- A separator parts what stands before it from what stands behind it. -/
theorem fields_append_cons (text rest : List Char) :
    fields separator (text ++ separator :: rest) = fields separator text ++ fields separator rest := by
  induction text with
  | nil => simp [fields]
  | cons c text ih =>
      rw [List.cons_append, fields, fields, ih]
      by_cases here : c = separator
      · rw [if_pos here, if_pos here, List.cons_append]
      · rw [if_neg here, if_neg here]
        cases pieces : fields separator text with
        | nil => exact absurd pieces (fields_ne_nil separator text)
        | cons piece others => rfl

theorem fields_append {piece : List Char} (absent : separator ∉ piece) (rest : List Char) :
    fields separator (piece ++ separator :: rest) = piece :: fields separator rest := by
  rw [fields_append_cons, fields_of_not_mem absent, List.singleton_append]

theorem fields_intercalate {first : List Char} {pieces : List (List Char)}
    (clean : ∀ piece ∈ first :: pieces, separator ∉ piece) :
    fields separator ([separator].intercalate (first :: pieces)) = first :: pieces := by
  induction pieces generalizing first with
  | nil =>
      rw [List.intercalate_singleton]
      exact fields_of_not_mem (clean first List.mem_cons_self)
  | cons second pieces ih =>
      rw [List.intercalate_cons_cons, List.append_assoc, List.singleton_append,
        fields_append (clean first List.mem_cons_self),
        ih fun piece member => clean piece (List.mem_cons_of_mem first member)]

/-- Names that a path can hold are the pieces of their joined text, and none of the pieces is empty. -/
theorem fields_names {names : List String} (valid : ∀ name ∈ names, Path.IsName name)
    (filled : names ≠ []) :
    fields '/' ("/".intercalate names).toList = names.map String.toList := by
  have clean : ∀ piece ∈ names.map String.toList, '/' ∉ piece := by
    intro piece chosen separated
    obtain ⟨name, member, rfl⟩ := List.mem_map.mp chosen
    exact ((valid name member).2.2.2 '/' separated).1 rfl
  rw [String.toList_intercalate]
  cases names with
  | nil => exact absurd rfl filled
  | cons first others => exact fields_intercalate clean

/-- Names that a path can hold are the parts of their joined text. -/
theorem parts_intercalate {names : List String} (valid : ∀ name ∈ names, Path.IsName name) :
    parts '/' ("/".intercalate names) = names := by
  by_cases empty : names = []
  · subst empty
    rfl
  · have kept : ∀ piece ∈ names.map String.toList, (!piece.isEmpty) = true := by
      intro piece chosen
      obtain ⟨name, member, rfl⟩ := List.mem_map.mp chosen
      rw [Bool.not_eq_true', Bool.eq_false_iff, ne_eq, List.isEmpty_iff, String.toList_eq_nil_iff]
      exact (valid name member).1
    rw [parts, fields_names valid empty, List.filter_eq_self.mpr kept, List.map_map]
    exact List.map_id'' (fun name => String.ofList_toList) _

/-- The parts of two texts with a separator between them are those of the one and of the other. -/
theorem parts_append (text rest : String) :
    parts '/' (text ++ "/" ++ rest) = parts '/' text ++ parts '/' rest := by
  have joined : (text ++ "/" ++ rest).toList = text.toList ++ '/' :: rest.toList := by
    simp [String.toList_append]
  rw [parts, joined, fields_append_cons, List.filter_append, List.map_append]
  rfl

theorem ne_empty_of_mem_parts {text part : String} (member : part ∈ parts separator text) :
    part ≠ "" := by
  obtain ⟨piece, kept, rfl⟩ := List.mem_map.mp member
  have filled := (List.mem_filter.mp kept).2
  rintro empty
  rw [String.ofList_eq_empty_iff] at empty
  rw [empty] at filled
  cases filled

/-- Reading the bytes from a position adds what lies behind it. -/
theorem toList_loop (bytes : ByteArray) (position : Nat) (seen : List UInt8) :
    ByteArray.toList.loop bytes position seen
      = seen.reverse ++ bytes.data.toList.drop position := by
  induction left : bytes.size - position generalizing position seen with
  | zero =>
      have past : ¬ position < bytes.size := by omega
      have short : bytes.data.toList.length ≤ position := by
        rw [Array.length_toList]
        exact Nat.le_of_not_lt past
      rw [ByteArray.toList.loop, if_neg past, List.drop_eq_nil_of_le short, List.append_nil]
  | succ left ih =>
      have inside : position < bytes.size := by omega
      have here : position < bytes.data.toList.length := by
        rw [Array.length_toList]
        exact inside
      have next : bytes.get! position = bytes.data.toList[position] := by
        rw [ByteArray.get!, getElem!_pos bytes.data position inside, Array.getElem_toList]
      rw [ByteArray.toList.loop, if_pos inside, ih (position + 1) _ (by omega),
        List.drop_eq_getElem_cons here, next]
      simp

theorem toList_toByteArray (bytes : List UInt8) : bytes.toByteArray.toList = bytes := by
  rw [ByteArray.toList, toList_loop, List.toList_data_toByteArray]
  rfl

/-- A text is encoded character by character. -/
theorem toUTF8_toList (text : String) :
    text.toUTF8.toList = text.toList.flatMap String.utf8EncodeChar := by
  rw [String.toUTF8_eq_toByteArray, ← String.utf8Encode_toList, List.utf8Encode, toList_toByteArray]

end Text

namespace Path

/-- A character that stands in a resolved segment as it is. -/
def IsPlain (c : Char) : Prop := 0x1F < c.toNat ∧ c.toNat < 0x7F ∧ c ∉ reserved

instance (c : Char) : Decidable (IsPlain c) :=
  inferInstanceAs (Decidable (0x1F < c.toNat ∧ c.toNat < 0x7F ∧ c ∉ reserved))

/-- A name that resolving leaves as it is, unless it is one of the two that climb. -/
def PlainName (name : String) : Prop := ∀ c ∈ name.toList, IsPlain c

instance (name : String) : Decidable (PlainName name) :=
  inferInstanceAs (Decidable (∀ c ∈ name.toList, IsPlain c))

/-- What resolving writes for one character. -/
def escapeChar (c : Char) : List Char := (String.utf8EncodeChar c).flatMap escapeByte

theorem escape_eq_flatMap {name : String} (single : name ≠ ".") (double : name ≠ "..") :
    escape name = String.ofList (name.toList.flatMap escapeChar) := by
  rw [escape, if_neg single, if_neg double, Text.toUTF8_toList, List.flatMap_assoc]
  rfl

theorem toNat_byte {c : Char} (single : c.utf8Size = 1) : c.val.toUInt8.toNat = c.toNat := by
  have small : c.val ≤ 127 := Char.utf8Size_eq_one_iff.mp single
  have bound : c.toNat ≤ 127 := UInt32.le_iff_toNat_le.mp small
  change c.toNat % 256 = c.toNat
  omega

/-- The bytes that stand as they are come from the plain characters. -/
theorem mustEscape_eq_false_iff {c : Char} (single : c.utf8Size = 1) :
    mustEscape c.val.toUInt8 = false ↔ IsPlain c := by
  have reservedByte : (∀ r ∈ reserved, r.toNat ≠ c.toNat) ↔ c ∉ reserved := by
    constructor
    · exact fun apart member => apart c member rfl
    · rintro absent r member equal
      exact absent (Char.toNat_inj.mp equal ▸ member)
  unfold mustEscape IsPlain
  rw [toNat_byte single, ← reservedByte]
  simp only [Bool.or_eq_false_iff, decide_eq_false_iff_not, beq_eq_false_iff_ne, List.any_eq_false,
    beq_iff_eq]
  constructor
  · rintro ⟨⟨⟨ascii, printable⟩, notDelete⟩, apart⟩
    exact ⟨by omega, by omega, apart⟩
  · rintro ⟨printable, ascii, apart⟩
    exact ⟨⟨⟨by omega, by omega⟩, by omega⟩, apart⟩

theorem IsPlain.utf8Size {c : Char} (plain : IsPlain c) : c.utf8Size = 1 := by
  rw [Char.utf8Size_eq_one_iff, UInt32.le_iff_toNat_le]
  exact Nat.le_of_lt plain.2.1

theorem escapeChar_of_isPlain {c : Char} (plain : IsPlain c) : escapeChar c = [c] := by
  have single := plain.utf8Size
  unfold escapeChar
  rw [String.utf8EncodeChar_eq_singleton single, List.flatMap_singleton, escapeByte,
    (mustEscape_eq_false_iff single).mpr plain, toNat_byte single, Char.ofNat_toNat]
  rfl

theorem length_le_length_flatMap_escapeByte (bytes : List UInt8) :
    bytes.length ≤ (bytes.flatMap escapeByte).length := by
  induction bytes with
  | nil => exact Nat.le_refl 0
  | cons byte bytes ih =>
      have grows : 1 ≤ (escapeByte byte).length := by
        unfold escapeByte
        split <;> simp
      rw [List.flatMap_cons, List.length_append, List.length_cons]
      omega

/-- A character that is not plain grows. -/
theorem one_lt_length_escapeChar {c : Char} (special : ¬ IsPlain c) :
    1 < (escapeChar c).length := by
  unfold escapeChar
  by_cases single : c.utf8Size = 1
  · have escaped : mustEscape c.val.toUInt8 = true := by
      rw [← Bool.not_eq_false, mustEscape_eq_false_iff single]
      exact special
    rw [String.utf8EncodeChar_eq_singleton single, List.flatMap_singleton, escapeByte, escaped]
    exact Nat.lt_succ_of_lt (Nat.lt_succ_self 1)
  · have grows := length_le_length_flatMap_escapeByte (String.utf8EncodeChar c)
    have positive := c.utf8Size_pos
    rw [String.length_utf8EncodeChar] at grows
    omega

theorem length_le_length_flatMap_escapeChar (text : List Char) :
    text.length ≤ (text.flatMap escapeChar).length := by
  induction text with
  | nil => exact Nat.le_refl 0
  | cons c text ih =>
      have grows : 1 ≤ (escapeChar c).length := by
        by_cases plain : IsPlain c
        · rw [escapeChar_of_isPlain plain]
          exact Nat.le_refl 1
        · exact Nat.le_of_lt (one_lt_length_escapeChar plain)
      rw [List.flatMap_cons, List.length_append, List.length_cons]
      omega

theorem flatMap_escapeChar_eq_self_iff {text : List Char} :
    text.flatMap escapeChar = text ↔ ∀ c ∈ text, IsPlain c := by
  induction text with
  | nil => simp
  | cons c text ih =>
      rw [List.flatMap_cons, List.forall_mem_cons]
      by_cases plain : IsPlain c
      · rw [escapeChar_of_isPlain plain, List.singleton_append, List.cons.injEq]
        simp [plain, ih]
      · constructor
        · intro equal
          have lengths := congrArg List.length equal
          have grows := one_lt_length_escapeChar plain
          have rest := length_le_length_flatMap_escapeChar text
          rw [List.length_append, List.length_cons] at lengths
          omega
        · exact fun all => absurd all.1 plain

/-- Of the names that a path can hold, resolving keeps exactly the plain ones. -/
theorem escape_eq_self_iff {name : String} (valid : IsName name) :
    escape name = name ↔ PlainName name := by
  rw [escape_eq_flatMap valid.2.1 valid.2.2.1, PlainName, ← flatMap_escapeChar_eq_self_iff]
  constructor
  · intro equal
    have kept := congrArg String.toList equal
    rwa [String.toList_ofList] at kept
  · intro equal
    rw [equal, String.ofList_toList]

/-- A character that is not plain has a byte that is not. -/
theorem exists_mustEscape {c : Char} (special : ¬ IsPlain c) :
    ∃ byte ∈ String.utf8EncodeChar c, mustEscape byte = true := by
  by_cases single : c.utf8Size = 1
  · refine ⟨c.val.toUInt8, ?_, ?_⟩
    · rw [String.utf8EncodeChar_eq_singleton single]
      exact List.mem_singleton_self _
    · rwa [← Bool.not_eq_false, mustEscape_eq_false_iff single]
  · have large : ¬ c.val.toNat ≤ 127 :=
      fun small => single (Char.utf8Size_eq_one_iff.mpr (UInt32.le_iff_toNat_le.mpr small))
    have last : UInt8.ofNat (c.val.toNat % 64 + 128) ∈ String.utf8EncodeChar c := by
      unfold String.utf8EncodeChar
      simp only [if_neg large]
      split
      · simp
      · split <;> simp
    have high : 0x80 ≤ (UInt8.ofNat (c.val.toNat % 64 + 128)).toNat := by
      rw [UInt8.toNat_ofNat']
      omega
    refine ⟨_, last, ?_⟩
    rw [mustEscape, decide_eq_true high]
    rfl

theorem percent_mem_escapeChar {c : Char} (special : ¬ IsPlain c) : '%' ∈ escapeChar c := by
  obtain ⟨byte, member, escaped⟩ := exists_mustEscape special
  refine List.mem_flatMap.mpr ⟨byte, member, ?_⟩
  rw [escapeByte, escaped]
  exact List.mem_cons_self

/-- Whatever resolving changes shows a percent sign. -/
theorem escape_eq_self_of_percent_not_mem {part : String} (clean : '%' ∉ (escape part).toList) :
    escape part = part := by
  have single : part ≠ "." := by
    rintro rfl
    exact clean (by decide)
  have double : part ≠ ".." := by
    rintro rfl
    exact clean (by decide)
  rw [escape_eq_flatMap single double, String.toList_ofList] at clean
  have plain : ∀ c ∈ part.toList, IsPlain c := by
    intro c member
    by_contra special
    exact clean (List.mem_flatMap.mpr ⟨c, member, percent_mem_escapeChar special⟩)
  rw [escape_eq_flatMap single double, flatMap_escapeChar_eq_self_iff.mpr plain,
    String.ofList_toList]

theorem escapeByte_of_mustEscape {byte : UInt8} (escaped : mustEscape byte = true) :
    escapeByte byte = ['%', hexDigit (byte.toNat / 16), hexDigit (byte.toNat % 16)] := by
  rw [escapeByte, if_pos escaped]

/-- A byte that stands as it is is told by its character, which is a plain one. -/
theorem escapeByte_of_not_mustEscape {byte : UInt8} (kept : ¬ mustEscape byte = true) :
    ∃ c, escapeByte byte = [c] ∧ c.toNat = byte.toNat ∧ IsPlain c := by
  refine ⟨Char.ofNat byte.toNat, by rw [escapeByte, if_neg kept], ?_⟩
  unfold mustEscape at kept
  simp only [Bool.or_eq_true, decide_eq_true_eq, beq_iff_eq, List.any_eq_true, not_or, not_exists,
    not_and] at kept
  obtain ⟨⟨⟨ascii, printable⟩, notDelete⟩, apart⟩ := kept
  have value : (Char.ofNat byte.toNat).toNat = byte.toNat := by
    have inside : byte.toNat.isValidChar := .inl (by omega)
    rw [Char.ofNat, dif_pos inside]
    rfl
  refine ⟨value, by omega, by omega, fun member => ?_⟩
  exact apart _ member value

/-- What stands in a resolved segment is printable and never a separator. -/
theorem printable_of_mem_escapeByte {byte : UInt8} {c : Char} (member : c ∈ escapeByte byte) :
    c ≠ '/' ∧ 0x1F < c.toNat ∧ c.toNat ≠ 0x7F := by
  have digit : ∀ value < 16, hexDigit value ≠ '/' ∧ 0x1F < (hexDigit value).toNat
      ∧ (hexDigit value).toNat ≠ 0x7F := by decide
  have small : byte.toNat < 256 := byte.toNat_lt
  by_cases escaped : mustEscape byte = true
  · rw [escapeByte_of_mustEscape escaped] at member
    simp only [List.mem_cons, List.not_mem_nil, or_false] at member
    rcases member with rfl | rfl | rfl
    · decide
    · exact digit _ (by omega)
    · exact digit _ (by omega)
  · obtain ⟨plain, written, _, printable, notDelete, apart⟩ := escapeByte_of_not_mustEscape escaped
    rw [written] at member
    rw [List.mem_singleton.mp member]
    refine ⟨?_, printable, by omega⟩
    rintro rfl
    exact apart (by decide)

/-- A spelled part is resolved to a name that a store can hold. -/
theorem isName_escape {part : String} (filled : part ≠ "") : IsName (escape part) := by
  by_cases single : part = "."
  · subst single
    simp [IsName, escape]
  by_cases double : part = ".."
  · subst double
    simp [IsName, escape]
  have kept : ∀ name : String, '%' ∉ name.toList → escape part = name → part = name := by
    rintro name clean rfl
    exact (escape_eq_self_of_percent_not_mem clean).symm
  refine ⟨fun equal => filled (kept "" (by simp) equal), fun equal => single (kept "." (by simp) equal),
    fun equal => double (kept ".." (by simp) equal), fun c member => ?_⟩
  rw [escape_eq_flatMap single double, String.toList_ofList] at member
  obtain ⟨origin, _, member⟩ := List.mem_flatMap.mp member
  obtain ⟨byte, _, member⟩ := List.mem_flatMap.mp member
  exact printable_of_mem_escapeByte member

theorem isName_of_mem_map_escape {spelling name : String}
    (member : name ∈ (Text.parts '/' spelling).map escape) : IsName name := by
  obtain ⟨part, spelled, rfl⟩ := List.mem_map.mp member
  exact isName_escape (Text.ne_empty_of_mem_parts spelled)

/-- Below a root that a store can hold, so is whatever is spelled. -/
theorem Valid.resolve {root : Path} (valid : root.Valid) (spelling : String) :
    (Path.resolve root spelling).Valid := by
  intro name member
  rcases List.mem_append.mp member with above | here
  · exact valid name above
  · exact isName_of_mem_map_escape here

/-- The text of a path, taken apart, gives its names back. -/
theorem Valid.parts_text {path : Path} (valid : path.Valid) :
    Text.parts '/' path.text = path.segments :=
  Text.parts_intercalate valid

/-- A path that a store can hold is told by its text. -/
theorem Valid.text_inj {path path' : Path} (valid : path.Valid) (valid' : path'.Valid) :
    path.text = path'.text ↔ path = path' := by
  constructor
  · intro same
    apply ext_segments
    rw [← valid.parts_text, same, valid'.parts_text]
  · rintro rfl
    rfl

/-- Below a root, what a path is called tells the path. -/
theorem eq_of_relativeName?_eq {root : Path} {names names' : List String}
    (valid : ∀ name ∈ names, IsName name) (valid' : ∀ name ∈ names', IsName name)
    (same : relativeName? root (root.under names) = relativeName? root (root.under names')) :
    root.under names = root.under names' := by
  rw [relativeName?_under, relativeName?_under, Option.some_inj] at same
  rw [← Text.parts_intercalate valid, same, Text.parts_intercalate valid']

/-- Unless one of the two is empty, a separator stands between a root's text and the way from it. -/
theorem text_under {root : Path} {names : List String} (below : root ≠ top) (onward : names ≠ []) :
    (root.under names).text = root.text ++ "/" ++ "/".intercalate names :=
  String.intercalate_append_of_ne_nil (segments_ne_nil below) onward

theorem text_child_top (name : String) : (top.child name).text = name :=
  String.intercalate_singleton

theorem text_child {directory : Path} (below : directory ≠ top) (name : String) :
    (directory.child name).text = directory.text ++ "/" ++ name := by
  rw [child_eq_under, text_under below (List.cons_ne_nil name []), String.intercalate_singleton]

/-- Resolving what a directory is called leads back to it exactly if its names are plain. -/
theorem resolve_intercalate_eq_iff (root : Path) {names : List String}
    (valid : ∀ name ∈ names, IsName name) :
    resolve root ("/".intercalate names) = root.under names ↔ ∀ name ∈ names, PlainName name := by
  have kept : names.map escape = names ↔ ∀ name ∈ names, escape name = name := by
    conv_lhs => rhs; rw [← List.map_id names]
    exact List.map_inj_left
  rw [resolve_eq_under, (root.under_injective).eq_iff, Text.parts_intercalate valid, kept]
  exact forall₂_congr fun name member => escape_eq_self_iff (valid name member)

end Path

end PartitionedTable
