import PartitionedTable.Proofs.Spelling

/-!
Different parts resolve to different segments. What is written for one byte tells the byte and where
the next one begins, so the bytes of a part are read off its segment. The two parts that climb are
kept apart from all others because a dot is never percent-encoded otherwise.
-/

namespace PartitionedTable

/-- The bytes of a text tell the text. -/
theorem Text.toUTF8_toList_injective :
    Function.Injective fun text : String => text.toUTF8.toList := by
  intro text text' same
  have read : ∀ bytes : ByteArray, bytes.toList = bytes.data.toList := fun bytes => by
    rw [ByteArray.toList, toList_loop]
    rfl
  have bytes : text.toUTF8 = text'.toUTF8 := by
    apply ByteArray.ext
    apply Array.toList_inj.mp
    rw [← read, ← read]
    exact same
  exact String.toByteArray_inj.mp bytes

namespace Path

theorem hexDigit_injective {value value' : Nat} (small : value < 16) (small' : value' < 16)
    (same : hexDigit value = hexDigit value') : value = value' := by
  have all : ∀ left < 16, ∀ right < 16, hexDigit left = hexDigit right → left = right := by decide
  exact all value small value' small' same

/-- The percent sign of an encoded byte is never a character that stands as it is. -/
theorem IsPlain.ne_percent {c : Char} (plain : IsPlain c) : c ≠ '%' := by
  rintro rfl
  exact absurd plain (by decide)

/-- What is written for a byte can be taken off the front in one way only. -/
theorem escapeByte_append_cancel {byte byte' : UInt8} {rest rest' : List Char}
    (same : escapeByte byte ++ rest = escapeByte byte' ++ rest') : byte = byte' ∧ rest = rest' := by
  have small : byte.toNat < 256 := byte.toNat_lt
  have small' : byte'.toNat < 256 := byte'.toNat_lt
  by_cases escaped : mustEscape byte = true <;> by_cases escaped' : mustEscape byte' = true
  · rw [escapeByte_of_mustEscape escaped, escapeByte_of_mustEscape escaped'] at same
    simp only [List.cons_append, List.nil_append, List.cons.injEq] at same
    obtain ⟨_, high, low, behind⟩ := same
    have quotient := hexDigit_injective (by omega) (by omega) high
    have remainder := hexDigit_injective (by omega) (by omega) low
    refine ⟨UInt8.toNat_inj.mp ?_, behind⟩
    omega
  · obtain ⟨c, written, _, plain⟩ := escapeByte_of_not_mustEscape escaped'
    rw [escapeByte_of_mustEscape escaped, written] at same
    exact absurd (List.cons.inj same).1.symm plain.ne_percent
  · obtain ⟨c, written, _, plain⟩ := escapeByte_of_not_mustEscape escaped
    rw [escapeByte_of_mustEscape escaped', written] at same
    exact absurd (List.cons.inj same).1 plain.ne_percent
  · obtain ⟨c, written, value, _⟩ := escapeByte_of_not_mustEscape escaped
    obtain ⟨c', written', value', _⟩ := escapeByte_of_not_mustEscape escaped'
    rw [written, written'] at same
    obtain ⟨rfl, behind⟩ := List.cons.inj same
    exact ⟨UInt8.toNat_inj.mp (value.symm.trans value'), behind⟩

theorem escapeByte_ne_nil (byte : UInt8) : escapeByte byte ≠ [] := by
  unfold escapeByte
  split <;> simp

theorem flatMap_escapeByte_injective :
    Function.Injective fun bytes : List UInt8 => bytes.flatMap escapeByte := by
  intro bytes
  induction bytes with
  | nil =>
      intro bytes' same
      cases bytes' with
      | nil => rfl
      | cons byte' bytes' =>
          have none := (List.append_eq_nil_iff.mp same.symm).1
          exact absurd none (escapeByte_ne_nil byte')
  | cons byte bytes ih =>
      intro bytes' same
      cases bytes' with
      | nil =>
          have none := (List.append_eq_nil_iff.mp same).1
          exact absurd none (escapeByte_ne_nil byte)
      | cons byte' bytes' =>
          obtain ⟨rfl, behind⟩ := escapeByte_append_cancel same
          rw [ih behind]

/-- No part but the two that climb is written with an encoded dot in front. -/
theorem flatMap_escapeByte_ne_dot (bytes : List UInt8) (rest : List Char) :
    bytes.flatMap escapeByte ≠ '%' :: '2' :: 'E' :: rest := by
  intro same
  cases bytes with
  | nil => cases same
  | cons byte bytes =>
      have small : byte.toNat < 256 := byte.toNat_lt
      rw [List.flatMap_cons] at same
      by_cases escaped : mustEscape byte = true
      · rw [escapeByte_of_mustEscape escaped] at same
        simp only [List.cons_append, List.nil_append, List.cons.injEq] at same
        obtain ⟨_, high, low, _⟩ := same
        have two : hexDigit 2 = '2' := by decide
        have fourteen : hexDigit 14 = 'E' := by decide
        have quotient := hexDigit_injective (by omega) (by decide) (high.trans two.symm)
        have remainder := hexDigit_injective (by omega) (by decide) (low.trans fourteen.symm)
        have dot : byte = 0x2E := UInt8.toNat_inj.mp (by change byte.toNat = 46; omega)
        rw [dot] at escaped
        exact absurd escaped (by decide)
      · obtain ⟨c, written, _, plain⟩ := escapeByte_of_not_mustEscape escaped
        rw [written] at same
        exact plain.ne_percent (List.cons.inj same).1

theorem toList_escape {part : String} (single : part ≠ ".") (double : part ≠ "..") :
    (escape part).toList = part.toUTF8.toList.flatMap escapeByte := by
  rw [escape, if_neg single, if_neg double, String.toList_ofList]

/-- The parts that climb are told by the encoded dot in front. -/
theorem escape_begins_with_dot_iff {part : String} :
    (∃ rest, (escape part).toList = '%' :: '2' :: 'E' :: rest) ↔ part = "." ∨ part = ".." := by
  constructor
  · rintro ⟨rest, written⟩
    by_contra neither
    obtain ⟨single, double⟩ := not_or.mp neither
    rw [toList_escape single double] at written
    exact flatMap_escapeByte_ne_dot _ _ written
  · rintro (rfl | rfl)
    · exact ⟨[], by decide⟩
    · exact ⟨['%', '2', 'E'], by decide⟩

/-- Parts that resolve to the same segment are the same. -/
theorem escape_injective : Function.Injective escape := by
  intro part part' same
  have both : (part = "." ∨ part = "..") ↔ (part' = "." ∨ part' = "..") := by
    rw [← escape_begins_with_dot_iff, same, escape_begins_with_dot_iff]
  by_cases climbs : part = "." ∨ part = ".."
  · rcases climbs with rfl | rfl <;> rcases both.mp (by simp) with rfl | rfl
    · rfl
    · exact absurd same (by decide)
    · exact absurd same (by decide)
    · rfl
  · obtain ⟨single, double⟩ := not_or.mp climbs
    obtain ⟨single', double'⟩ := not_or.mp (both.not.mp climbs)
    have written := congrArg String.toList same
    rw [toList_escape single double, toList_escape single' double'] at written
    exact Text.toUTF8_toList_injective (flatMap_escapeByte_injective written)

/-- Two spellings name the same directory exactly if they have the same parts. -/
theorem resolve_eq_iff {root : Path} {spelling spelling' : String} :
    resolve root spelling = resolve root spelling'
      ↔ Text.parts '/' spelling = Text.parts '/' spelling' := by
  rw [resolve_eq_under, resolve_eq_under, root.under_injective.eq_iff]
  exact escape_injective.list_map.eq_iff

/-- Two spellings with a separator between them lead one after the other. -/
theorem resolve_append (root : Path) (spelling spelling' : String) :
    resolve root (spelling ++ "/" ++ spelling') = resolve (resolve root spelling) spelling' := by
  rw [resolve_eq_under, Text.parts_append, List.map_append, resolve_eq_under, resolve_eq_under,
    under_under]

/-- Which spellings mean the same directory. They do exactly if they have the same parts, and no two
directories below a root that a store can hold read the same; a spelling in two pieces is resolved
piece by piece. -/
theorem resolve_tells_parts {root : Path} (valid : root.Valid) (spelling spelling' : String) :
    (resolve root spelling = resolve root spelling'
        ↔ Text.parts '/' spelling = Text.parts '/' spelling')
      ∧ ((resolve root spelling).text = (resolve root spelling').text
        ↔ Text.parts '/' spelling = Text.parts '/' spelling')
      ∧ resolve root (spelling ++ "/" ++ spelling') = resolve (resolve root spelling) spelling' := by
  refine ⟨resolve_eq_iff, ?_, resolve_append root spelling spelling'⟩
  rw [(valid.resolve spelling).text_inj (valid.resolve spelling'), resolve_eq_iff]

/-- A dot and its percent-encoded form are two directories, with superfluous separators or without. -/
theorem resolve_tells_parts_dot :
    let root : Path := ⟨["lake"]⟩
    root.Valid ∧ (resolve root "/a//./").text = (resolve root "a/.").text
      ∧ (resolve root "a/.").text ≠ (resolve root "a/%2E").text
      ∧ resolve root "a/%2E" = resolve (resolve root "a") "%2E" := by
  intro root
  have valid : root.Valid := by
    simp [root, Valid, IsName]
  have told := resolve_tells_parts valid
  exact ⟨valid, (told _ _).2.1.mpr (by decide), (told _ _).2.1.not.mpr (by decide),
    (told "a" "%2E").2.2⟩

end Path

end PartitionedTable
