import Mathlib.Data.List.Perm.Basic
import Mathlib.Tactic.SplitIfs
import PartitionedTable.Proofs.Spelling

/-!
Texts come in the order of their UTF-8 bytes. The encoding of a character tells where it ends, and a
greater character is encoded by a greater run of bytes: by a greater first byte if the runs differ in
length. So comparing two texts character by character is comparing them byte by byte, and sorting by
one is sorting by the other.
-/

namespace PartitionedTable.Text

/-- The bytes of one text come before those of another, in the order of a dictionary. -/
def BytesBefore (left right : String) : Prop := left.toUTF8.toList < right.toUTF8.toList

instance (left right : String) : Decidable (BytesBefore left right) :=
  inferInstanceAs (Decidable (_ < _))

/-- What follows two runs of one length does not matter if the runs differ. -/
theorem append_lt_append {left right : List UInt8} (length : left.length = right.length)
    (lower : left < right) (rest rest' : List UInt8) : left ++ rest < right ++ rest' := by
  induction left generalizing right with
  | nil =>
      rw [List.length_nil, eq_comm, List.length_eq_zero_iff] at length
      rw [length] at lower
      exact absurd lower (List.not_lt_nil [])
  | cons byte left ih =>
      cases right with
      | nil => cases length
      | cons byte' right =>
          rw [List.cons_lt_cons_iff] at lower
          rw [List.cons_append, List.cons_append, List.cons_lt_cons_iff]
          exact lower.imp_right fun ⟨same, later⟩ => ⟨same, ih (Nat.succ.inj length) later⟩

/-- Of two numbers the lower one has the lower digits in front, or the lower last digit behind the same. -/
theorem digits_lt {value value' : Nat} (lower : value < value') :
    value / 64 < value' / 64 ∨ value / 64 = value' / 64 ∧ value % 64 < value' % 64 := by
  omega

/-- A lower character is encoded by a lower run of bytes, whatever follows the two. -/
theorem utf8EncodeChar_lt {c d : Char} (lower : c < d) (rest rest' : List UInt8) :
    String.utf8EncodeChar c ++ rest < String.utf8EncodeChar d ++ rest' := by
  have value : c.val.toNat < d.val.toNat := UInt32.lt_iff_toNat_lt.mp lower
  have bound : d.val.toNat < 0x110000 := by
    rcases d.valid with low | ⟨_, high⟩
    · exact Nat.lt_trans low (by decide)
    · exact high
  have first {byte byte' : Nat} (less : byte % 256 < byte' % 256) (bytes bytes' : List UInt8) :
      UInt8.ofNat byte :: bytes < UInt8.ofNat byte' :: bytes' := by
    rw [List.cons_lt_cons_iff, UInt8.lt_iff_toNat_lt, UInt8.toNat_ofNat', UInt8.toNat_ofNat']
    exact .inl less
  unfold String.utf8EncodeChar
  generalize c.val.toNat = v at value ⊢
  generalize d.val.toNat = w at value bound ⊢
  have within {bytes bytes' : List UInt8} (length : bytes.length = bytes'.length)
      (less : bytes < bytes') : bytes ++ rest < bytes' ++ rest' :=
    append_lt_append length less rest rest'
  have second (number : Nat) : number / 4096 = number / 64 / 64 := by omega
  have third (number : Nat) : number / 262144 = number / 64 / 64 / 64 := by omega
  have top : w / 64 / 64 / 64 < 8 := by omega
  have digit := digits_lt value
  have digit' := @digits_lt (v / 64) (w / 64)
  have digit'' := @digits_lt (v / 64 / 64) (w / 64 / 64)
  simp only [second, third]
  split_ifs
  -- No lower character has the longer run; of runs that differ in length the first bytes differ.
  all_goals first
    | omega
    | exact first (by omega) _ _
    | refine within (by simp only [List.length_cons]) ?_
      simp only [List.cons_lt_cons_iff, List.lt_irrefl, UInt8.lt_iff_toNat_lt, ← UInt8.toNat_inj,
        UInt8.toNat_ofNat', and_false, or_false]
      omega

theorem utf8EncodeChar_ne_nil (c : Char) : String.utf8EncodeChar c ≠ [] := by
  unfold String.utf8EncodeChar
  dsimp only
  split_ifs <;> exact List.cons_ne_nil _ _

theorem flatMap_utf8EncodeChar_lt {text text' : List Char} (lower : text < text') :
    text.flatMap String.utf8EncodeChar < text'.flatMap String.utf8EncodeChar := by
  induction text generalizing text' with
  | nil =>
      cases text' with
      | nil => exact absurd lower (List.not_lt_nil [])
      | cons c text' =>
          obtain ⟨byte, bytes, run⟩ := List.exists_cons_of_ne_nil (utf8EncodeChar_ne_nil c)
          rw [List.flatMap_nil, List.flatMap_cons, run, List.cons_append]
          exact List.nil_lt_cons byte _
  | cons c text ih =>
      cases text' with
      | nil => exact absurd lower (List.not_lt_nil _)
      | cons c' text' =>
          rw [List.flatMap_cons, List.flatMap_cons]
          rcases List.cons_lt_cons_iff.mp lower with less | ⟨rfl, later⟩
          · exact utf8EncodeChar_lt less _ _
          · exact List.append_left_lt (ih later)

theorem lt_of_le_of_ne {left right : String} (least : left ≤ right) (different : left ≠ right) :
    left < right := by
  by_contra greater
  exact different (String.le_antisymm least (String.not_lt.mp greater))

/-- The order of texts is the order of their bytes. -/
theorem bytesBefore_iff_lt {left right : String} : BytesBefore left right ↔ left < right := by
  have forward {left right : String} (lower : left < right) : BytesBefore left right := by
    unfold BytesBefore
    rw [toUTF8_toList, toUTF8_toList]
    exact flatMap_utf8EncodeChar_lt (String.lt_iff.mp lower)
  refine ⟨fun before => ?_, forward⟩
  by_contra other
  have least := String.not_lt.mp other
  by_cases same : left = right
  · subst same
    exact List.lt_irrefl _ before
  · exact List.lt_asymm before (forward (lt_of_le_of_ne least (Ne.symm same)))

section Sorted

variable {α : Type} (key : α → String)

theorem pairwise_mergeSort (items : List α) :
    (items.mergeSort fun left right => decide (key left ≤ key right)).Pairwise
      fun left right => key left ≤ key right := by
  let inOrder : α → α → Bool := fun left right => decide (key left ≤ key right)
  have trans : ∀ first second third, inOrder first second → inOrder second third →
      inOrder first third := by
    simpa [inOrder] using fun _ _ _ => String.le_trans
  have total : ∀ first second, inOrder first second || inOrder second first := by
    simpa [inOrder] using fun _ _ => String.le_total _ _
  exact (List.pairwise_mergeSort trans total items).imp of_decide_eq_true

/-- Sorting entries of different keys puts each strictly before the next. -/
theorem pairwise_mergeSort_bytesBefore {items : List α} (distinct : (items.map key).Nodup) :
    (items.mergeSort fun left right => decide (key left ≤ key right)).Pairwise
      fun left right => BytesBefore (key left) (key right) := by
  have apart : (items.mergeSort fun left right => decide (key left ≤ key right)).Pairwise
      fun left right => key left ≠ key right := by
    have same := (List.mergeSort_perm items fun left right => decide (key left ≤ key right)).map key
    exact List.pairwise_map.mp (same.nodup_iff.mpr distinct)
  refine (pairwise_mergeSort key items).imp₂ (fun left right least different => ?_) apart
  exact bytesBefore_iff_lt.mpr (lt_of_le_of_ne least different)

end Sorted

end PartitionedTable.Text
