import PartitionedTable.Path

/-!
From a caller's spelling to a path. A spelling is cut at `/`, empty parts are dropped, and every
part is percent-encoded before it becomes a segment below the root: a part that is all dots up to
two is written with `%2E`, and in any other part each byte outside the plain ones becomes `%` and
two upper-case hexadecimal digits. So no spelling can climb out of the root.
-/

namespace PartitionedTable

namespace Path

/-- Punctuation that is never written as it is in a resolved segment. -/
def reserved : List Char :=
  ['\\', '\x7b', '^', '\x7d', '%', '\x60', ']', '"', '>', '[', '~', '<', '#', '|', '*', '?', '/']

/-- Whether a byte of a part has to be percent-encoded. -/
def mustEscape (byte : UInt8) : Bool :=
  0x80 ≤ byte.toNat || byte.toNat ≤ 0x1F || byte.toNat == 0x7F
    || reserved.any (fun c => c.toNat == byte.toNat)

/-- The upper-case hexadecimal digit of a number below sixteen. -/
def hexDigit (value : Nat) : Char := (Nat.digitChar value).toUpper

/-- One byte of a part as it is written in a segment. -/
def escapeByte (byte : UInt8) : List Char :=
  if mustEscape byte then ['%', hexDigit (byte.toNat / 16), hexDigit (byte.toNat % 16)]
  else [Char.ofNat byte.toNat]

/-- The segment that stands for one non-empty part of a spelling. -/
def escape (part : String) : String :=
  if part = "." then "%2E"
  else if part = ".." then "%2E%2E"
  else String.ofList (part.toUTF8.toList.flatMap escapeByte)

/-- The directory that a caller names by `spelling`, below `root`. -/
def resolve (root : Path) (spelling : String) : Path :=
  ⟨root.segments ++ (Text.parts '/' spelling).map escape⟩

@[simp] theorem segments_resolve (root : Path) (spelling : String) :
    (resolve root spelling).segments = root.segments ++ (Text.parts '/' spelling).map escape := rfl

end Path

end PartitionedTable
