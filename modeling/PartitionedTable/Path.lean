import PartitionedTable.Text.Parts

/-!
Locations inside a store. A path is the list of names on the way from the store's root; its text
joins them with `/`. Directories and files are named by the same type. Moving between a root and
what lies below it works on whole segments, never on the text.
-/

namespace PartitionedTable

/-- A location in a store: the names on the way from the store's root. -/
structure Path where
  segments : List String
deriving DecidableEq, Repr, Inhabited

namespace Path

/-- The root of the store. -/
def top : Path := ⟨[]⟩

/-- The path spelled by `text`, its names taken as they are. -/
def ofText (text : String) : Path := ⟨Text.parts '/' text⟩

/-- The names joined with `/`; the store's root gives the empty text. -/
def text (path : Path) : String := "/".intercalate path.segments

/-- The last name, empty for the store's root. -/
def name (path : Path) : String := path.segments.getLast?.getD ""

/-- The directory that holds `path`; the store's root is its own parent. -/
def parent (path : Path) : Path := ⟨path.segments.dropLast⟩

/-- The entry called `name` directly inside `path`, its name taken as it is. -/
def child (path : Path) (name : String) : Path := ⟨path.segments ++ [name]⟩

/-- The names that lead from `root` to `path`, if `path` is `root` or lies below it. -/
def below? (root path : Path) : Option (List String) :=
  root.segments.isPrefixOf? path.segments

/-- The text of `path` as seen from `root`, if `path` is `root` or lies below it. -/
def relativeName? (root path : Path) : Option String :=
  (below? root path).map ("/".intercalate ·)

/-- Whether a name can stand in a stored path: it is not empty, not one of the two names that the
way up and down a tree uses, and holds neither a separator nor a control character of ASCII. -/
def IsName (name : String) : Prop :=
  name ≠ "" ∧ name ≠ "." ∧ name ≠ ".." ∧ ∀ c ∈ name.toList, c ≠ '/' ∧ 0x1F < c.toNat ∧ c.toNat ≠ 0x7F

/-- A path that a store can hold. -/
def Valid (path : Path) : Prop := ∀ name ∈ path.segments, IsName name

/-- Order of paths: that of their texts, which is the order of the UTF-8 bytes. -/
def inOrder (left right : Path) : Bool := decide (left.text ≤ right.text)

@[simp] theorem segments_child (path : Path) (name : String) :
    (path.child name).segments = path.segments ++ [name] := rfl

@[simp] theorem segments_parent (path : Path) :
    path.parent.segments = path.segments.dropLast := rfl

@[simp] theorem parent_child (path : Path) (name : String) : (path.child name).parent = path := by
  simp [child, parent]

@[simp] theorem name_child (path : Path) (entry : String) : (path.child entry).name = entry := by
  simp [child, name]

theorem ext_segments {left right : Path} (equal : left.segments = right.segments) :
    left = right := by
  cases left
  cases right
  simp_all

private theorem isPrefixOf?_eq_some {front whole rest : List String} :
    front.isPrefixOf? whole = some rest ↔ whole = front ++ rest := by
  induction front generalizing whole with
  | nil => exact Option.some_inj
  | cons name front ih =>
      cases whole with
      | nil =>
          constructor
          · intro equal
            cases equal
          · intro equal
            cases equal
      | cons head tail =>
          have step : (name :: front).isPrefixOf? (head :: tail)
              = if name == head then front.isPrefixOf? tail else none := rfl
          rw [step, List.cons_append, List.cons.injEq, ← ih]
          by_cases same : name = head
          · simp [same]
          · simp [same, Ne.symm same]

/-- A path lies at or below a root exactly when it extends the root's segments. -/
theorem below?_eq_some_iff {root path : Path} {names : List String} :
    below? root path = some names ↔ path.segments = root.segments ++ names :=
  isPrefixOf?_eq_some

end Path

end PartitionedTable
