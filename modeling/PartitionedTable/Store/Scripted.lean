import PartitionedTable.Store.Keys

/-!
Stores that give prepared answers to single calls. A rule belongs to one call on one path and may be
limited in how often it applies; the first rule that fits and is not used up answers, and calls that
no rule fits go to the store of keys underneath. What such a store remembers is its list of rules.
-/

namespace PartitionedTable

/-- A prepared answer to one of the two calls. -/
inductive PreparedAnswer where
  | head (answer : Outcome StoreError Unit)
  | list (answer : Outcome StoreError Listing)
deriving DecidableEq, Repr

namespace PreparedAnswer

/-- The answer, if it is one to `head`. -/
def head? : PreparedAnswer → Option (Outcome StoreError Unit)
  | .head answer => some answer
  | .list _ => none

/-- The answer, if it is one to `list`. -/
def list? : PreparedAnswer → Option (Outcome StoreError Listing)
  | .head _ => none
  | .list answer => some answer

end PreparedAnswer

/-- A prepared answer to a call on one path; `remaining` tells how often it still applies, always
if it says nothing. -/
structure Rule where
  path : Path
  answer : PreparedAnswer
  remaining : Option Nat := none
deriving DecidableEq, Repr

namespace Rule

variable {α : Type}

/-- Whether the rule still applies. -/
def isLive (rule : Rule) : Bool := rule.remaining != some 0

/-- The rule after it applied once. -/
def used (rule : Rule) : Rule := { rule with remaining := rule.remaining.map (· - 1) }

/-- The answer of the first rule that fits a call on `path`, and the rules after it applied. -/
def fire? (select : PreparedAnswer → Option α) (path : Path) :
    List Rule → Option (α × List Rule)
  | [] => none
  | rule :: others =>
      match if rule.path = path ∧ rule.isLive then select rule.answer else none with
      | some answer => some (answer, rule.used :: others)
      | none => (fire? select path others).map fun (answer, after) => (answer, rule :: after)

/-- Answers by the rules, and by `fallback` where none fits. -/
def reply (select : PreparedAnswer → Option (Outcome StoreError α)) (path : Path)
    (fallback : Outcome StoreError α) : Work (List Rule) StoreError α := fun rules =>
  (fire? select path rules).getD (fallback, rules)

/-- The directories that a rule makes appear. -/
def directories (rule : Rule) : List Path :=
  match rule.answer with
  | .list (.done listing) => listing.directories
  | _ => []

end Rule

namespace KeyStore

/-- The store with these keys, its answers overridden by rules. -/
def scripted (keys : KeyStore) : Store (List Rule) :=
  { head := fun path => Rule.reply PreparedAnswer.head? path (keys.head path)
    list := fun path => Rule.reply PreparedAnswer.list? path (.done (keys.listing path)) }

/-- A number of rounds after which a walk over scripted answers has ended or never will. Without a
change of the rules a walk meets no more directories than there are prefixes of keys and prepared
directories, and the rules change at most as often as their limits add up to. -/
def scriptedRounds (keys : KeyStore) (rules : List Rule) : Nat :=
  let places := (keys.files.map (fun entry => entry.location.segments.length)).foldl Nat.add 0
    + (rules.map (fun rule => rule.directories.length)).foldl Nat.add 0
  let changes := (rules.map (fun rule => rule.remaining.getD 0)).foldl Nat.add 0
  (places + 2) * (changes + 1)

end KeyStore

end PartitionedTable
