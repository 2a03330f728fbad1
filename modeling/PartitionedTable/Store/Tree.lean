import PartitionedTable.Store

/-!
Stores on a tree of directories, as an operating system keeps them. Files and directories are known
by their absolute paths. A table's store sits in one directory of the tree: it takes names as they
are, reports empty directories too, and tells a missing place apart from one below a plain file. A
place that ends like the name of a drive is always addressed as a directory.
-/

namespace PartitionedTable

/-- The files and directories of a file system, by their absolute paths. Every directory on the way
to one of them is there as well. -/
structure Tree where
  files : List FileEntry := []
  directories : List Path := []
deriving DecidableEq, Repr, Inhabited

/-- What an absolute path leads to. -/
inductive Lookup where
  | file (entry : FileEntry)
  | directory
  | missing
  | refused (reason : SystemError)
deriving DecidableEq, Repr

namespace Tree

/-- The file at exactly this path. -/
def fileAt? (tree : Tree) (path : Path) : Option FileEntry :=
  tree.files.find? (fun entry => entry.location == path)

/-- Whether a path is a directory: the top of the tree, a recorded directory, or on the way to
something recorded. -/
def isDirectory (tree : Tree) (path : Path) : Bool :=
  path == Path.top
    || tree.directories.any (fun directory => (Path.below? path directory).isSome)
    || tree.files.any (fun entry =>
        match Path.below? path entry.location with
        | some (_ :: _) => true
        | _ => false)

/-- The most bytes a name may have. -/
def nameLimit : Nat := 255

/-- Follows `names` down from `base`. -/
def lookupFrom (tree : Tree) (base : Path) : List String → Lookup
  | [] =>
      match tree.fileAt? base with
      | some entry => .file entry
      | none => if tree.isDirectory base then .directory else .missing
  | name :: names =>
      if (tree.fileAt? base).isSome then .refused .notDirectory
      else if !tree.isDirectory base then .missing
      else if nameLimit < name.utf8ByteSize then .refused .nameTooLong
      else tree.lookupFrom (base.child name) names

/-- What an absolute path leads to. -/
def lookup (tree : Tree) (path : Path) : Lookup := tree.lookupFrom Path.top path.segments

/-- The absolute path of a place, as the operating system writes it. -/
def absoluteText (path : Path) : String := "/" ++ path.text

/-- Whether a text ends like the name of a drive, in a letter and a colon or bar. -/
def endsInDrive (text : String) : Bool :=
  match text.toList.reverse with
  | mark :: letter :: _ => (mark == ':' || mark == '|') && letter.isAlpha
  | _ => false

/-- The text by which a place is addressed; the name of a drive gets a slash at its end. -/
def address (path : Path) : String :=
  let text := absoluteText path
  if endsInDrive text then text ++ "/" else text

/-- The most bytes an address may have. -/
def addressLimit : Nat := 4095

/-- What is found at the address of a place. An address that ends in a slash finds no file. -/
def find (tree : Tree) (place : Path) : Lookup :=
  if addressLimit < (address place).utf8ByteSize then .refused .nameTooLong
  else match tree.lookup place with
    | .file entry =>
        if endsInDrive (absoluteText place) then .refused .notDirectory else .file entry
    | other => other

/-- Puts a file into the tree, in place of the one at the same path; its directory is made. -/
def put (tree : Tree) (entry : FileEntry) : Tree :=
  { files := tree.files.filter (fun old => old.location != entry.location) ++ [entry]
    directories := entry.location.parent :: tree.directories }

/-- Makes a directory. -/
def makeDirectory (tree : Tree) (path : Path) : Tree :=
  { tree with directories := path :: tree.directories }

/-- Removes a file or a whole directory; the directory it was in stays. -/
def delete (tree : Tree) (path : Path) : Tree :=
  let kept := tree.directories.filter (fun old => (Path.below? path old).isNone)
  { files := tree.files.filter (fun old => (Path.below? path old.location).isNone)
    directories := if tree.isDirectory path.parent then path.parent :: kept else kept }

/-- Whether a character may not stand in a name of a store. -/
def isControl (c : Char) : Bool := c.toNat ≤ 0x1F || c.toNat == 0x7F

/-- Whether a file's name is that of an unfinished upload: a number after the first `#`. -/
def isUpload (name : String) : Bool :=
  match name.toList.dropWhile (· != '#') with
  | '#' :: digits => !digits.isEmpty && digits.all Char.isDigit
  | _ => false

/-- The files directly inside a directory. -/
def filesIn (tree : Tree) (directory : Path) : List FileEntry :=
  tree.files.filter fun entry =>
    match Path.below? directory entry.location with
    | some [_] => true
    | _ => false

/-- The names of the directories directly inside a directory, sorted and each once. -/
def directoryNamesIn (tree : Tree) (directory : Path) : List String :=
  let ofDirectories := tree.directories.filterMap fun path =>
    match Path.below? directory path with
    | some (name :: _) => some name
    | _ => none
  let ofFiles := tree.files.filterMap fun entry =>
    match Path.below? directory entry.location with
    | some (name :: _ :: _) => some name
    | _ => none
  (ofDirectories ++ ofFiles).eraseDups.mergeSort (fun left right => decide (left ≤ right))

/-- The first of some names that no path can hold. -/
def illegal? (directory : Path) (names : List String) : Option IllegalName :=
  names.findSome? fun name =>
    (name.toList.find? isControl).map fun character =>
      { location := absoluteText (directory.child name), name, character }

/-- The name of a store on a tree, in the words of its errors. -/
def storeName : String := "LocalFileSystem"

/-- The answer to `list` for a directory that is there. Paths of the answer start at the table's
directory `base`. -/
def levelAt (tree : Tree) (base directory : Path) : Outcome StoreError Listing :=
  let place : Path := ⟨base.segments ++ directory.segments⟩
  let files := (tree.filesIn place).mergeSort
    (fun left right => Path.inOrder left.location right.location)
  let names := tree.directoryNamesIn place
  match illegal? directory (names ++ files.map FileEntry.name) with
  | some illegal => .failed (.invalidPath illegal)
  | none => .done
      { directories := names.map directory.child
        files := (files.filter (fun entry => !isUpload entry.name)).map fun entry =>
          { entry with location := directory.child entry.name } }

/-- The answer to `list`; a plain file and a place that is not there hold nothing. -/
def list (tree : Tree) (base directory : Path) : Outcome StoreError Listing :=
  let place : Path := ⟨base.segments ++ directory.segments⟩
  match tree.find place with
  | .directory => tree.levelAt base directory
  | .file _ | .missing => .done { directories := [], files := [] }
  | .refused reason => .failed (.generic storeName (.walk (address place) reason))

/-- The answer to `head`; only plain files count. -/
def head (tree : Tree) (base path : Path) : Outcome StoreError Unit :=
  let place : Path := ⟨base.segments ++ path.segments⟩
  match tree.find place with
  | .file _ => .done ()
  | .directory | .missing =>
      .failed (.notFound (address place) "No such file or directory (os error 2)")
  | .refused reason => .failed (.generic storeName (.openFile (address place) reason))

/-- The store that sits in directory `base` of the tree. -/
def store (tree : Tree) (base : Path) : Store Unit :=
  Store.stateless (tree.head base) (tree.list base)

/-- The largest number of segments of anything in the tree. -/
def depth (tree : Tree) : Nat :=
  ((tree.files.map FileEntry.location ++ tree.directories).map
    (fun path => path.segments.length)).foldl max 0

/-- The place that `text` spells for the operating system: `.` and empty names stay where they are,
`..` goes up, and everything on the way has to be a directory. -/
def canonicalFrom (tree : Tree) (base : Path) : List String → Option Path
  | [] => match tree.lookup base with
    | .file _ | .directory => some base
    | .missing | .refused _ => none
  | name :: names =>
      if tree.lookup base != .directory then none
      else if name = "" ∨ name = "." then tree.canonicalFrom base names
      else if name = ".." then tree.canonicalFrom base.parent names
      else tree.canonicalFrom (base.child name) names

/-- The place that `text` spells, seen from the directory `here`; the empty text spells none. -/
def canonical? (tree : Tree) (here : Path) (text : String) : Option Path :=
  let names := (Text.fields '/' text.toList).map String.ofList
  match text.toList with
  | [] => none
  | '/' :: _ => tree.canonicalFrom Path.top names
  | _ => tree.canonicalFrom here names

end Tree

end PartitionedTable
