import PartitionedTable.CommandLine

/-!
The program itself. It takes a picture of the table's directory, with the variables and the
arguments of the process, and leaves everything else to `CommandLine.run`. It has no network, so no
bucket is within its reach.
-/

namespace PartitionedTable.Program

/-- The variables of the process that settings are read from. -/
def environment : IO Variables := do
  let known := [Settings.logLevelVariable, Settings.tablePathVariable, Settings.inBucketVariable,
    Settings.bucketVariable, Settings.assumeVariable, Settings.parallelismVariable]
  known.filterMapM fun variableName => do
    return (← IO.getEnv variableName).map fun value => (variableName, value)

/-- How many levels of directories a picture takes in; no address is longer than that. -/
def pictureDepth : Nat := Tree.addressLimit

/-- Adds everything below `place` to the picture `tree`; `found` is where the system has it. What
cannot be read is left out. -/
def picture (place : Path) (found : IO.FS.DirEntry) : (levels : Nat) → (tree : Tree) → IO Tree
  | 0, tree => return tree
  | levels + 1, tree => do
      match ← found.path.readDir.toBaseIO with
      | .error _ => return tree
      | .ok entries =>
          entries.foldlM (fun tree entry => do
            let inside := place.child entry.fileName
            match ← entry.path.metadata.toBaseIO with
            | .error _ => return tree
            | .ok metadata =>
                if metadata.type == .dir then
                  picture inside entry levels (tree.makeDirectory inside)
                else
                  let modified : Instant :=
                    ⟨metadata.modified.sec, metadata.modified.nsec.toNat⟩
                  return tree.put
                    { location := inside, size := metadata.byteSize.toNat, modified })
            tree

/-- The picture of the table's directory and the variables that lead there, every name on the way
written out. A table in a bucket needs no picture. -/
def tableOf (environment : Variables) : IO (Tree × Variables) := do
  match Settings.ofVariables environment with
  | .error _ => return ({}, environment)
  | .ok settings =>
      if settings.inBucket then return ({}, environment)
      match ← (IO.FS.realPath settings.tablePath).toBaseIO with
      | .error _ => return ({}, environment)
      | .ok place =>
          let base := Path.ofText place.toString
          let metadata ← place.metadata
          let bare : Tree :=
            if metadata.type == .dir then { directories := [base] }
            else { files := [{ location := base, size := 0, modified := ⟨0, 0⟩ }] }
          let tree ← picture base { root := place, fileName := "." } pictureDepth bare
          return (tree, (Settings.tablePathVariable, place.toString) :: environment)

/-- What is said of arguments used wrongly; whoever gives none is told what can be given. -/
def complaint : List String → String
  | [] => CommandLine.Topic.program.text
  | arguments => CommandLine.lines ["error: cannot make sense of " ++ " ".intercalate arguments, "",
      "Usage: " ++ CommandLine.programName ++ " " ++ CommandLine.Topic.program.call, "",
      "For more information, try '--help'."]

/-- What the program finds around it. -/
def surroundings : IO CommandLine.Surroundings := do
  let (tree, environment) ← tableOf (← environment)
  return {
    tree, here := Path.top, environment, complaint
    buckets := fun name => .error ("no network to reach bucket " ++ name)
    crash := "a task crashed" }

end PartitionedTable.Program

/-- Runs the command line of the process. -/
def main (arguments : List String) : IO UInt32 := do
  let output := PartitionedTable.CommandLine.run (← PartitionedTable.Program.surroundings) arguments
    (fun _ => PartitionedTable.Engine.oldestFirst)
  IO.print output.standardOutput
  IO.eprint output.standardError
  return UInt32.ofNat output.exitCode
