import PartitionedTable.CommandLine.Arguments
import PartitionedTable.Text.Numeral

/-!
Reading the arguments of the command line from left to right. `Request.ofArguments?` gives what they
ask for, nothing if they are used wrongly.
-/

namespace PartitionedTable.CommandLine

/-- What was given so far on one side of the command's name. `outer` is the number given before the
name, while what follows the name is read. -/
structure Given where
  outer : Option Nat := none
  quiet : Bool := false
  parallelism : Option Nat := none
  assumeDatePartitioning : Bool := false
  spellings : List String := []

/-- Where reading an option leads. -/
inductive Step where
  | proceed (given : Given)
  | stop (request : Request)
  | needsValue (which : Setting) (given : Given)
  | wrong

namespace Given

/-- Takes an option without a value. Being quiet and assuming date partitions can be asked for once
on each side of the command's name. -/
def switch (given : Given) (place : Option CommandName) : Switch → Step
  | .verbose => .proceed given
  | .quiet => if given.quiet then .wrong else .proceed { given with quiet := true }
  | .assumeDatePartitioning =>
      if given.assumeDatePartitioning then .wrong
      else .proceed { given with assumeDatePartitioning := true }
  | .version => .stop .version
  | .help => .stop (.help (Topic.ofPlace place))

/-- Takes an option with its value. The number of parallel listings can be given once on each side
of the command's name. -/
def setting (given : Given) (which : Setting) (value : String) : Step :=
  match which with
  | .spelling => .proceed { given with spellings := given.spellings ++ [value] }
  | .parallelism =>
      match given.parallelism, Text.word? value with
      | none, some number => .proceed { given with parallelism := some number }
      | _, _ => .wrong

/-- Takes a long option, given without its two dashes. -/
def long (given : Given) (place : Option CommandName) (text : List Char) : Step :=
  let name := String.ofList (text.takeWhile (· != '='))
  match longFlag? place name, text.dropWhile (· != '=') with
  | some (.switch which), [] => given.switch place which
  | some (.setting which), [] => .needsValue which given
  | some (.setting which), _ :: value => given.setting which (String.ofList value)
  | _, _ => .wrong

/-- Takes a cluster of short options, given without its dash. What stands behind an option with a
value is that value, with or without `=`. -/
def short (given : Given) (place : Option CommandName) : List Char → Step
  | [] => .proceed given
  | letter :: others =>
      match shortFlag? place letter with
      | none => .wrong
      | some (.switch which) =>
          match given.switch place which with
          | .proceed given => given.short place others
          | step => step
      | some (.setting which) =>
          match others with
          | [] => .needsValue which given
          | '=' :: value => given.setting which (String.ofList value)
          | value => given.setting which (String.ofList value)

/-- What is asked for when the arguments end. -/
def finish (given : Given) : Option CommandName → Option Request
  | none => none
  | some name =>
      if name = .files ∧ given.spellings.isEmpty then none
      else some (.run {
        command := { name, spellings := given.spellings }
        parallelism := given.parallelism <|> given.outer
        assumeDatePartitioning := given.assumeDatePartitioning })

end Given

/-- Whether an argument looks like an option; a lone dash does not. -/
def looksLikeOption (argument : String) : Bool :=
  match argument.toList with
  | '-' :: _ :: _ => true
  | _ => false

/-- Takes one argument that is not a value. -/
def Given.option (given : Given) (place : Option CommandName) (argument : String) : Step :=
  match argument.toList with
  | '-' :: '-' :: text => given.long place text
  | '-' :: text => given.short place text
  | _ => .wrong

/-- Reads arguments on one side of the command's name; `waiting` is the option whose value comes
next. -/
def readArguments (place : Option CommandName) (given : Given) (waiting : Option Setting) :
    List String → Option Request
  | [] => if waiting.isSome then none else given.finish place
  | argument :: others =>
      match waiting with
      | some which =>
          if looksLikeOption argument then none
          else match given.setting which argument with
            | .proceed given => readArguments place given none others
            | _ => none
      | none =>
          if argument = "--" then (if others.isEmpty then given.finish place else none)
          else if looksLikeOption argument then
            match given.option place argument with
            | .proceed given => readArguments place given none others
            | .stop request => some request
            | .needsValue which given => readArguments place given (some which) others
            | .wrong => none
          else match place with
            | some _ => none
            | none =>
                if argument = helpWord then (Topic.named? others).map .help
                else match CommandName.named? argument with
                  | none => none
                  | some name =>
                      readArguments (some name) { outer := given.parallelism } none others

/-- What the arguments ask for. -/
def Request.ofArguments? (arguments : List String) : Option Request :=
  readArguments none {} none arguments

end PartitionedTable.CommandLine
