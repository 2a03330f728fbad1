import PartitionedTable.Path

/-!
Why a store refuses a call. Every error has one text; `StoreError.causes` gives the texts of what
lies behind it, outermost first, for reports that show the whole chain.
-/

namespace PartitionedTable

/-- What the operating system objects to in a path. -/
inductive SystemError where
  | notDirectory
  | nameTooLong
deriving DecidableEq, Repr

/-- The system's own words. -/
def SystemError.message : SystemError → String
  | .notDirectory => "Not a directory (os error 20)"
  | .nameTooLong => "File name too long (os error 36)"

/-- What went wrong inside a store, as far as the store tells. -/
inductive Fault where
  | text (message : String)
  | walk (directory : String) (reason : SystemError)
  | openFile (file : String) (reason : SystemError)
deriving DecidableEq, Repr

namespace Fault

/-- The words for a fault, its reasons included. -/
def message : Fault → String
  | .text message => message
  | .walk directory reason =>
      "Unable to walk dir: IO error for operation on " ++ directory ++ ": " ++ reason.message
  | .openFile file reason => "Unable to open file " ++ file ++ ": " ++ reason.message

/-- The words for the reasons of a fault, outermost first. -/
def causes : Fault → List String
  | .text _ => []
  | .walk directory reason =>
      ["IO error for operation on " ++ directory ++ ": " ++ reason.message, reason.message]
  | .openFile _ reason => [reason.message]

end Fault

/-- An entry whose name cannot be a segment of a path, and the first character to blame. -/
structure IllegalName where
  location : String
  name : String
  character : Char
deriving DecidableEq, Repr

namespace IllegalName

/-- What is wrong with the name. -/
def reason (illegal : IllegalName) : String :=
  "Encountered illegal character sequence \"" ++ String.singleton illegal.character
    ++ "\" whilst parsing path segment \"" ++ illegal.name ++ "\""

/-- Where the name was found and what is wrong with it. -/
def message (illegal : IllegalName) : String :=
  "Error parsing Path \"" ++ illegal.location ++ "\": " ++ illegal.reason

end IllegalName

/-- Why a store refuses a call. -/
inductive StoreError where
  | generic (store : String) (fault : Fault)
  | notFound (location : String) (detail : String)
  | permissionDenied (location : String) (detail : String)
  | unauthenticated (location : String) (detail : String)
  | notSupported (detail : String)
  | notImplemented
  | invalidPath (illegal : IllegalName)
deriving DecidableEq, Repr

namespace StoreError

/-- The text of a refusal. -/
def message : StoreError → String
  | .generic store fault => "Generic " ++ store ++ " error: " ++ fault.message
  | .notFound location detail => "Object at location " ++ location ++ " not found: " ++ detail
  | .permissionDenied location detail =>
      "The operation lacked the necessary privileges to complete for path " ++ location ++ ": "
        ++ detail
  | .unauthenticated location detail =>
      "The operation lacked valid authentication credentials for path " ++ location ++ ": "
        ++ detail
  | .notSupported detail => "Operation not supported: " ++ detail
  | .notImplemented => "Operation not yet implemented."
  | .invalidPath illegal => "Encountered object with invalid path: " ++ illegal.message

/-- The texts of what lies behind a refusal, outermost first. -/
def causes : StoreError → List String
  | .generic _ fault => fault.message :: fault.causes
  | .notFound _ detail | .permissionDenied _ detail | .unauthenticated _ detail
  | .notSupported detail => [detail]
  | .notImplemented => []
  | .invalidPath illegal => [illegal.message, illegal.reason]

/-- Whether the refusal only says that there is nothing at the place asked about. -/
def isNotFound : StoreError → Bool
  | .notFound _ _ => true
  | _ => false

end StoreError

end PartitionedTable
