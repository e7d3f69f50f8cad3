import ElmWire.Command.Run

/-!
# The program

Carries the plan of a command out on the file system, and shows its result.
-/

set_option autoImplicit false
namespace ElmWire.Command

/-- How the program is called. -/
def usage : String :=
  "usage: port-schema [--verbose] compile --input FILE [--elm-output FILE] [--ts-output FILE]\n" ++
  "           [--config FILE] [--module-name NAME] [--main-module NAME] [--width COLUMNS]\n" ++
  "       port-schema [--verbose] schema --input FILE"

/-- The reason of an error of the file system. -/
def Fault.ofError : IO.Error → Fault
  | .noFileOrDirectory _ _ _ => .missing
  | .alreadyExists _ code details => numbered code details
  | .inappropriateType _ code details => numbered code details
  | .permissionDenied _ code details => numbered code details
  | .invalidArgument _ code details => numbered code details
  | .resourceExhausted _ code details => numbered code details
  | .resourceBusy code details => numbered code details
  | .hardwareFault code details => numbered code details
  | .unsupportedOperation code details => numbered code details
  | .otherError code details => numbered code details
  | error => .other (toString error) 0
where
  /-- A reason by its number. -/
  numbered (code : UInt32) (details : String) : Fault :=
    match code.toNat with
    | 2 => .missing
    | 17 => .alreadyExists
    | 20 => .notADirectory
    | 21 => .isADirectory
    | 36 => .nameTooLong
    | code => .other details code

/-- The answer to a request. -/
def attempt {α : Type} (action : IO α) : IO (Except Fault α) := do
  try
    return .ok (← action)
  catch error =>
    return .error (.ofError error)

/-- Carries out a plan. -/
def Plan.perform {α : Type} : Plan α → IO α
  | .done result => return result
  | .read path next => do (next (← attempt (IO.FS.readFile path.text))).perform
  | .write path contents next => do
    (next (← attempt (IO.FS.writeFile path.text contents))).perform
  | .makeDirectory path next => do (next (← attempt (IO.FS.createDir path.text))).perform
  -- A directory is what cannot be read as a file because it is a directory.
  | .isDirectory path next => do
    match ← attempt (IO.FS.readFile path.text) with
    | .error .isADirectory => (next true).perform
    | _ => (next false).perform

end ElmWire.Command

open ElmWire in
/-- Runs the command that the arguments ask for. -/
def main (arguments : List String) : IO UInt32 := do
  match Command.parse? arguments with
  | none =>
    IO.eprintln Command.usage
    return 2
  | some command =>
    match ← command.run.run.perform with
    | .ok text =>
      IO.print text
      return 0
    | .error error =>
      IO.eprintln ("error: " ++ error.message)
      return 1
