import ElmWire.Command.Path
import ElmWire.Members

/-!
# Files and directories

A `Disk` is a file system as a value: a tree of directories, and the place in it where the program
is at work.  It answers the four requests that the program makes of a file system, and it refuses
those that a file system would refuse, for the same reason.

That a name stands for a file or for a directory, and never for both, holds by construction.
`Entry.find` and `Entry.put` are the two basic operations, along plain names; `Disk.resolve`
reduces to them the paths that lead up again on the way.  From the topmost directory no path leads
up any further.
-/

set_option autoImplicit false
namespace ElmWire.Command

/-- Why the file system refuses a request. -/
inductive Fault where
  | missing
  | alreadyExists
  | notADirectory
  | isADirectory
  | nameTooLong
  /-- Any other reason, with its description and its number. -/
  | other (description : String) (code : Nat)
  deriving Repr, DecidableEq

/-- The text of a reason. -/
def Fault.message : Fault → String
  | .missing => "No such file or directory (os error 2)"
  | .alreadyExists => "File exists (os error 17)"
  | .notADirectory => "Not a directory (os error 20)"
  | .isADirectory => "Is a directory (os error 21)"
  | .nameTooLong => "File name too long (os error 36)"
  | .other description code => s!"{description} (os error {code})"

/-- What stands under a name: a file, or a directory with everything in it. -/
inductive Entry where
  | file (contents : String)
  /-- A file that stays empty whatever is written to it. -/
  | sink
  | directory (entries : List (String × Entry))
  deriving Inhabited

namespace Entry

/-! ## Plain names -/

/-- The number of bytes that a name may have. -/
def maxNameSize : Nat := 255

/-- What stands at the end of some names. -/
def find : List String → Entry → Except Fault Entry
  | [], entry => .ok entry
  | _ :: _, .file _ => .error .notADirectory
  | _ :: _, .sink => .error .notADirectory
  | name :: rest, .directory entries =>
    if maxNameSize < name.utf8ByteSize then .error .nameTooLong
    else
      match entries.lookup name with
      | none => .error .missing
      | some entry => find rest entry

/-- Replaces what stands at the end of some names.  Directories on the way that do not exist are
made, and where there is a file on the way nothing happens. -/
def put (new : Entry) : List String → Entry → Entry
  | [], _ => new
  | _ :: _, .file contents => .file contents
  | _ :: _, .sink => .sink
  | name :: rest, .directory entries =>
    .directory (Members.insert name
      (put new rest ((entries.lookup name).getD (.directory []))) entries)

/-- What was put somewhere is found there, if the names lead through directories. -/
theorem find_put (new : Entry) (names : List String) (entry : Entry)
    (short : ∀ name ∈ names, name.utf8ByteSize ≤ maxNameSize)
    (passable : entry.find names ≠ .error .notADirectory) :
    (put new names entry).find names = .ok new := by
  induction names generalizing entry with
  | nil => simp [put, find]
  | cons name rest ih =>
    have fits : ¬ maxNameSize < name.utf8ByteSize := Nat.not_lt.mpr (short name (by simp))
    have shortRest : ∀ other ∈ rest, other.utf8ByteSize ≤ maxNameSize :=
      fun other member => short other (by simp [member])
    cases entry with
    | file contents => simp [find] at passable
    | sink => simp [find] at passable
    | directory entries =>
      simp only [put, find, fits, if_false, Members.lookup_insert_self]
      refine ih _ shortRest fun contrary => passable ?_
      cases found : entries.lookup name with
      | none =>
        rw [found] at contrary
        cases rest with
        | nil => simp [find] at contrary
        | cons next others =>
          have fitsNext : ¬ maxNameSize < next.utf8ByteSize :=
            Nat.not_lt.mpr (shortRest next (by simp))
          simp [find, fitsNext] at contrary
      | some inner => simpa [find, fits, found] using contrary

mutual

/-- All files with the paths that lead to them, for an entry that itself has the path `base`. -/
def filesFrom (base : List String) : Entry → List (String × String)
  | .file contents => [(String.intercalate "/" base, contents)]
  | .sink => []
  | .directory entries => filesIn base entries

/-- All files in the entries of a directory with the path `base`. -/
def filesIn (base : List String) : List (String × Entry) → List (String × String)
  | [] => []
  | (name, entry) :: rest => entry.filesFrom (base ++ [name]) ++ filesIn base rest

end

end Entry

/-- A file system. -/
structure Disk where
  root : Entry
  /-- The names that lead from the root to the directory where the program is at work. -/
  workplace : List String

namespace Disk

/-! ## Paths -/

/-- The plain names of the directory that one comes to from the directory `here` along `names`. -/
def resolve (disk : Disk) (here : List String) : List String → Except Fault (List String)
  | [] => .ok here
  | name :: rest =>
    if name = Path.above then resolve disk here.dropLast rest
    else
      match disk.root.find (here ++ [name]) with
      | .ok (.directory _) => resolve disk (here ++ [name]) rest
      | .ok _ => .error .notADirectory
      | .error fault => .error fault

/-- The plain names of the directory in which a path starts. -/
def start (disk : Disk) (path : Path) : List String :=
  if path.isAbsolute then [] else disk.workplace

/-- The number of bytes from which on a path is too long. -/
def pathSizeBound : Nat := 4096

/-- The plain names of a path.  There are none if the path ends by leading back to a directory that
was passed before.  The directories on the way have to exist, the last name need not. -/
def locate (disk : Disk) (path : Path) : Except Fault (Option (List String)) :=
  if pathSizeBound ≤ path.text.utf8ByteSize then .error .nameTooLong
  else
    match path.names.getLast? with
    | none => .ok none
    | some last =>
      if last = Path.above then (disk.resolve (disk.start path) path.names).map fun _ => none
      else
        (disk.resolve (disk.start path) path.names.dropLast).map fun here => some (here ++ [last])

/-- The disk with something else at the end of some names. -/
def put (disk : Disk) (names : List String) (new : Entry) : Disk :=
  { disk with root := Entry.put new names disk.root }

/-! ## Requests -/

/-- The contents of a file. -/
def read (disk : Disk) (path : Path) : Except Fault String := do
  match ← disk.locate path with
  | none => .error .isADirectory
  | some names =>
    match ← disk.root.find names with
    | .directory _ => .error .isADirectory
    | .file contents => if path.ending = .name then .ok contents else .error .notADirectory
    | .sink => if path.ending = .name then .ok "" else .error .notADirectory

/-- Makes a file with the given contents, or replaces the contents of the file. -/
def write (disk : Disk) (path : Path) (contents : String) : Except Fault Disk := do
  match ← disk.locate path with
  | none => .error .isADirectory
  | some names =>
    match disk.root.find names, path.ending with
    | _, .slash => .error .isADirectory
    | .ok (.directory _), _ => .error .isADirectory
    | .ok _, .point => .error .notADirectory
    | .ok (.file _), .name => .ok (disk.put names (.file contents))
    | .ok .sink, .name => .ok disk
    | .error .missing, .name => .ok (disk.put names (.file contents))
    | .error fault, _ => .error fault

/-- Makes a directory in a directory that exists. -/
def makeDirectory (disk : Disk) (path : Path) : Except Fault Disk := do
  match ← disk.locate path with
  | none => .error .alreadyExists
  | some names =>
    match disk.root.find names with
    | .ok _ => .error .alreadyExists
    | .error .missing => .ok (disk.put names (.directory []))
    | .error fault => .error fault

/-- Is there a directory at the end of the path? -/
def isDirectory (disk : Disk) (path : Path) : Bool :=
  path.text.utf8ByteSize < pathSizeBound &&
    (disk.resolve (disk.start path) path.names).toOption.isSome

/-! ## Contents -/

/-- What stands in the topmost directory of a usual system. -/
def usual : Entry :=
  .directory (Members.ofList
    (("dev", .directory [("null", .sink)]) ::
      ["bin", "boot", "etc", "home", "lib", "media", "mnt", "opt", "proc", "root", "run", "sbin",
        "srv", "sys", "tmp", "usr", "var"].map fun name => (name, .directory [])))

/-- A name that no path has in it. -/
def unspeakable : String := ""

/-- The place where the program is at work, of which nothing is known to those who write paths. -/
def somewhere : List String := ["tmp", unspeakable]

/-- A usual system with nothing where the program is at work but the given files, each with the
path that leads to it, and the directories that they need. -/
def ofFiles (files : List (String × String)) : Disk :=
  let add (here : Entry) (file : String × String) : Entry :=
    Entry.put (.file file.2) (Path.mk file.1).names here
  ⟨Entry.put (files.foldl add (.directory [])) somewhere usual, somewhere⟩

/-- All files where the program is at work, each with the path that leads to it. -/
def files (disk : Disk) : List (String × String) :=
  match disk.root.find disk.workplace with
  | .ok entry => entry.filesFrom []
  | .error _ => []

end Disk
end ElmWire.Command
