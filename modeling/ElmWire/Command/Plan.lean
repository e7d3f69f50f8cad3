import ElmWire.Command.Disk

/-!
# Plans that use files

A `Plan` is a program that reads and writes files, as a tree: every request that it makes of the
file system is a node, which says how to go on with the answer.  Plans can be carried out on a
`Disk`, which shows all that they do, as well as on the file system of a computer.
-/

set_option autoImplicit false
namespace ElmWire.Command

/-- A program that makes requests of the file system and ends with a result. -/
inductive Plan (α : Type) where
  | done (result : α)
  | read (path : Path) (next : Except Fault String → Plan α)
  | write (path : Path) (contents : String) (next : Except Fault Unit → Plan α)
  | makeDirectory (path : Path) (next : Except Fault Unit → Plan α)
  | isDirectory (path : Path) (next : Bool → Plan α)

namespace Plan

variable {α β : Type}

/-- Goes on with the result of a plan. -/
def bind : Plan α → (α → Plan β) → Plan β
  | .done result, f => f result
  | .read path next, f => .read path fun answer => (next answer).bind f
  | .write path contents next, f => .write path contents fun answer => (next answer).bind f
  | .makeDirectory path next, f => .makeDirectory path fun answer => (next answer).bind f
  | .isDirectory path next, f => .isDirectory path fun answer => (next answer).bind f

instance : Monad Plan where
  pure := .done
  bind := bind

/-- The answer to a request that changes a disk, and the disk after it. -/
def answered (disk : Disk) : Except Fault Disk → Except Fault Unit × Disk
  | .ok changed => (.ok (), changed)
  | .error fault => (.error fault, disk)

/-- Carries a plan out on a disk. -/
def runOn : Plan α → Disk → α × Disk
  | .done result, disk => (result, disk)
  | .read path next, disk => (next (disk.read path)).runOn disk
  | .write path contents next, disk =>
    let (answer, disk) := answered disk (disk.write path contents)
    (next answer).runOn disk
  | .makeDirectory path next, disk =>
    let (answer, disk) := answered disk (disk.makeDirectory path)
    (next answer).runOn disk
  | .isDirectory path next, disk => (next (disk.isDirectory path)).runOn disk

/-- A plan that goes on with the result of another one runs after it. -/
theorem runOn_bind (plan : Plan α) (f : α → Plan β) (disk : Disk) :
    (plan.bind f).runOn disk = (f (plan.runOn disk).1).runOn (plan.runOn disk).2 := by
  induction plan generalizing disk with
  | done result => rfl
  | read path next ih => exact ih _ _
  | write path contents next ih => exact ih _ _
  | makeDirectory path next ih => exact ih _ _
  | isDirectory path next ih => exact ih _ _

/-- Makes a directory, unless it is there already. -/
def ensureDirectory (path : Path) : Plan (Except Fault Unit) :=
  .makeDirectory path fun
    | .ok () => .done (.ok ())
    | .error fault => .isDirectory path fun there => .done (if there then .ok () else .error fault)

/-- Makes a directory and before it, where they are missing, the directories on the way to it,
which are listed after it. -/
def ensureDirectories : List Path → Plan (Except Fault Unit)
  | [] => .done (.ok ())
  | path :: parents =>
    (ensureDirectory path).bind fun
      | .error .missing => (ensureDirectories parents).bind fun
        | .ok () => ensureDirectory path
        | .error fault => .done (.error fault)
      | answer => .done answer

/-- Writes a file, in a directory that is made if there is none. -/
def save (path : Path) (contents : String) : Plan (Except Fault Unit) :=
  (ensureDirectories path.parents).bind fun
    | .ok () => .write path contents .done
    | .error fault => .done (.error fault)

end Plan
end ElmWire.Command
