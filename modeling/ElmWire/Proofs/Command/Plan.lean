import ElmWire.Command.Plan
import ElmWire.Proofs.Command.Disk

/-!
# Runs on a file system that may refuse

`Plan.runOn` carries a plan out on a disk that refuses only what its contents forbid.  A file system
has other reasons to refuse: a permission, a device that is full, a disk that fails.  `Plan.Ends`
lets it refuse any request at any time.  A write can also break off and leave anything in its file;
but an answer that is no fault is true, and nothing changes that was not asked for.

* `Plan.ends_runOn` — to be carried out on a disk is one such run.
* `Plan.exists_of_ends_bind` — a run of two plans in a row is a run of each.
* `Plan.Ends.of_save` — **whatever is refused, saving a file changes that file or none**; it answers
  without a fault only if the text stands in the file.
-/

set_option autoImplicit false
namespace ElmWire.Command

/-! ## Requests -/

namespace Disk

variable {disk disk' : Disk} {path : Path} {text : String} {answer : Except Fault Unit}

/-- What reading a file may answer. -/
inductive MayRead (disk : Disk) (path : Path) : Except Fault String → Prop
  | done {text : String} (h : disk.read path = .ok text) : MayRead disk path (.ok text)
  | refused (fault : Fault) : MayRead disk path (.error fault)

/-- What writing a file may answer, and the disk after it. -/
inductive MayWrite (disk : Disk) (path : Path) (text : String) : Except Fault Unit → Disk → Prop
  | done {disk' : Disk} (h : disk.write path text = .ok disk') :
      MayWrite disk path text (.ok ()) disk'
  | refused (fault : Fault) : MayWrite disk path text (.error fault) disk
  | brokenOff {disk' : Disk} (fault : Fault) (part : String)
      (h : disk.write path part = .ok disk') : MayWrite disk path text (.error fault) disk'

/-- What making a directory may answer, and the disk after it. -/
inductive MayMakeDirectory (disk : Disk) (path : Path) : Except Fault Unit → Disk → Prop
  | done {disk' : Disk} (h : disk.makeDirectory path = .ok disk') :
      MayMakeDirectory disk path (.ok ()) disk'
  | refused (fault : Fault) : MayMakeDirectory disk path (.error fault) disk

theorem mayRead_read (disk : Disk) (path : Path) : disk.MayRead path (disk.read path) := by
  cases h : disk.read path with
  | ok text => exact .done h
  | error fault => exact .refused fault

theorem MayMakeDirectory.sameFiles (hsettled : disk.Settled)
    (h : disk.MayMakeDirectory path answer disk') : disk.SameFiles disk' := by
  cases h with
  | done h => exact sameFiles_of_makeDirectory hsettled h
  | refused fault => exact .refl disk

end Disk

namespace Plan

open Disk

variable {α β : Type} {disk disk' : Disk} {path : Path} {text : String}

/-- The plan can end with the result, and with the second disk if it starts with the first. -/
inductive Ends : Plan α → Disk → α → Disk → Prop
  | done (result : α) (disk : Disk) : Ends (.done result) disk result disk
  | read {next : Except Fault String → Plan α} {answer : Except Fault String} {result : α}
      {disk disk' : Disk} {path : Path} (hanswer : disk.MayRead path answer)
      (h : Ends (next answer) disk result disk') : Ends (.read path next) disk result disk'
  | write {next : Except Fault Unit → Plan α} {answer : Except Fault Unit} {result : α}
      {disk changed disk' : Disk} {path : Path} {text : String}
      (hanswer : disk.MayWrite path text answer changed)
      (h : Ends (next answer) changed result disk') : Ends (.write path text next) disk result disk'
  | makeDirectory {next : Except Fault Unit → Plan α} {answer : Except Fault Unit} {result : α}
      {disk changed disk' : Disk} {path : Path}
      (hanswer : disk.MayMakeDirectory path answer changed)
      (h : Ends (next answer) changed result disk') :
      Ends (.makeDirectory path next) disk result disk'
  -- A directory may be hidden, but there is none where there is none.
  | isDirectory {next : Bool → Plan α} {there : Bool} {result : α} {disk disk' : Disk} {path : Path}
      (hthere : there = true → disk.isDirectory path = true)
      (h : Ends (next there) disk result disk') : Ends (.isDirectory path next) disk result disk'

theorem ends_done {found result : α} :
    (done found).Ends disk result disk' ↔ result = found ∧ disk' = disk := by
  constructor
  · rintro ⟨⟩
    exact ⟨rfl, rfl⟩
  · rintro ⟨rfl, rfl⟩
    exact .done _ _

theorem ends_runOn (plan : Plan α) (disk : Disk) :
    plan.Ends disk (plan.runOn disk).1 (plan.runOn disk).2 := by
  induction plan generalizing disk with
  | done result => exact .done result disk
  | read path next ih => exact .read (mayRead_read disk path) (ih _ disk)
  | write path contents next ih =>
    refine .write ?_ (ih _ _)
    cases h : disk.write path contents with
    | ok changed => exact .done h
    | error fault => exact .refused fault
  | makeDirectory path next ih =>
    refine .makeDirectory ?_ (ih _ _)
    cases h : disk.makeDirectory path with
    | ok changed => exact .done h
    | error fault => exact .refused fault
  | isDirectory path next ih => exact .isDirectory id (ih _ disk)

/-- Two plans in a row run one after the other. -/
theorem exists_of_ends_bind {plan : Plan α} {f : α → Plan β} {result : β}
    (h : (plan.bind f).Ends disk result disk') :
    ∃ found middle, plan.Ends disk found middle ∧ (f found).Ends middle result disk' := by
  induction plan generalizing disk with
  | done found => exact ⟨found, disk, .done found disk, h⟩
  | read path next ih =>
    cases h with
    | read hanswer h =>
      obtain ⟨found, middle, hfirst, hrest⟩ := ih _ h
      exact ⟨found, middle, .read hanswer hfirst, hrest⟩
  | write path contents next ih =>
    cases h with
    | write hanswer h =>
      obtain ⟨found, middle, hfirst, hrest⟩ := ih _ h
      exact ⟨found, middle, .write hanswer hfirst, hrest⟩
  | makeDirectory path next ih =>
    cases h with
    | makeDirectory hanswer h =>
      obtain ⟨found, middle, hfirst, hrest⟩ := ih _ h
      exact ⟨found, middle, .makeDirectory hanswer hfirst, hrest⟩
  | isDirectory path next ih =>
    cases h with
    | isDirectory hthere h =>
      obtain ⟨found, middle, hfirst, hrest⟩ := ih _ h
      exact ⟨found, middle, .isDirectory hthere hfirst, hrest⟩

/-! ## Saving a file -/

theorem Ends.of_ensureDirectory (hsettled : disk.Settled) {result : Except Fault Unit}
    (h : (ensureDirectory path).Ends disk result disk') : disk.SameFiles disk' := by
  cases h with
  | makeDirectory hanswer h =>
    rename_i answer changed
    have hsame : disk.SameFiles changed := hanswer.sameFiles hsettled
    cases answer with
    | ok found =>
      obtain ⟨-, rfl⟩ := ends_done.1 h
      exact hsame
    | error fault =>
      cases h with
      | isDirectory hthere h =>
        obtain ⟨-, rfl⟩ := ends_done.1 h
        exact hsame

theorem Ends.of_ensureDirectories (hsettled : disk.Settled) {paths : List Path}
    {result : Except Fault Unit} (h : (ensureDirectories paths).Ends disk result disk') :
    disk.SameFiles disk' := by
  induction paths generalizing disk result disk' with
  | nil =>
    obtain ⟨-, rfl⟩ := ends_done.1 h
    exact .refl _
  | cons path parents ih =>
    obtain ⟨answer, middle, hfirst, h⟩ := exists_of_ends_bind h
    have hsame := hfirst.of_ensureDirectory hsettled
    split at h
    · obtain ⟨answer, higher, hparents, h⟩ := exists_of_ends_bind h
      have hhigher := hsame.trans (ih (hsame.settled hsettled) hparents)
      split at h
      · exact hhigher.trans (h.of_ensureDirectory (hhigher.settled hsettled))
      · obtain ⟨-, rfl⟩ := ends_done.1 h
        exact hhigher
    · obtain ⟨-, rfl⟩ := ends_done.1 h
      exact hsame

/-- **Whatever is refused, saving a file changes that file or none.** -/
theorem Ends.of_save (hsettled : disk.Settled) {result : Except Fault Unit}
    (h : (save path text).Ends disk result disk') :
    result = .ok () ∧ disk.Saves path text disk' ∨
      ∃ fault, result = .error fault ∧
        (disk.SameFiles disk' ∨ ∃ part, disk.Saves path part disk') := by
  obtain ⟨answer, middle, hparents, h⟩ := exists_of_ends_bind h
  have hsame := hparents.of_ensureDirectories hsettled
  have hmiddle := hsame.settled hsettled
  split at h
  · cases h with
    | write hanswer h =>
      obtain ⟨rfl, rfl⟩ := ends_done.1 h
      cases hanswer with
      | done hwrite => exact .inl ⟨rfl, hsame.saves (saves_of_write hmiddle hwrite)⟩
      | refused fault => exact .inr ⟨fault, rfl, .inl hsame⟩
      | brokenOff fault part hwrite =>
        exact .inr ⟨fault, rfl, .inr ⟨part, hsame.saves (saves_of_write hmiddle hwrite)⟩⟩
  · obtain ⟨rfl, rfl⟩ := ends_done.1 h
    exact .inr ⟨_, rfl, .inl hsame⟩

/-- A file whose path has no directories is written at once. -/
theorem runOn_save (hparents : path.parents = []) {answer : Except Fault Unit}
    (hwrite : answered disk (disk.write path text) = (answer, disk')) :
    (save path text).runOn disk = (answer, disk') := by
  rw [save, hparents]
  exact hwrite

end Plan
end ElmWire.Command
