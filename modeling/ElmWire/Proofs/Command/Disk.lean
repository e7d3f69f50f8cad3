import ElmWire.Command.Disk
import ElmWire.Proofs.Failing
import Mathlib.Logic.Function.Basic

/-!
# What requests change on a disk

A path can lead to the same place in many ways, so files are told apart by the plain names that lead
to them from the root (`Disk.destination`).  `Disk.fileAt` is all that a disk has in its files;
`saved` is the same after a text was written to one of them.

* `Disk.saves_of_write` — **a file that is written is the only one that changes.**
* `Disk.sameFiles_of_makeDirectory` — making a directory changes no file.
* `Disk.Grows` — neither of them takes a directory away, so where a path leads stays the same from
  then on (`Disk.Grows.locate_eq_ok`).

The first two rest on what `Entry.put` does to everything that it is not meant for: files stay as
they are (`Entry.fileAt_put_of_ne`), and so do directories (`Entry.DirectoryAt.put`).
-/

set_option autoImplicit false
namespace ElmWire.Command

/-! ## Files and directories by their names -/

namespace Entry

variable {entry new : Entry} {entries : List (String × Entry)} {name : String}
  {names other more : List String}

/-- The file at the end of some names, if there is one. -/
def fileAt (entry : Entry) (names : List String) : Option Entry :=
  match entry.find names with
  | .ok (.directory _) => none
  | .ok found => some found
  | .error _ => none

/-- There is a directory at the end of the names. -/
def DirectoryAt (entry : Entry) (names : List String) : Prop :=
  ∃ entries, entry.find names = .ok (.directory entries)

theorem find_append (entry : Entry) (names more : List String) :
    entry.find (names ++ more) = entry.find names >>= find more := by
  induction names generalizing entry with
  | nil => rfl
  | cons name rest ih =>
    cases entry with
    | file contents => rfl
    | sink => rfl
    | directory entries =>
      simp only [List.cons_append, find]
      split
      · rfl
      · cases entries.lookup name with
        | none => rfl
        | some inner => exact ih inner

/-- Names that were followed are not too long. -/
theorem size_le_of_find_eq_ok {found : Entry} (h : entry.find names = .ok found) :
    ∀ name ∈ names, name.utf8ByteSize ≤ maxNameSize := by
  induction names generalizing entry with
  | nil => simp
  | cons name rest ih =>
    cases entry with
    | file contents => cases h
    | sink => cases h
    | directory entries =>
      rw [find] at h
      split at h
      · cases h
      · rename_i hsize
        cases hlookup : entries.lookup name with
        | none => rw [hlookup] at h; cases h
        | some inner =>
          rw [hlookup] at h
          exact List.forall_mem_cons.2 ⟨Nat.not_lt.1 hsize, ih h⟩

theorem DirectoryAt.of_append (h : entry.DirectoryAt (names ++ more)) :
    entry.DirectoryAt names := by
  obtain ⟨entries, h⟩ := h
  rw [find_append] at h
  obtain ⟨found, hfound, h⟩ := bind_eq_ok_iff.1 h
  cases found with
  | directory inner => exact ⟨inner, hfound⟩
  | file contents => cases more <;> cases h
  | sink => cases more <;> cases h

theorem directoryAt_cons : (directory entries).DirectoryAt (name :: names) ↔
    name.utf8ByteSize ≤ maxNameSize ∧
      ∃ inner, entries.lookup name = some inner ∧ inner.DirectoryAt names := by
  simp only [DirectoryAt, find]
  split
  · rename_i hsize
    simp [Nat.not_le.2 hsize]
  · rename_i hsize
    cases entries.lookup name with
    | none => simp
    | some inner => simp [Nat.not_lt.1 hsize]

theorem fileAt_empty (names : List String) : (directory []).fileAt names = none := by
  cases names with
  | nil => rfl
  | cons name rest =>
    by_cases hsize : maxNameSize < name.utf8ByteSize <;> simp [fileAt, find, hsize]

theorem fileAt_cons : (directory entries).fileAt (name :: names) =
    if maxNameSize < name.utf8ByteSize then none
    else ((entries.lookup name).getD (directory [])).fileAt names := by
  by_cases hsize : maxNameSize < name.utf8ByteSize
  · simp [fileAt, find, hsize]
  · cases hlookup : entries.lookup name with
    | none => simpa [hsize, fileAt, find, hlookup] using (fileAt_empty names).symm
    | some inner => simp [fileAt, find, hsize, hlookup]

/-! ## Putting something elsewhere -/

/-- Below what is no directory there are no files. -/
theorem fileAt_append_eq_none (hnot : ¬ entry.DirectoryAt names) (hmore : more ≠ []) :
    entry.fileAt (names ++ more) = none := by
  obtain ⟨name, rest, rfl⟩ := List.exists_cons_of_ne_nil hmore
  rw [fileAt, find_append]
  cases hfind : entry.find names with
  | error fault => rfl
  | ok found =>
    cases found with
    | directory entries => exact absurd ⟨entries, hfind⟩ hnot
    | file contents => rfl
    | sink => rfl

/-- **Putting something somewhere leaves all other files alone**, if no file goes with what was
there, and none comes with what is new. -/
theorem fileAt_put_of_ne (hnew : ∀ more ≠ [], new.fileAt more = none)
    (hbelow : ∀ more ≠ [], entry.fileAt (names ++ more) = none) (hne : other ≠ names) :
    (put new names entry).fileAt other = entry.fileAt other := by
  -- The directories that are made on the way are empty, and there were no files in them before.
  induction names generalizing entry other with
  | nil => rw [put, hnew other hne]; exact (hbelow other hne).symm
  | cons name rest ih =>
    cases entry with
    | file contents => rfl
    | sink => rfl
    | directory entries =>
      cases other with
      | nil => rfl
      | cons first others =>
        rw [put, fileAt_cons, fileAt_cons]
        split
        · rfl
        · rename_i hsize
          by_cases hfirst : first = name
          · subst hfirst
            rw [Members.lookup_insert_self, Option.getD_some]
            refine ih (fun more hmore => ?_) fun heq => hne (congrArg _ heq)
            simpa [fileAt_cons, hsize] using hbelow more hmore
          · rw [Members.lookup_insert_of_ne hfirst]

/-- Putting something where there is no directory takes no directory away. -/
theorem DirectoryAt.put (h : entry.DirectoryAt other) (hnot : ¬ entry.DirectoryAt names) :
    (put new names entry).DirectoryAt other := by
  induction names generalizing entry other with
  | nil => exact absurd (@DirectoryAt.of_append entry [] other h) hnot
  | cons name rest ih =>
    cases entry with
    | file contents => exact h
    | sink => exact h
    | directory entries =>
      cases other with
      | nil => exact ⟨_, rfl⟩
      | cons first others =>
        obtain ⟨hsize, inner, hlookup, hinner⟩ := directoryAt_cons.1 h
        rw [Entry.put, directoryAt_cons]
        by_cases hfirst : first = name
        · subst hfirst
          rw [Members.lookup_insert_self, hlookup, Option.getD_some]
          exact ⟨hsize, _, rfl, ih hinner fun hrest =>
            hnot (directoryAt_cons.2 ⟨hsize, inner, hlookup, hrest⟩)⟩
        · rw [Members.lookup_insert_of_ne hfirst]
          exact ⟨hsize, inner, hlookup, hinner⟩

/-- What a file is after a text was written to it, given what was there before. -/
def overwritten (text : String) : Option Entry → Entry
  | some sink => sink
  | _ => file text

end Entry

/-- All files after a text was written to one of them, or to a new one. -/
def saved (files : List String → Option Entry) (names : List String) (text : String) :
    List String → Option Entry :=
  Function.update files names (some (Entry.overwritten text (files names)))

namespace Disk

variable {disk disk' disk'' : Disk} {path : Path} {text : String} {names here place : List String}

/-- The file at the end of some names, if there is one. -/
def fileAt (disk : Disk) (names : List String) : Option Entry := disk.root.fileAt names

/-! ## Paths that lead somewhere -/

/-- Each name on a path leads up, or into a directory. -/
theorem resolve_cons_eq_ok_iff {name : String} {rest : List String} :
    disk.resolve here (name :: rest) = .ok place ↔
      name = Path.above ∧ disk.resolve here.dropLast rest = .ok place ∨
        name ≠ Path.above ∧ disk.root.DirectoryAt (here ++ [name]) ∧
          disk.resolve (here ++ [name]) rest = .ok place := by
  rw [resolve]
  by_cases habove : name = Path.above
  · simp [habove]
  · rw [if_neg habove]
    simp only [habove, false_and, ne_eq, not_false_eq_true, true_and, false_or, Entry.DirectoryAt]
    cases disk.root.find (here ++ [name]) with
    | error fault => simp
    | ok found => cases found <;> simp

theorem locate_eq_some_iff : disk.locate path = .ok (some names) ↔
    ¬ pathSizeBound ≤ path.text.utf8ByteSize ∧ ∃ last place, path.names.getLast? = some last ∧
      last ≠ Path.above ∧ disk.resolve (disk.start path) path.names.dropLast = .ok place ∧
        place ++ [last] = names := by
  rw [locate]
  by_cases hsize : pathSizeBound ≤ path.text.utf8ByteSize
  · simp [hsize]
  rw [if_neg hsize]
  cases path.names.getLast? with
  | none => simp
  | some last =>
    by_cases habove : last = Path.above
    · simp [habove, map_eq_ok_iff]
    · simp [habove, hsize, map_eq_ok_iff]

/-- Where one comes to from a directory with a name. -/
def follow (here : List String) (name : String) : List String :=
  if name = Path.above then here.dropLast else here ++ [name]

/-- The plain names of a path, if it leads anywhere. -/
def destination (disk : Disk) (path : Path) : List String :=
  path.names.foldl follow (disk.start path)

theorem eq_foldl_of_resolve (h : disk.resolve here names = .ok place) :
    place = names.foldl follow here := by
  induction names generalizing here with
  | nil => exact (Except.ok.inj h).symm
  | cons name rest ih =>
    rw [List.foldl_cons, follow]
    obtain ⟨habove, hrest⟩ | ⟨habove, -, hrest⟩ := resolve_cons_eq_ok_iff.1 h
    · rw [if_pos habove]
      exact ih hrest
    · rw [if_neg habove]
      exact ih hrest

theorem eq_destination_of_locate (h : disk.locate path = .ok (some names)) :
    names = disk.destination path := by
  obtain ⟨-, last, place, hlast, habove, hplace, rfl⟩ := locate_eq_some_iff.1 h
  rw [destination, ← List.dropLast_append_getLast? last hlast, List.foldl_append, List.foldl_cons,
    List.foldl_nil, ← eq_foldl_of_resolve hplace, follow, if_neg habove]

/-! ## Directories stay -/

/-- Every directory of the first disk is one of the second, where work goes on at the same place. -/
structure Grows (disk disk' : Disk) : Prop where
  workplace : disk'.workplace = disk.workplace
  directories : ∀ names, disk.root.DirectoryAt names → disk'.root.DirectoryAt names

namespace Grows

theorem refl (disk : Disk) : disk.Grows disk := ⟨rfl, fun _ h => h⟩

theorem trans (h : disk.Grows disk') (h' : disk'.Grows disk'') : disk.Grows disk'' :=
  ⟨h'.workplace.trans h.workplace,
    fun names hnames => h'.directories names (h.directories names hnames)⟩

theorem put (h : ¬ disk.root.DirectoryAt names) (new : Entry) : disk.Grows (disk.put names new) :=
  ⟨rfl, fun _ hother => hother.put h⟩

theorem resolve_eq_ok (h : disk.Grows disk') (hresolve : disk.resolve here names = .ok place) :
    disk'.resolve here names = .ok place := by
  induction names generalizing here with
  | nil => exact hresolve
  | cons name rest ih =>
    rw [resolve_cons_eq_ok_iff] at hresolve ⊢
    obtain ⟨habove, hrest⟩ | ⟨habove, hname, hrest⟩ := hresolve
    · exact .inl ⟨habove, ih hrest⟩
    · exact .inr ⟨habove, h.directories _ hname, ih hrest⟩

/-- Where a path leads stays the same. -/
theorem locate_eq_ok (h : disk.Grows disk') (hlocate : disk.locate path = .ok (some names)) :
    disk'.locate path = .ok (some names) := by
  obtain ⟨hsize, last, place, hlast, habove, hplace, hnames⟩ := locate_eq_some_iff.1 hlocate
  have hstart : disk'.start path = disk.start path := by rw [start, start, h.workplace]
  rw [locate_eq_some_iff, hstart]
  exact ⟨hsize, last, place, hlast, habove, h.resolve_eq_ok hplace, hnames⟩

theorem destination_eq (h : disk.Grows disk') (path : Path) :
    disk'.destination path = disk.destination path := by
  rw [destination, destination, start, start, h.workplace]

end Grows

/-! ## Places that exist -/

/-- The place of work is a directory. -/
def Settled (disk : Disk) : Prop := disk.root.DirectoryAt disk.workplace

theorem Grows.settled (h : disk.Grows disk') (hsettled : disk.Settled) : disk'.Settled := by
  rw [Settled, h.workplace]
  exact h.directories _ hsettled

theorem directoryAt_start (h : disk.Settled) (path : Path) :
    disk.root.DirectoryAt (disk.start path) := by
  rw [start]
  split
  · exact @Entry.DirectoryAt.of_append disk.root [] disk.workplace h
  · exact h

theorem directoryAt_of_resolve (h : disk.root.DirectoryAt here)
    (hresolve : disk.resolve here names = .ok place) : disk.root.DirectoryAt place := by
  induction names generalizing here with
  | nil =>
    cases hresolve
    exact h
  | cons name rest ih =>
    obtain ⟨-, hrest⟩ | ⟨-, hname, hrest⟩ := resolve_cons_eq_ok_iff.1 hresolve
    · refine ih ?_ hrest
      rcases List.eq_nil_or_concat here with rfl | ⟨front, last, rfl⟩
      · exact h
      · rw [List.concat_eq_append] at h ⊢
        rw [List.dropLast_concat]
        exact h.of_append
    · exact ih hname hrest

/-- A path leads to a name in a directory that exists. -/
theorem exists_of_locate (h : disk.Settled) (hlocate : disk.locate path = .ok (some names)) :
    ∃ place last, names = place ++ [last] ∧ disk.root.DirectoryAt place := by
  obtain ⟨-, last, place, -, -, hplace, hnames⟩ := locate_eq_some_iff.1 hlocate
  exact ⟨place, last, hnames.symm, directoryAt_of_resolve (directoryAt_start h path) hplace⟩

/-- What is put where a path leads is found there. -/
theorem find_put_of_locate (h : disk.Settled) (hlocate : disk.locate path = .ok (some names))
    (hshort : disk.root.find names ≠ .error .nameTooLong) (new : Entry) :
    (disk.put names new).root.find names = .ok new := by
  obtain ⟨place, last, rfl, entries, hplace⟩ := exists_of_locate h hlocate
  have hfind : disk.root.find (place ++ [last]) = (Entry.directory entries).find [last] := by
    rw [Entry.find_append, hplace]
    rfl
  have hlast : ¬ Entry.maxNameSize < last.utf8ByteSize := by
    intro hlong
    rw [hfind, Entry.find, if_pos hlong] at hshort
    exact hshort rfl
  refine Entry.find_put new _ _ ?_ ?_
  · rw [List.forall_mem_append, List.forall_mem_singleton]
    exact ⟨Entry.size_le_of_find_eq_ok hplace, Nat.not_lt.1 hlast⟩
  · rw [hfind, Entry.find, if_neg hlast]
    cases entries.lookup last with
    | none => simp
    | some inner => simp [Entry.find]

/-! ## Requests -/

/-- A file is written in place of a file, or where there was nothing, unless it is a sink. -/
theorem write_cases (h : disk.write path text = .ok disk') :
    ∃ names, disk.locate path = .ok (some names) ∧
      (((∃ contents, disk.root.find names = .ok (.file contents)) ∨
          disk.root.find names = .error .missing) ∧ disk' = disk.put names (.file text) ∨
        disk.root.find names = .ok .sink ∧ disk' = disk) := by
  obtain ⟨found, hlocate, h⟩ := bind_eq_ok_iff.1 h
  cases found with
  | none => cases h
  | some names =>
    refine ⟨names, hlocate, ?_⟩
    dsimp only at h
    split at h
    · cases h
    · cases h
    · cases h
    · rename_i contents hfind _
      cases h
      exact .inl ⟨.inl ⟨contents, hfind⟩, rfl⟩
    · rename_i hfind _
      cases h
      exact .inr ⟨hfind, rfl⟩
    · rename_i hfind _
      cases h
      exact .inl ⟨.inr hfind, rfl⟩
    · cases h

theorem read_of_find {contents : String} (hlocate : disk.locate path = .ok (some names))
    (hfind : disk.root.find names = .ok (.file contents)) (hending : path.ending = .name) :
    disk.read path = .ok contents := by
  simp [read, hlocate, hfind, hending, bind, Except.bind]

theorem write_of_find (hlocate : disk.locate path = .ok (some names))
    (hfind : (∃ contents, disk.root.find names = .ok (.file contents)) ∨
      disk.root.find names = .error .missing) (hending : path.ending = .name) :
    disk.write path text = .ok (disk.put names (.file text)) := by
  obtain ⟨contents, hfind⟩ | hfind := hfind <;>
    simp [write, hlocate, hfind, hending, bind, Except.bind]

theorem write_of_directoryAt (hlocate : disk.locate path = .ok (some names))
    (h : disk.root.DirectoryAt names) : disk.write path text = .error .isADirectory := by
  obtain ⟨entries, hfind⟩ := h
  cases hending : path.ending <;> simp [write, hlocate, hfind, hending, bind, Except.bind]

/-- The second disk has the files of the first, and at least its directories. -/
structure SameFiles (disk disk' : Disk) : Prop extends disk.Grows disk' where
  files : disk'.fileAt = disk.fileAt

/-- The second disk is the first after a text was written to the file at a path. -/
structure Saves (disk : Disk) (path : Path) (text : String) (disk' : Disk) : Prop
    extends disk.Grows disk' where
  located : disk'.locate path = .ok (some (disk.destination path))
  files : disk'.fileAt = saved disk.fileAt (disk.destination path) text

theorem SameFiles.refl (disk : Disk) : disk.SameFiles disk := ⟨.refl disk, rfl⟩

theorem SameFiles.trans (h : disk.SameFiles disk') (h' : disk'.SameFiles disk'') :
    disk.SameFiles disk'' :=
  ⟨h.toGrows.trans h'.toGrows, h'.files.trans h.files⟩

theorem SameFiles.saves (h : disk.SameFiles disk') (h' : disk'.Saves path text disk'') :
    disk.Saves path text disk'' := by
  refine ⟨h.toGrows.trans h'.toGrows, ?_, ?_⟩
  · rw [← h.destination_eq path]
    exact h'.located
  · rw [← h.destination_eq path, ← h.files]
    exact h'.files

theorem Saves.sameFiles (h : disk.Saves path text disk') (h' : disk'.SameFiles disk'') :
    disk.Saves path text disk'' :=
  ⟨h.toGrows.trans h'.toGrows, h'.locate_eq_ok h.located, h'.files.trans h.files⟩

/-- On the second disk, the file at the path has got the text, whatever else has changed. -/
structure Stored (disk : Disk) (path : Path) (text : String) (disk' : Disk) : Prop where
  located : disk'.locate path = .ok (some (disk.destination path))
  fileAt_eq : disk'.fileAt (disk.destination path) =
    some (Entry.overwritten text (disk.fileAt (disk.destination path)))

theorem Saves.stored (h : disk.Saves path text disk') : disk.Stored path text disk' := by
  refine ⟨h.located, ?_⟩
  rw [h.files, saved, Function.update_self]

theorem Saves.fileAt_of_ne (h : disk.Saves path text disk') (hne : names ≠ disk.destination path) :
    disk'.fileAt names = disk.fileAt names := by
  rw [h.files, saved, Function.update_of_ne hne]

/-- A file that is written to another place leaves the first one as it is. -/
theorem Saves.stored_left {other : Path} {text' : String} (h : disk.Saves path text disk')
    (h' : disk'.Saves other text' disk'')
    (hne : disk.destination path ≠ disk.destination other) : disk.Stored path text disk'' := by
  refine ⟨h'.locate_eq_ok h.located, ?_⟩
  rw [← h.destination_eq other] at hne
  rw [h'.fileAt_of_ne hne]
  exact h.stored.fileAt_eq

theorem Saves.stored_right {other : Path} {text' : String} (h : disk.Saves path text disk')
    (h' : disk'.Saves other text' disk'')
    (hne : disk.destination path ≠ disk.destination other) : disk.Stored other text' disk'' := by
  have hstored := h'.stored
  refine ⟨h.destination_eq other ▸ hstored.located, ?_⟩
  rw [← h.fileAt_of_ne hne.symm, ← h.destination_eq other]
  exact hstored.fileAt_eq

/-- **A file that is written is the only one that changes.** -/
theorem saves_of_write (hsettled : disk.Settled) (h : disk.write path text = .ok disk') :
    disk.Saves path text disk' := by
  obtain ⟨names, hlocate, ⟨hfind, rfl⟩ | ⟨hfind, heq⟩⟩ := write_cases h
  all_goals obtain rfl := eq_destination_of_locate hlocate
  · have hnot : ¬ disk.root.DirectoryAt (disk.destination path) := by
      rintro ⟨entries, hentries⟩
      rw [hentries] at hfind
      simp at hfind
    have hshort : disk.root.find (disk.destination path) ≠ .error .nameTooLong := by
      obtain ⟨contents, hfind⟩ | hfind := hfind <;> simp [hfind]
    have hgrows : disk.Grows (disk.put (disk.destination path) (.file text)) := .put hnot _
    refine ⟨hgrows, hgrows.locate_eq_ok hlocate, funext fun other => ?_⟩
    by_cases hother : other = disk.destination path
    · subst hother
      have hbefore :
          Entry.overwritten text (disk.fileAt (disk.destination path)) = .file text := by
        obtain ⟨contents, hfind⟩ | hfind := hfind <;> rw [fileAt, Entry.fileAt, hfind] <;> rfl
      rw [saved, Function.update_self, hbefore, fileAt, Entry.fileAt,
        find_put_of_locate hsettled hlocate hshort]
    · rw [saved, Function.update_of_ne hother]
      refine Entry.fileAt_put_of_ne (fun more hmore => ?_)
        (fun more => Entry.fileAt_append_eq_none hnot) hother
      obtain ⟨name, rest, rfl⟩ := List.exists_cons_of_ne_nil hmore
      rfl
  · have hfile : disk.fileAt (disk.destination path) = some .sink := by
      rw [fileAt, Entry.fileAt, hfind]
    rw [heq]
    refine ⟨.refl disk, hlocate, ?_⟩
    rw [saved, hfile, Entry.overwritten, ← hfile, Function.update_eq_self]

/-- **Making a directory changes no file.** -/
theorem sameFiles_of_makeDirectory (hsettled : disk.Settled)
    (h : disk.makeDirectory path = .ok disk') : disk.SameFiles disk' := by
  obtain ⟨found, hlocate, h⟩ := bind_eq_ok_iff.1 h
  cases found with
  | none => cases h
  | some names =>
    dsimp only at h
    split at h
    · cases h
    · rename_i hfind
      cases h
      have hnot : ¬ disk.root.DirectoryAt names := by
        rintro ⟨entries, hentries⟩
        rw [hentries] at hfind
        cases hfind
      refine ⟨.put hnot _, funext fun other => ?_⟩
      by_cases hother : other = names
      · subst hother
        have hshort : disk.root.find other ≠ .error .nameTooLong := by simp [hfind]
        rw [fileAt, Entry.fileAt, find_put_of_locate hsettled hlocate hshort, fileAt, Entry.fileAt,
          hfind]
      · exact Entry.fileAt_put_of_ne (fun more _ => Entry.fileAt_empty more)
          (fun more => Entry.fileAt_append_eq_none hnot) hother
    · cases h

end Disk
end ElmWire.Command
