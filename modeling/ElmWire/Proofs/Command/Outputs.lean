import ElmWire.Command.Run
import ElmWire.Proofs.Command.Plan
import ElmWire.Proofs.Compile.Slots
import ElmWire.Proofs.Extraction.WellFormed
import ElmWire.Proofs.Source.RoundTrip

/-!
# What a compilation leaves behind

A compilation makes both texts before it writes any file, but it writes the files one after the
other.  This file says what that means on a file system that may refuse anything at any time.

* `CompileRequest.outputs_of_run` — **a compilation that succeeds has written the two texts of one
  compilation and nothing else; one that fails has written nothing, unless it was a write that
  failed.**  Then the files before it stay written: the Elm module is new where the TypeScript
  declarations could not be written.
* `halfWritten_workshop` — this happens, where a directory has the name that the declarations
  should get.
-/

set_option autoImplicit false
namespace ElmWire.Command

open Compile (Options Output)

variable {disk disk' : Disk} {path : Path} {text : String} {request : CompileRequest}
  {output : Output}

/-! ## Attempts -/

/-- An attempt after another one is made only if that one succeeds. -/
theorem exists_of_ends_bind {α β : Type} {first : Attempt α} {next : α → Attempt β}
    {result : Except Error β} (h : (first >>= next).run.Ends disk result disk') :
    (∃ error, first.run.Ends disk (.error error) disk' ∧ result = .error error) ∨
      ∃ found middle, first.run.Ends disk (.ok found) middle ∧
        (next found).run.Ends middle result disk' := by
  rw [ExceptT.run_bind] at h
  obtain ⟨found, middle, hfirst, hrest⟩ := Plan.exists_of_ends_bind h
  cases found with
  | error error =>
    obtain ⟨rfl, rfl⟩ := Plan.ends_done.1 hrest
    exact .inl ⟨error, hfirst, rfl⟩
  | ok found => exact .inr ⟨found, middle, hfirst, hrest⟩

theorem ends_read {result : Except Error String} (h : (read path).run.Ends disk result disk') :
    disk' = disk ∧ ∀ text, result = .ok text → disk.read path = .ok text := by
  cases h with
  | read hanswer h =>
    obtain ⟨rfl, rfl⟩ := Plan.ends_done.1 h
    refine ⟨rfl, fun text htext => ?_⟩
    cases hanswer with
    | done hread =>
      cases htext
      exact hread
    | refused fault => cases htext

/-- The options that stand in a file, or the standard ones if there is no file. -/
def Disk.Configures (disk : Disk) : Option Path → Options → Prop
  | none, options => options = .standard
  | some path, options => ∃ text, disk.read path = .ok text ∧ Options.parse? text = some options

theorem ends_configured {config : Option Path} {result : Except Error Options}
    (h : (configured config).run.Ends disk result disk') :
    disk' = disk ∧ ∀ options, result = .ok options → disk.Configures config options := by
  cases config with
  | none =>
    obtain ⟨rfl, rfl⟩ := Plan.ends_done.1 h
    exact ⟨rfl, fun options hoptions => (Except.ok.inj hoptions).symm⟩
  | some path =>
    obtain ⟨error, hread, rfl⟩ | ⟨text, middle, hread, hnext⟩ := exists_of_ends_bind h
    · exact ⟨(ends_read hread).1, nofun⟩
    · obtain ⟨rfl, htext⟩ := ends_read hread
      split at hnext
      · rename_i parsed hparse
        obtain ⟨rfl, rfl⟩ := Plan.ends_done.1 hnext
        refine ⟨rfl, fun options hoptions => ⟨text, htext text rfl, ?_⟩⟩
        cases hoptions
        exact hparse
      · obtain ⟨rfl, rfl⟩ := Plan.ends_done.1 hnext
        exact ⟨rfl, nofun⟩

theorem saves_of_ends_save (hsettled : disk.Settled)
    (h : (save path text).run.Ends disk (.ok ()) disk') : disk.Saves path text disk' := by
  obtain ⟨answer, middle, hsave, hlast⟩ := Plan.exists_of_ends_bind h
  obtain ⟨hanswer, rfl⟩ := Plan.ends_done.1 hlast
  obtain ⟨-, hsaves⟩ | ⟨fault, rfl, -⟩ := hsave.of_save hsettled
  · exact hsaves
  · cases hanswer

/-- A file that could not be saved is named, and it is the only one that may have changed. -/
theorem files_of_ends_save (hsettled : disk.Settled) {error : Error}
    (h : (save path text).run.Ends disk (.error error) disk') :
    ∃ fault, error = .file path fault ∧
      (disk.SameFiles disk' ∨ ∃ part, disk.Saves path part disk') := by
  obtain ⟨answer, middle, hsave, hlast⟩ := Plan.exists_of_ends_bind h
  obtain ⟨hanswer, rfl⟩ := Plan.ends_done.1 hlast
  obtain ⟨rfl, -⟩ | ⟨fault, rfl, hfiles⟩ := hsave.of_save hsettled
  · cases hanswer
  · exact ⟨fault, Except.error.inj hanswer, hfiles⟩

/-! ## Compilations -/

/-- The two texts that a compilation is to write: those of its input, with options from the command
line first, then from the file of options, and then the standard ones. -/
def CompileRequest.Makes (request : CompileRequest) (disk : Disk) (output : Output) : Prop :=
  ∃ options text, disk.Configures request.config options ∧ disk.read request.input = .ok text ∧
    Output.ofText (request.override options) text = .ok output

/-- The part of a compilation that writes files. -/
def CompileRequest.publish (request : CompileRequest) (output : Output) : Attempt String := do
  save request.elmOutput output.elm
  save request.typeScriptOutput output.typeScript
  return "Compiled " ++ request.input.text ++ " → " ++ request.elmOutput.text ++ ", " ++
    request.typeScriptOutput.text ++ "\n"

/-- Nothing is written before both texts are made. -/
theorem CompileRequest.ends_run {result : Except Error String}
    (h : request.run.run.Ends disk result disk') :
    (disk' = disk ∧ ∃ error, result = .error error) ∨
      ∃ output, request.Makes disk output ∧
        (request.publish output).run.Ends disk result disk' := by
  obtain ⟨error, hconfig, rfl⟩ | ⟨options, middle, hconfig, hrest⟩ := exists_of_ends_bind h
  · exact .inl ⟨(ends_configured hconfig).1, error, rfl⟩
  obtain ⟨rfl, hoptions⟩ := ends_configured hconfig
  obtain ⟨error, hread, rfl⟩ | ⟨text, middle, hread, hlast⟩ := exists_of_ends_bind hrest
  · exact .inl ⟨(ends_read hread).1, error, rfl⟩
  obtain ⟨rfl, htext⟩ := ends_read hread
  split at hlast
  · obtain ⟨rfl, rfl⟩ := Plan.ends_done.1 hlast
    exact .inl ⟨rfl, _, rfl⟩
  · rename_i output houtput
    exact .inr ⟨output, ⟨options, text, hoptions options rfl, htext text rfl, houtput⟩, hlast⟩

/-- A compilation that succeeds has saved both of its texts. -/
theorem CompileRequest.saves_of_ends_run (hsettled : disk.Settled) {shown : String}
    (h : request.run.run.Ends disk (.ok shown) disk') :
    ∃ output, request.Makes disk output ∧ ∃ middle,
      disk.Saves request.elmOutput output.elm middle ∧
        middle.Saves request.typeScriptOutput output.typeScript disk' := by
  obtain ⟨-, error, herror⟩ | ⟨output, hmakes, h⟩ := ends_run h
  · cases herror
  obtain ⟨error, -, herror⟩ | ⟨⟨⟩, middle, hfirst, hrest⟩ := exists_of_ends_bind h
  · cases herror
  obtain ⟨error, -, herror⟩ | ⟨⟨⟩, last, hsecond, hlast⟩ := exists_of_ends_bind hrest
  · cases herror
  have helm := saves_of_ends_save hsettled hfirst
  obtain ⟨-, rfl⟩ := Plan.ends_done.1 hlast
  exact ⟨output, hmakes, middle, helm, saves_of_ends_save (helm.settled hsettled) hsecond⟩

/-- A compilation that fails has changed no file but the one at which it failed and one before. -/
theorem CompileRequest.files_of_ends_run (hsettled : disk.Settled) {error : Error}
    (h : request.run.run.Ends disk (.error error) disk') :
    disk.SameFiles disk' ∨ ∃ output, request.Makes disk output ∧
      ((∃ fault, error = .file request.elmOutput fault ∧
          ∃ part, disk.Saves request.elmOutput part disk') ∨
        ∃ fault middle, error = .file request.typeScriptOutput fault ∧
          disk.Saves request.elmOutput output.elm middle ∧
          (middle.SameFiles disk' ∨ ∃ part, middle.Saves request.typeScriptOutput part disk')) := by
  obtain ⟨rfl, -⟩ | ⟨output, hmakes, h⟩ := ends_run h
  · exact .inl (.refl _)
  obtain ⟨error, hfirst, herror⟩ | ⟨⟨⟩, middle, hfirst, hrest⟩ := exists_of_ends_bind h
  · cases herror
    obtain ⟨fault, rfl, hsame | hpart⟩ := files_of_ends_save hsettled hfirst
    · exact .inl hsame
    · exact .inr ⟨output, hmakes, .inl ⟨fault, rfl, hpart⟩⟩
  have helm := saves_of_ends_save hsettled hfirst
  obtain ⟨error, hsecond, herror⟩ | ⟨⟨⟩, last, hsecond, hlast⟩ := exists_of_ends_bind hrest
  · cases herror
    obtain ⟨fault, rfl, hfiles⟩ := files_of_ends_save (helm.settled hsettled) hsecond
    exact .inr ⟨output, hmakes, .inr ⟨fault, middle, rfl, helm, hfiles⟩⟩
  · obtain ⟨herror, -⟩ := Plan.ends_done.1 hlast
    cases herror

/-! ## Runs in which nothing is refused -/

theorem runOn_attempt_bind {α β : Type} {first : Attempt α} {next : α → Attempt β} {found : α}
    {middle : Disk} (h : first.run.runOn disk = (.ok found, middle)) :
    (first >>= next).run.runOn disk = (next found).run.runOn middle := by
  rw [ExceptT.run_bind]
  refine (Plan.runOn_bind ..).trans ?_
  rw [h]

theorem runOn_attempt_bind_error {α β : Type} {first : Attempt α} {next : α → Attempt β}
    {error : Error} {middle : Disk} (h : first.run.runOn disk = (.error error, middle)) :
    (first >>= next).run.runOn disk = (.error error, middle) := by
  rw [ExceptT.run_bind]
  refine (Plan.runOn_bind ..).trans ?_
  rw [h]
  rfl

theorem runOn_read (h : disk.read path = .ok text) :
    (read path).run.runOn disk = (.ok text, disk) := by
  show ((disk.read path).mapError (Error.file path), disk) = _
  rw [h]
  rfl

/-- A compilation that comes to its texts goes on to write them. -/
theorem CompileRequest.runOn_run (hmakes : request.Makes disk output) :
    request.run.run.runOn disk = (request.publish output).run.runOn disk := by
  obtain ⟨options, text, hoptions, htext, houtput⟩ := hmakes
  have hconfigured : (configured request.config).run.runOn disk = (.ok options, disk) := by
    cases hconfig : request.config with
    | none =>
      rw [hconfig] at hoptions
      rw [hoptions]
      rfl
    | some path =>
      rw [hconfig] at hoptions
      obtain ⟨text, htext, hparse⟩ := hoptions
      rw [configured, runOn_attempt_bind (runOn_read htext), hparse]
      rfl
  rw [run, runOn_attempt_bind hconfigured, runOn_attempt_bind (runOn_read htext), houtput]
  rfl

theorem runOn_save {answer : Except Fault Unit}
    (h : (Plan.save path text).runOn disk = (answer, disk')) :
    (save path text).run.runOn disk = (answer.mapError (.file path), disk') := by
  refine (Plan.runOn_bind ..).trans ?_
  rw [h]
  rfl

/-- If both files can be saved, a compilation succeeds. -/
theorem CompileRequest.exists_runOn_run {middle : Disk} (hmakes : request.Makes disk output)
    (helm : (Plan.save request.elmOutput output.elm).runOn disk = (.ok (), middle))
    (htypeScript :
      (Plan.save request.typeScriptOutput output.typeScript).runOn middle = (.ok (), disk')) :
    ∃ shown, request.run.run.runOn disk = (.ok shown, disk') := by
  rw [runOn_run hmakes, publish, runOn_attempt_bind (runOn_save helm),
    runOn_attempt_bind (runOn_save htypeScript)]
  exact ⟨_, rfl⟩

/-- On the second disk, all files but the outputs are as they were. -/
def CompileRequest.SameElsewhere (request : CompileRequest) (disk disk' : Disk) : Prop :=
  ∀ names, names ≠ disk.destination request.elmOutput →
    names ≠ disk.destination request.typeScriptOutput → disk'.fileAt names = disk.fileAt names

/-- **A compilation that succeeds has written the two texts of one compilation, and no other file is
changed.  One that fails has changed no file, unless a write failed**: then this file may hold
anything, and the Elm module is new if it was the write of the TypeScript declarations.  If both
files can be saved, the compilation succeeds.  All this is for outputs that are different files; the
second text would replace the first otherwise. -/
theorem CompileRequest.outputs_of_run (request : CompileRequest) {disk : Disk}
    (hsettled : disk.Settled)
    (hdistinct :
      disk.destination request.elmOutput ≠ disk.destination request.typeScriptOutput) :
    (∀ shown disk', (Command.run (.compile request)).run.Ends disk (.ok shown) disk' →
      ∃ output, request.Makes disk output ∧ disk.Stored request.elmOutput output.elm disk' ∧
        disk.Stored request.typeScriptOutput output.typeScript disk' ∧
        request.SameElsewhere disk disk') ∧
    (∀ error disk', (Command.run (.compile request)).run.Ends disk (.error error) disk' →
      disk'.fileAt = disk.fileAt ∨
        ∃ output fault, request.Makes disk output ∧ request.SameElsewhere disk disk' ∧
          (error = .file request.elmOutput fault ∧
              (∃ part, disk.Stored request.elmOutput part disk') ∧
              disk'.fileAt (disk.destination request.typeScriptOutput) =
                disk.fileAt (disk.destination request.typeScriptOutput) ∨
            error = .file request.typeScriptOutput fault ∧
              disk.Stored request.elmOutput output.elm disk' ∧
              (disk'.fileAt (disk.destination request.typeScriptOutput) =
                  disk.fileAt (disk.destination request.typeScriptOutput) ∨
                ∃ part, disk.Stored request.typeScriptOutput part disk'))) ∧
    ∀ output middle disk', request.Makes disk output →
      (Plan.save request.elmOutput output.elm).runOn disk = (.ok (), middle) →
      (Plan.save request.typeScriptOutput output.typeScript).runOn middle = (.ok (), disk') →
      ∃ shown, (Command.run (.compile request)).run.runOn disk = (.ok shown, disk') := by
  have hboth : ∀ {elm typeScript : String} {middle disk' : Disk},
      disk.Saves request.elmOutput elm middle →
      middle.Saves request.typeScriptOutput typeScript disk' →
        request.SameElsewhere disk disk' := by
    intro elm typeScript middle disk' helm htypeScript names hnames hnames'
    rw [← helm.destination_eq] at hnames'
    rw [htypeScript.fileAt_of_ne hnames', helm.fileAt_of_ne hnames]
  refine ⟨fun shown disk' h => ?_, fun error disk' h => ?_, fun _ _ _ => exists_runOn_run⟩
  · obtain ⟨output, hmakes, middle, helm, htypeScript⟩ := saves_of_ends_run hsettled h
    exact ⟨output, hmakes, helm.stored_left htypeScript hdistinct,
      helm.stored_right htypeScript hdistinct, hboth helm htypeScript⟩
  · obtain hsame | ⟨output, hmakes, ⟨fault, rfl, part, hpart⟩ |
      ⟨fault, middle, rfl, helm, hfiles⟩⟩ := files_of_ends_run hsettled h
    · exact .inl hsame.files
    · exact .inr ⟨output, fault, hmakes, fun names hnames _ => hpart.fileAt_of_ne hnames,
        .inl ⟨rfl, ⟨part, hpart.stored⟩, hpart.fileAt_of_ne hdistinct.symm⟩⟩
    · refine .inr ⟨output, fault, hmakes, ?_⟩
      obtain hsame | ⟨part, hpart⟩ := hfiles
      · have hsaved : disk.Saves request.elmOutput output.elm disk' := helm.sameFiles hsame
        exact ⟨fun names hnames _ => hsaved.fileAt_of_ne hnames,
          .inr ⟨rfl, hsaved.stored, .inl (hsaved.fileAt_of_ne hdistinct.symm)⟩⟩
      · exact ⟨hboth helm hpart, .inr ⟨rfl, helm.stored_left hpart hdistinct,
          .inr ⟨part, helm.stored_right hpart hdistinct⟩⟩⟩

/-! ## A run that succeeds and one that does not -/

/-- A directory with the module of messages about threads, older declarations, and a directory. -/
def workshop : Disk where
  root := .directory [("Main.d.ts", .file "export \x7b\x7d"),
    ("module.json", .file Source.threadsModule.toJson.compact),
    ("web", .directory [("keep.txt", .file "kept\n")])]
  workplace := []

/-- A compilation of the module in `workshop`, with standard options. -/
def threadsRequest (typeScriptOutput : Path) : CompileRequest where
  input := ⟨"module.json"⟩
  elmOutput := ⟨"Port.elm"⟩
  typeScriptOutput := typeScriptOutput
  config := none
  moduleName := none
  mainModule := none
  width := none

/-- The texts that the module compiles to. -/
theorem exists_makes_threads :
    ∃ output, ∀ typeScriptOutput, (threadsRequest typeScriptOutput).Makes workshop output := by
  have hparse : Source.Module.parse? Source.threadsModule.toJson.compact =
      some Source.threadsModule := Source.Module.parse?_compact (by decide)
  have hschema : Source.threadsModule.toSchema = .ok Source.threadsSchema := rfl
  have hcheck : Options.standard.check = .ok () := by decide
  obtain ⟨output, houtput⟩ := Output.exists_ofText hparse hschema hcheck
  have hlocate : workshop.locate ⟨"module.json"⟩ = .ok (some ["module.json"]) := by decide +kernel
  have hending : (Path.mk "module.json").ending = .name := by decide +kernel
  exact ⟨output, fun _ =>
    ⟨.standard, _, rfl, Disk.read_of_find hlocate rfl hending, houtput⟩⟩

/-- What the compilation of the module comes to. -/
def threadsRun (typeScriptOutput : Path) : Except Error String × Disk :=
  (Command.run (.compile (threadsRequest typeScriptOutput))).run.runOn workshop

theorem missing_workshop : workshop.root.find ["Port.elm"] = .error .missing := rfl

theorem grows_workshop (text : String) : workshop.Grows (workshop.put ["Port.elm"] (.file text)) :=
  .put (fun ⟨_, h⟩ => by simp [missing_workshop] at h) _

/-- The Elm module can be written. -/
theorem runOn_save_workshop (text : String) : (Plan.save ⟨"Port.elm"⟩ text).runOn workshop =
    (.ok (), workshop.put ["Port.elm"] (.file text)) := by
  have hwrite : workshop.write ⟨"Port.elm"⟩ text = .ok (workshop.put ["Port.elm"] (.file text)) :=
    Disk.write_of_find (by decide +kernel) (.inr missing_workshop) (by decide +kernel)
  exact Plan.runOn_save (by decide +kernel) (congrArg (Plan.answered workshop) hwrite)

/-- Both files are written, the one in the place of an older file. -/
theorem CompileRequest.outputs_of_run_workshop :
    let request := threadsRequest ⟨"Main.d.ts"⟩
    workshop.Settled ∧
      workshop.destination request.elmOutput ≠ workshop.destination request.typeScriptOutput ∧
      (∃ shown, (threadsRun ⟨"Main.d.ts"⟩).1 = .ok shown) ∧
      ∃ output, request.Makes workshop output ∧
        (threadsRun ⟨"Main.d.ts"⟩).2.fileAt ["Port.elm"] = some (.file output.elm) ∧
        (threadsRun ⟨"Main.d.ts"⟩).2.fileAt ["Main.d.ts"] = some (.file output.typeScript) ∧
        (threadsRun ⟨"Main.d.ts"⟩).2.fileAt ["web", "keep.txt"] = some (.file "kept\n") := by
  intro request
  obtain ⟨output, hmakes⟩ := exists_makes_threads
  have hsettled : workshop.Settled := ⟨_, rfl⟩
  have helm : workshop.destination ⟨"Port.elm"⟩ = ["Port.elm"] := by decide +kernel
  have htypeScript : workshop.destination ⟨"Main.d.ts"⟩ = ["Main.d.ts"] := by decide +kernel
  have hdistinct : workshop.destination ⟨"Port.elm"⟩ ≠ workshop.destination ⟨"Main.d.ts"⟩ := by
    rw [helm, htypeScript]
    decide
  have hwrite : (workshop.put ["Port.elm"] (.file output.elm)).write ⟨"Main.d.ts"⟩
      output.typeScript = .ok _ :=
    Disk.write_of_find ((grows_workshop output.elm).locate_eq_ok
      (show workshop.locate ⟨"Main.d.ts"⟩ = .ok (some ["Main.d.ts"]) by decide +kernel))
      (.inl ⟨"export \x7b\x7d", rfl⟩) (by decide +kernel)
  obtain ⟨hsucceeds, -, hreaches⟩ := outputs_of_run request hsettled hdistinct
  obtain ⟨shown, hrun⟩ := hreaches output _ _ (hmakes _) (runOn_save_workshop output.elm)
    (Plan.runOn_save (by decide +kernel) (congrArg (Plan.answered _) hwrite))
  have hshown : (threadsRun ⟨"Main.d.ts"⟩).1 = .ok shown := congrArg Prod.fst hrun
  obtain ⟨output, hmakes, hfirst, hsecond, hsame⟩ :=
    hsucceeds shown _ (hshown ▸ Plan.ends_runOn _ workshop)
  refine ⟨hsettled, hdistinct, ⟨shown, hshown⟩, output, hmakes, ?_, ?_, ?_⟩
  · have hfile := hfirst.fileAt_eq
    rwa [show workshop.destination request.elmOutput = _ from helm] at hfile
  · have hfile := hsecond.fileAt_eq
    rwa [show workshop.destination request.typeScriptOutput = _ from htypeScript] at hfile
  · refine hsame ["web", "keep.txt"] ?_ ?_
    · rw [show workshop.destination request.elmOutput = _ from helm]
      decide
    · rw [show workshop.destination request.typeScriptOutput = _ from htypeScript]
      decide

/-- **A failed compilation can leave one of its files behind**: where the declarations should go
there is a directory, and the Elm module is written nevertheless. -/
theorem halfWritten_workshop :
    (threadsRun ⟨"web"⟩).1 = .error (.file ⟨"web"⟩ .isADirectory) ∧
      workshop.fileAt ["Port.elm"] = none ∧
      ∃ output, (threadsRequest ⟨"web"⟩).Makes workshop output ∧
        (threadsRun ⟨"web"⟩).2.fileAt ["Port.elm"] = some (.file output.elm) := by
  obtain ⟨output, hmakes⟩ := exists_makes_threads
  have hlocate := (grows_workshop output.elm).locate_eq_ok
    (show workshop.locate ⟨"web"⟩ = .ok (some ["web"]) by decide +kernel)
  have hdirectory := (grows_workshop output.elm).directories ["web"] ⟨_, rfl⟩
  have hsave : (Plan.save ⟨"web"⟩ output.typeScript).runOn
      (workshop.put ["Port.elm"] (.file output.elm)) =
        (.error .isADirectory, workshop.put ["Port.elm"] (.file output.elm)) :=
    Plan.runOn_save (by decide +kernel)
      (congrArg (Plan.answered _) (Disk.write_of_directoryAt hlocate hdirectory))
  have hrun : threadsRun ⟨"web"⟩ =
      (.error (.file ⟨"web"⟩ .isADirectory), workshop.put ["Port.elm"] (.file output.elm)) := by
    refine (CompileRequest.runOn_run (hmakes _)).trans ?_
    exact (runOn_attempt_bind (runOn_save (runOn_save_workshop output.elm))).trans
      (runOn_attempt_bind_error (runOn_save hsave))
  rw [hrun]
  exact ⟨rfl, rfl, output, hmakes _, rfl⟩

end ElmWire.Command
