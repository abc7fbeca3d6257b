import StackScript.Proofs.Binary.Compiled
import StackScript.Proofs.Shell.Arguments
import StackScript.Proofs.Shell.Folder
import StackScript.Proofs.Shell.System

/-!
# Running what was built

A script can be run as it is, or be built and then run from its binary form. Main statement
(`exec_after_build_eq_run`): on a system that takes the names of the two files for names and gives back what was written,
both ways show the same and end the same, for all options and every environment; and they log the same, except that
only the first way compiles the script. A script that does not compile fails to build the way it fails to run, and
nothing is written. Without these conditions the two ways differ (`exec_after_build_ne_run`).

A run starts from the program, its limits and its store. The options and the environment give both ways the same
limits and the same store, so what is left to show is that the program that is read back is the one
that was written.
-/

namespace StackScript
namespace Shell

variable {file output : String} {bytes : Bytes} {script : String} {p : Program}

/-! ### Programs in files -/

theorem utf8ByteSize_of_decodeText (h : decodeText bytes = .ok script) : script.utf8ByteSize = bytes.length := by
  unfold decodeText at h
  split at h
  · next s hs =>
    cases h
    have hbytes : script.toByteArray.size = (ByteArray.mk bytes.toArray).size := by
      rw [Binary.toByteArray_of_fromUTF8? hs]
    exact hbytes
  · cases h

theorem decodeText_toByteArray (s : String) : decodeText s.toByteArray.data.toList = .ok s := by
  rw [decodeText, Binary.fromUTF8?_toByteArray]

theorem compileFile_of_text (file : String) (h : decodeText bytes = .ok script) :
    compileFile file (.ok bytes) =
      (Program.compile .standard script).mapError fun e => .uncompilable file e (reportedLine? script e) := by
  have hcontents : (Except.ok bytes : Except FileError Bytes).bind decodeText = .ok script := h
  rw [compileFile, hcontents]
  rfl

/-- The program of a script is read back from the file that it was written to. -/
theorem decodeFile_encode (file : String) (htext : decodeText bytes = .ok script) (hsize : bytes.length < 2 ^ 64)
    (h : Program.compile .standard script = .ok p) : decodeFile file (.ok p.encode) = .ok p := by
  have hstorable := storable_of_compile h (by rwa [utf8ByteSize_of_decodeText htext])
  show (Program.decode p.encode).mapError _ = .ok p
  rw [Program.decode_encode hstorable]
  rfl

/-- Only `exec` does not compile its file. -/
theorem Command.plan_of_compileFile_error {c : Command} (hc : c.file = file) (hexec : ∀ o, c ≠ .exec file o)
    {env : String → Option String} {contents : Except FileError Bytes} {e : Failure}
    (h : compileFile file contents = .error e) : c.plan env contents = .error e := by
  subst hc
  cases c with
  | exec file o => exact absurd rfl (hexec o)
  | _ =>
    simp only [Command.plan, Command.file] at h ⊢
    rw [h]
    rfl

/-! ### Systems -/

namespace System

variable {σ : Type} {sys : System σ} {env : String → Option String} {args : List String} {files files' : σ}
  {o : RunOptions} {fuel : Nat}

/-- The arguments are read as documented as far as the two files go: `build` takes the first as its file and the second
as its output, and the options that `run` takes after the first file, `exec` takes after the second. -/
structure TakesFiles (sys : System σ) (file output : String) : Prop where
  build : sys.parse ["build", file, "-o", output] = .ok (.build file (some output))
  exec : ∀ {args o}, sys.parse ("run" :: file :: args) = .ok (.run file false o) →
    sys.parse ("exec" :: output :: args) = .ok (.exec output o)

/-- Writing to a path succeeds, and what was written is read back. -/
def Keeps (sys : System σ) (path : String) (files : σ) : Prop :=
  ∀ bytes, ∃ files', sys.write path bytes files = (.ok (), files') ∧ sys.read path files' = .ok bytes

/-- Writing to a path leaves the contents of another file. -/
def Spares (sys : System σ) (path other : String) (files : σ) : Prop :=
  ∀ {bytes contents files'}, sys.write path bytes files = (.ok (), files') → sys.read other files = .ok contents →
    sys.read other files' = .ok contents

/-- The log writes nothing. -/
def Silent (sys : System σ) (env : String → Option String) : Prop := ∀ n e, sys.log env n e = ""

theorem Silent.logText_eq (h : sys.Silent env) (n : Nat) (events : List Event) : sys.logText env n events = "" := by
  induction events generalizing n with
  | nil => rfl
  | cons e events ih => rw [logText, h, ih, String.empty_append]

theorem Silent.seen_eq (h : sys.Silent env) (r : Report σ) (events : List Event) :
    sys.seen env { r with events, files } = sys.seen env r := by
  simp only [seen, errors, h.logText_eq]

/-- The events of reading and compiling a script. -/
def scriptEvents (file script : String) : List Event := nameEvents file ++ Program.compileEvents .standard script

/-- Running a program from its binary form notes nothing before the run. -/
theorem perform?_exec (others : σ) (hparse : sys.parse args = .ok (.exec file o))
    (hread : sys.read file files = .ok bytes) (hdecode : decodeFile file (.ok bytes) = .ok p) :
    sys.perform? env fuel args files =
      (sys.runReport? fuel others p (o.limits env) o.store).map fun r => { r with files } := by
  refine perform?_of_run hparse others ?_
  simp only [Command.plan, Command.file, hread, hdecode]
  rfl

section Script

variable (hread : sys.read file files = .ok bytes) (htext : decodeText bytes = .ok script)
include hread htext

theorem planEvents_of_text {c : Command} (hc : c.file = file) (hexec : ∀ o, c ≠ .exec file o) :
    planEvents c (sys.read c.file files) = scriptEvents file script := by
  have hcontents : contentsEvents (.ok bytes) = Program.compileEvents .standard script := by
    have htext' : (Except.ok bytes : Except FileError Bytes).bind decodeText = .ok script := htext
    rw [contentsEvents, htext']
  subst hc
  rw [hread]
  cases c with
  | exec file o => exact absurd rfl (hexec o)
  | _ => exact congrArg (_ ++ ·) hcontents

/-- Running a script notes what compiling it notes, and then what the run notes. -/
theorem perform?_run (others : σ) (hparse : sys.parse args = .ok (.run file false o))
    (hcompile : Program.compile .standard script = .ok p) :
    sys.perform? env fuel args files =
      (sys.runReport? fuel others p (o.limits env) o.store).map fun r =>
        { r with events := scriptEvents file script ++ r.events, files } := by
  rw [← planEvents_of_text hread htext (c := .run file false o) rfl (by simp)]
  refine perform?_of_run hparse others ?_
  simp only [Command.plan, Command.file, hread, compileFile_of_text file htext, hcompile]
  rfl

theorem perform?_build (hparse : sys.parse args = .ok (.build file (some output)))
    (hcompile : Program.compile .standard script = .ok p) (hwrite : sys.write output p.encode files = (.ok (), files')) :
    sys.perform? env fuel args files =
      some ⟨writtenText output p.encode, scriptEvents file script, .succeeded, files'⟩ := by
  rw [← planEvents_of_text hread htext (c := .build file (some output)) rfl (by simp)]
  refine perform?_of_write hparse ?_ hwrite
  simp only [Command.plan, Command.file, hread, compileFile_of_text file htext, hcompile]
  rfl

/-- A script that does not compile is refused alike by all commands that compile it, and nothing is written. -/
theorem perform?_of_uncompilable {c : Command} (hparse : sys.parse args = .ok c) (hc : c.file = file)
    (hexec : ∀ o, c ≠ .exec file o) {e : CompileError} (hcompile : Program.compile .standard script = .error e) :
    sys.perform? env fuel args files =
      some ⟨"", scriptEvents file script, .failed (.uncompilable file e (reportedLine? script e)), files⟩ := by
  rw [← planEvents_of_text hread htext hc hexec]
  refine perform?_of_failure hparse ?_
  rw [hc, hread]
  apply Command.plan_of_compileFile_error hc hexec
  rw [compileFile_of_text file htext, hcompile]
  rfl

end Script

/-- Let a file hold a script, of a size that fits a word, on a system that takes the names of this file and of an output
for names and keeps what is written to the output, and let `run` take some options after the file without being asked for
a listing. If the script compiles, then `build` writes its binary form to the output, and from there `exec` with
these options does what `run` does with the script: it shows the same and ends the same, if it ends, and it notes what
`run` notes after compiling; where the log is silent, the error output is the same too. The script can still be run as
before, if writing the output spares its file. If the script does not compile, `build` fails as `run` does, notes the
same and writes nothing. -/
theorem exec_after_build_eq_run (sys : System σ) (env : String → Option String) (hnames : sys.TakesFiles file output)
    (hargs : sys.parse ("run" :: file :: args) = .ok (.run file false o)) (hread : sys.read file files = .ok bytes)
    (htext : decodeText bytes = .ok script) (hsize : bytes.length < 2 ^ 64) (hkeeps : sys.Keeps output files) :
    (∀ p, Program.compile .standard script = .ok p → ∃ files',
        (∀ fuel, sys.perform? env fuel ["build", file, "-o", output] files =
          some ⟨writtenText output p.encode, scriptEvents file script, .succeeded, files'⟩) ∧
        (∀ fuel, sys.perform? env fuel ("run" :: file :: args) files =
          (sys.perform? env fuel ("exec" :: output :: args) files').map fun r =>
            { r with events := scriptEvents file script ++ r.events, files }) ∧
        (sys.Silent env → ∀ fuel, (sys.perform? env fuel ("exec" :: output :: args) files').map (sys.seen env) =
          (sys.perform? env fuel ("run" :: file :: args) files).map (sys.seen env)) ∧
        (sys.Spares output file files → ∀ fuel, sys.perform? env fuel ("run" :: file :: args) files' =
          (sys.perform? env fuel ("run" :: file :: args) files).map ({ · with files := files' }))) ∧
      ∀ e, Program.compile .standard script = .error e → ∃ failure,
        (∀ fuel, sys.perform? env fuel ["build", file, "-o", output] files =
          some ⟨"", scriptEvents file script, .failed failure, files⟩) ∧
        ∀ fuel, sys.perform? env fuel ("run" :: file :: args) files =
          some ⟨"", scriptEvents file script, .failed failure, files⟩ := by
  refine ⟨fun p hcompile => ?_, fun e hcompile => ⟨.uncompilable file e (reportedLine? script e), ?_, ?_⟩⟩
  · obtain ⟨files', hwrite, hback⟩ := hkeeps p.encode
    have hexec : ∀ fuel, sys.perform? env fuel ("exec" :: output :: args) files' =
        (sys.runReport? fuel files p (o.limits env) o.store).map fun r => { r with files := files' } := fun fuel =>
      perform?_exec files (hnames.exec hargs) hback (decodeFile_encode output htext hsize hcompile)
    have hrun : ∀ fuel, sys.perform? env fuel ("run" :: file :: args) files =
        (sys.perform? env fuel ("exec" :: output :: args) files').map fun r =>
          { r with events := scriptEvents file script ++ r.events, files } := by
      intro fuel
      rw [hexec, perform?_run hread htext files hargs hcompile, Option.map_map]
      rfl
    refine ⟨files', fun fuel => perform?_build hread htext hnames.build hcompile hwrite, hrun, ?_, ?_⟩
    · intro hsilent fuel
      rw [hrun, Option.map_map]
      exact congrArg (Option.map · _) (funext fun r => (hsilent.seen_eq r _).symm)
    · intro hspares fuel
      have hread' := hspares hwrite hread
      rw [perform?_run hread' htext files hargs hcompile, perform?_run hread htext files hargs hcompile,
        Option.map_map]
      rfl
  · exact fun fuel => perform?_of_uncompilable hread htext hnames.build rfl (by simp) hcompile
  · exact fun fuel => perform?_of_uncompilable hread htext hargs rfl (by simp) hcompile

end System

/-! ### Folders -/

namespace Folder

variable {f : Folder} {path : String}

/-- On a folder, names that do not look like options are taken for names. -/
theorem takesFiles_system (hfile : looksLikeOption file = false) (hne : file ≠ "")
    (houtput : looksLikeOption output = false) (hne' : output ≠ "") : system.TakesFiles file output where
  build := Command.parse_eq_ok_iff.mpr (Request.parse_build hfile hne houtput hne')
  exec := by
    intro args o h
    exact Command.parse_eq_ok_iff.mpr (Request.parse_exec hfile houtput hne' (Command.parse_eq_ok_iff.mp h))

/-- A folder keeps what is written anywhere but to the null device. -/
theorem keeps_system (hwritable : f.Writable path) (hdevice : ¬f.LeadsTo path nullDevice) : system.Keeps path f := by
  intro bytes
  obtain ⟨g, hwrite⟩ := hwritable.write bytes
  refine ⟨g, ?_, read_write hwrite hdevice⟩
  simp only [system, hwrite]

theorem spares_system {other : String} (h : ¬f.SameFile other path) : system.Spares path other f := by
  intro bytes contents g hwrite hread
  simp only [system] at hwrite
  split at hwrite
  · next g' hg =>
    cases hwrite
    exact read_write_of_not_sameFile hg h hread
  · cases hwrite

/-- No event matters enough to be written unless the environment asks for it. -/
theorem silent_system {env : String → Option String} (h : env Log.variableName = none) : system.Silent env := by
  intro n e
  have hthreshold : Log.threshold env = .warn := by
    rw [Log.threshold, h]
    rfl
  show Log.line env e = ""
  rw [Log.line, hthreshold]
  cases e <;> rfl

end Folder

section

open Folder

/-- A script in a folder inside, with a variable that the options set and a fault on its second line. The script is
run from its binary form, and after that as it is. -/
theorem exec_after_build_eq_run_fault :
    let script := "mov out, n\npop $x"
    let f := ({} : Folder).add "in/t.ms" script.toByteArray.data.toList
    let env := fun _ => none
    let seen := some ("ab\n", "error: runtime error: at instruction 1 (line 2): data stack underflow\n", 1)
    ∃ g, (system.perform? env 9 ["build", "in/t.ms", "-o", "in/t.msc"] f).map (·.files) = some g ∧
      (system.perform? env 9 ["exec", "in/t.msc", "--var", "n=ab"] g).map (system.seen env) = seen ∧
      (system.perform? env 9 ["run", "in/t.ms", "--var", "n=ab"] g).map (system.seen env) = seen := by
  intro script f env seen
  have hread : system.read "in/t.ms" f = .ok script.toByteArray.data.toList :=
    Fallible.toOption_eq_some_iff.mp (by decide +kernel)
  have hwritable : f.Writable "in/t.msc" := by
    obtain ⟨g, hg⟩ := Option.isSome_iff_exists.mp (show (f.write "in/t.msc" []).toOption.isSome by decide +kernel)
    exact ⟨[], g, Fallible.toOption_eq_some_iff.mp hg⟩
  have hscript : f.LeadsTo "in/t.ms" ["in", "t.ms"] :=
    ⟨⟨["in"], "t.ms", Fallible.toOption_eq_some_iff.mp (by decide +kernel), rfl, rfl⟩, by decide⟩
  have houtput : f.LeadsTo "in/t.msc" ["in", "t.msc"] :=
    ⟨⟨["in"], "t.msc", Fallible.toOption_eq_some_iff.mp (by decide +kernel), rfl, rfl⟩, by decide⟩
  have hdevice : ¬f.LeadsTo "in/t.msc" nullDevice := fun h => absurd (houtput.unique h) (by decide)
  have hother : ¬f.SameFile "in/t.ms" "in/t.msc" := by
    rintro ⟨place, place', hplace, hplace', hname⟩
    rw [← hscript.unique hplace, ← houtput.unique hplace'] at hname
    exact absurd hname (by decide)
  have hargs : system.parse ["run", "in/t.ms", "--var", "n=ab"] =
      .ok (.run "in/t.ms" false { bindings := [("n", .string "ab")] }) :=
    Fallible.toOption_eq_some_iff.mp (by decide +kernel)
  have hcompile : Program.compile .standard script =
      .ok ⟨#[.move (.direct "out") (.direct "n"), .pop (.register "x")], #[1, 2]⟩ :=
    Fallible.toOption_eq_some_iff.mp (by decide +kernel)
  obtain ⟨g, hbuild, hrun, hexec, hagain⟩ := (System.exec_after_build_eq_run system env
    (takesFiles_system (by decide) (by decide) (by decide) (by decide)) hargs hread (decodeText_toByteArray script)
    (by decide +kernel) (keeps_system hwritable hdevice)).1 _ hcompile
  have hseen : (system.perform? env 9 ["run", "in/t.ms", "--var", "n=ab"] f).map (system.seen env) = seen := by
    decide +kernel
  refine ⟨g, by rw [hbuild]; rfl, (hexec (silent_system rfl) 9).trans hseen, ?_⟩
  rw [hagain (spares_system hother), Option.map_map]
  exact hseen

/-- The conditions are needed. The null device can be written, but what was written is not read back. Where the
environment asks for a log, compiling shows in it. And an output whose name looks like an option is not taken for
one. -/
theorem exec_after_build_ne_run :
    let f := ({} : Folder).add "t.ms" "push #1".toByteArray.data.toList
    let quiet : String → Option String := fun _ => none
    let verbose := fun name => if name = Log.variableName then some "debug" else none
    let build env output := system.perform? env 9 ["build", "t.ms", "-o", output] f
    let exec env output := (build env output).bind fun r =>
      (system.perform? env 9 ["exec", output] r.files).map (system.seen env)
    let run env := (system.perform? env 9 ["run", "t.ms"] f).map (system.seen env)
    ((build quiet "/dev/null").map (system.seen quiet) = some ("wrote /dev/null (14 bytes)\n", "", 0) ∧
      exec quiet "/dev/null" = some ("", "error: '/dev/null' is not a compiled stream: " ++
        "Hit the end of buffer, expected more data\n", 1) ∧
      run quiet = some ("1\n", "", 0)) ∧
      (exec verbose "t.msc" = some ("1\n", "DEBUG halted steps=1 has_result=true ok=true\n", 0) ∧
        run verbose = some ("1\n", "DEBUG compiled instructions=1 labels=0\n" ++
          "DEBUG halted steps=1 has_result=true ok=true\n", 0)) ∧
      (f.write "-x" []).toOption.isSome = true ∧ (build quiet "-x").map (·.status.exitCode) = some 2 := by
  decide +kernel

end

end Shell
end StackScript
