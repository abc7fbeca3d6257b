import StackScript.Proofs.Fallible
import StackScript.Shell.System

/-!
# What commands do on a system

The report of a command follows from its plan: one that fails, one that writes a file and one that runs a program
(`perform?_of_failure`, `perform?_of_write`, `perform?_of_run`). This rests on how the actions of a console change a scene,
one equation for each action, and on what a run cannot do: it neither looks at the files nor at what was noted before
it (`steps_behind`).
-/

namespace StackScript
namespace Shell

/-! ### Scenes -/

/-- The scene with other files, behind the events `noted`. -/
def Scene.behind {σ : Type} (s : Scene σ) (files : σ) (noted : List Event) : Scene σ :=
  { s with files, events := s.events ++ noted.reverse }

theorem Process.report?_behind {σ : Type} (process : Process) (s : Scene σ) (files : σ) (noted : List Event) :
    process.report? (s.behind files noted) =
      (process.report? s).map fun r => { r with events := noted ++ r.events, files } := by
  cases process with
  | ended status => simp [report?, Scene.behind]
  | running p limits r => rfl

namespace System

variable {σ α β : Type} (sys : System σ) {env : String → Option String} {fuel : Nat} {args : List String} {files : σ}

/-! ### Actions -/

theorem run_bind (x : StateM (Scene σ) α) (f : α → StateM (Scene σ) β) (s : Scene σ) :
    (x >>= f).run s = (f (x.run s).1).run (x.run s).2 := rfl

theorem run_note (e : Event) (s : Scene σ) : (sys.console.note e).run s = ((), { s with events := e :: s.events }) := rfl

theorem run_forM_note (events : List Event) (s : Scene σ) :
    (events.forM sys.console.note).run s = ((), { s with events := events.reverse ++ s.events }) := by
  induction events generalizing s with
  | nil => rfl
  | cons e events ih =>
    show ((sys.console.note e >>= fun _ => events.forM sys.console.note)).run s = _
    rw [run_bind, run_note, ih]
    simp

theorem run_read (path : String) (s : Scene σ) : (sys.console.read path).run s = (sys.read path s.files, s) := rfl

/-- The events of a command up to its plan, given the contents of its file. -/
def planEvents (c : Command) (contents : Except FileError Bytes) : List Event := c.eventsBefore ++ c.eventsOf contents

/-- The part of a command that does not depend on which one it is: it notes events and reads its file in between. -/
theorem run_dispatch (env : String → Option String) (c : Command) (s : Scene σ) :
    (sys.console.dispatch env c).run s =
      (sys.console.follow (c.plan env (sys.read c.file s.files))).run
        { s with events := (planEvents c (sys.read c.file s.files)).reverse ++ s.events } := by
  rw [Console.dispatch, run_bind, run_forM_note, run_bind, run_read, run_bind, run_forM_note, planEvents,
    List.reverse_append, List.append_assoc]

/-- What starting a run comes to. -/
def launched (p : Program) (limits : Limits) (store : Store) : Process :=
  ((Run.start? limits store).map (Process.running p limits)).getD (.ended .aborted)

theorem run_print (text : String) (s : Scene σ) :
    (sys.console.print text).run s = ((), { s with output := s.output ++ text }) := rfl

theorem run_print_empty (s : Scene σ) : (sys.console.print "").run s = ((), s) := by
  rw [run_print, String.append_empty]

theorem run_follow_run (p : Program) (limits : Limits) (store : Store) (s : Scene σ) :
    (sys.console.follow (.ok { action := .run p limits store })).run s =
      (launched p limits store, { s with events := .run p.size :: s.events }) := by
  rw [Console.follow, Console.carryOut, run_bind, run_print_empty, launched]
  dsimp only
  cases Run.start? limits store with
  | none => rfl
  | some r => rfl

theorem run_follow_write {path : String} {bytes : Bytes} {s : Scene σ} {files' : σ}
    (h : sys.write path bytes s.files = (.ok (), files')) :
    (sys.console.follow (.ok { action := .write path bytes })).run s =
      (.ended .succeeded, { s with output := s.output ++ writtenText path bytes, files := files' }) := by
  have hwrite : (sys.console.write path bytes).run s = (.ok (), { s with files := files' }) := by
    show ((sys.write path bytes s.files).1, ({ s with files := (sys.write path bytes s.files).2 } : Scene σ)) = _
    rw [h]
  rw [Console.follow, Console.carryOut, run_bind, run_print_empty, run_bind, hwrite]
  rfl

/-! ### Runs -/

theorem display_behind (p : Program) (limits : Limits) (progress : Progress Store) (s : Scene σ) (noted : List Event) :
    (sys.console.display p limits progress).run (s.behind files noted) =
      (((sys.console.display p limits progress).run s).1,
        ((sys.console.display p limits progress).run s).2.behind files noted) := by
  cases progress with
  | running r => rfl
  | ended o =>
    simp only [Console.display]
    cases ending o.result with
    | ok text => rfl
    | error e => rfl

/-- A step of a run does not depend on the files or on what was noted before, and changes neither. -/
theorem step_behind (process : Process) (s : Scene σ) (noted : List Event) :
    (sys.console.step process).run (s.behind files noted) =
      (((sys.console.step process).run s).1, ((sys.console.step process).run s).2.behind files noted) := by
  cases process with
  | ended status => rfl
  | running p limits r =>
    simp only [Console.step]
    cases r.event? p limits with
    | none => exact sys.display_behind p limits _ s noted
    | some e => exact sys.display_behind p limits _ { s with events := e :: s.events } noted

theorem steps_behind (process : Process) (s : Scene σ) (noted : List Event) :
    (sys.console.steps fuel process).run (s.behind files noted) =
      (((sys.console.steps fuel process).run s).1, ((sys.console.steps fuel process).run s).2.behind files noted) := by
  induction fuel generalizing process s with
  | zero => rfl
  | succ fuel ih =>
    rw [Console.steps, run_bind, run_bind, step_behind, ih]

/-- What has ended takes no further step. -/
theorem run_steps_ended (status : Status) (s : Scene σ) :
    (sys.console.steps fuel (.ended status)).run s = (.ended status, s) := by
  induction fuel with
  | zero => rfl
  | succ fuel ih => rw [Console.steps, run_bind]; exact ih

/-- The report of a run by itself. -/
def runReport? (fuel : Nat) (files : σ) (p : Program) (limits : Limits) (store : Store) : Option (Report σ) :=
  let r := (sys.console.steps fuel (launched p limits store)).run { files, events := [.run p.size] }
  r.1.report? r.2

/-! ### Reports -/

section

variable {sys} {c : Command} (hparse : sys.parse args = .ok c)
include hparse

theorem perform?_of_follow {process : Process} {s : Scene σ}
    (hfollow : (sys.console.follow (c.plan env (sys.read c.file files))).run
      { files, events := (planEvents c (sys.read c.file files)).reverse } = (process, s)) :
    sys.perform? env fuel args files =
      ((sys.console.steps fuel process).run s).1.report? ((sys.console.steps fuel process).run s).2 := by
  have hperform : (sys.console.perform sys.parse env args).run { files } = (process, s) := by
    rw [Console.perform, hparse]
    refine (sys.run_dispatch env c _).trans ?_
    rw [List.append_nil]
    exact hfollow
  simp only [perform?, run_bind, hperform]

theorem perform?_of_failure {e : Failure} (hplan : c.plan env (sys.read c.file files) = .error e) :
    sys.perform? env fuel args files = some ⟨"", planEvents c (sys.read c.file files), .failed e, files⟩ := by
  rw [perform?_of_follow hparse (by rw [hplan]; rfl), run_steps_ended]
  simp [Process.report?]

theorem perform?_of_write {path : String} {bytes : Bytes} {files' : σ}
    (hplan : c.plan env (sys.read c.file files) = .ok { action := .write path bytes })
    (hwrite : sys.write path bytes files = (.ok (), files')) :
    sys.perform? env fuel args files =
      some ⟨writtenText path bytes, planEvents c (sys.read c.file files), .succeeded, files'⟩ := by
  rw [perform?_of_follow hparse (by rw [hplan, sys.run_follow_write hwrite]), run_steps_ended]
  simp [Process.report?]

/-- A run is reported behind the events of its command, and whatever the files are that it is on. -/
theorem perform?_of_run {p : Program} {limits : Limits} {store : Store} (others : σ)
    (hplan : c.plan env (sys.read c.file files) = .ok { action := .run p limits store }) :
    sys.perform? env fuel args files =
      (sys.runReport? fuel others p limits store).map fun r =>
        { r with events := planEvents c (sys.read c.file files) ++ r.events, files } := by
  rw [perform?_of_follow hparse (by rw [hplan, sys.run_follow_run])]
  have hscene : (⟨files, "", .run p.size :: (planEvents c (sys.read c.file files)).reverse⟩ : Scene σ) =
      ({ files := others, events := [.run p.size] } : Scene σ).behind files (planEvents c (sys.read c.file files)) := rfl
  rw [hscene, steps_behind]
  exact Process.report?_behind _ _ _ _

end

end System
end Shell
end StackScript
