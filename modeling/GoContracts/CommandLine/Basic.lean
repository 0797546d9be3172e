import GoContracts.CommandLine.Request
import GoContracts.Engine.Session

/-!
# The command line

Carries out what the arguments ask for on a disk, and says what to print.
-/

namespace GoContracts

/-- What a command leaves behind. -/
structure Outcome where
  exitCode : Nat
  /-- The lines of standard output. -/
  output : List String := []
  /-- The failure that ended the command. -/
  failure? : Option Failure := none
  /-- What has been reported, in order. -/
  reports : List Diagnostic := []
  disk : Disk

namespace CommandLine

/-- The version of the program. -/
def versionText : String := "inco 0.1.0"

/-- The exit code of a command that fails and of arguments that make no sense. -/
def failureCode : Nat := 2

/-- A summary of the arguments. -/
def helpText : List String :=
  ["Contract directives for Go, compiled into build overlays", "",
   "Usage: inco gen [--config FILE] [--verbose] [PATH]",
   "       inco clean [--config FILE] [PATH]",
   "       inco --version"]

/-- The engine for a target. -/
def engineFor (disk : Disk) (target : Target) : Except Failure Engine :=
  match target.settings? with
  | some path => do Engine.withSettings disk target.path (← Settings.load disk path)
  | none => Engine.discover disk target.path

/-- Carry out a step of the engine for a target and print what it yields. -/
def carryOut {α : Type} (disk : Disk) (target : Target) (act : Session.Action α)
    (print : Engine → α → List String) : Outcome :=
  match engineFor disk target with
  | .error failure => { exitCode := failureCode, failure? := some failure, disk }
  | .ok engine =>
    let (result, after) := act (Session.start engine disk)
    let outcome : Outcome := { exitCode := 0, reports := after.reports, disk := after.disk }
    match result with
    | .ok a => { outcome with output := print after.engine a }
    | .error failure => { outcome with exitCode := failureCode, failure? := some failure }

/-- What is printed after contracts have been compiled. -/
def generated (engine : Engine) (manifest : Manifest) : List String :=
  if manifest.isEmpty then ["inco: no contracts found"]
  else
    ["inco: overlay written to " ++ engine.manifestPath ++ " (" ++ toString manifest.size ++
      " file(s) mapped)"]

/-- What is printed after generated files have been removed, or if there were none. -/
def cleaned (engine : Engine) (removed : Bool) : List String :=
  if removed then ["inco: removed " ++ engine.cacheDirectory] else ["inco: nothing to clean"]

/-- Carry out a request. -/
def perform (disk : Disk) : Request → Outcome
  | .help => { exitCode := 0, output := helpText, disk }
  | .version => { exitCode := 0, output := [versionText], disk }
  | .generate target _ => carryOut disk target Session.run generated
  | .clean target => carryOut disk target Session.clean cleaned

/-- Carry out what the arguments ask for. -/
def run (disk : Disk) (arguments : List String) : Outcome :=
  match Request.parse arguments with
  | some request => perform disk request
  | none => { exitCode := failureCode, disk }

end CommandLine

end GoContracts
