/-!
# Requests

What the arguments of the command line ask for. The directory of the project comes last or not at
all; options may come before or after it, and each of them once.
-/

namespace GoContracts

/-- What a command works on. -/
structure Target where
  /-- The directory of the project. -/
  path : String := "."
  /-- The file with the settings, if they are not to be looked for. -/
  settings? : Option String := none
  deriving DecidableEq, Repr

/-- What the user asks for. -/
inductive Request where
  | help
  | version
  /-- Compile the contracts; `verbose` asks for details. -/
  | generate (target : Target) (verbose : Bool)
  /-- Remove the generated files. -/
  | clean (target : Target)
  deriving DecidableEq, Repr

namespace Request

/-- What the request is about, unless it is about the program itself. -/
def target? : Request → Option Target
  | help | version => none
  | generate target _ | clean target => some target

/-- The arguments of a command that have been read. -/
structure Given where
  path? : Option String := none
  settings? : Option String := none
  verbose : Bool := false
  deriving DecidableEq, Repr

/-- Take a text as the value of something that has none yet. A value may not be empty. -/
def Given.fill (old? : Option String) (value : String) : Option (Option String) :=
  if old?.isSome || value = "" then none else some (some value)

/-- Take the directory of the project. -/
def Given.addPath (g : Given) (value : String) : Option Given :=
  (fill g.path? value).map fun path? => { g with path? }

/-- Take the file with the settings. -/
def Given.addSettings (g : Given) (value : String) : Option Given :=
  (fill g.settings? value).map fun settings? => { g with settings? }

/-- Take the wish for details, if the command knows it and it is new. -/
def Given.addVerbose (g : Given) (knows : Bool) : Option Given :=
  if knows && !g.verbose then some { g with verbose := true } else none

/-- What a cluster of short options says. -/
inductive Cluster where
  | given (g : Given)
  /-- The value of an option is the next argument. -/
  | awaitsSettings (g : Given)
  | help

/-- Read the letters of a cluster of short options. What follows an option that takes a value is
that value, after an equals sign or not. -/
def readCluster (knowsVerbose : Bool) (g : Given) : List Char → Option Cluster
  | [] => some (.given g)
  | 'h' :: _ => some .help
  | 'v' :: rest => do readCluster knowsVerbose (← g.addVerbose knowsVerbose) rest
  | ['c'] => if g.settings?.isSome then none else some (.awaitsSettings g)
  | 'c' :: '=' :: value => (g.addSettings (String.ofList value)).map .given
  | 'c' :: value => (g.addSettings (String.ofList value)).map .given
  | _ :: _ => none

/-- Whether an argument is an option and no value. -/
def isOption (argument : String) : Bool :=
  match argument.toList with
  | ['-'] => false
  | '-' :: _ => true
  | _ => false

/-- The value that an argument gives to the long option of the given name. -/
def valueOf? (name argument : String) : Option String :=
  let start := name.toList ++ ['=']
  if start.isPrefixOf argument.toList then
    some (String.ofList (argument.toList.drop start.length))
  else none

/-- Read the arguments of a command. The outcome is missing for a call for help. -/
def readArguments (knowsVerbose : Bool) (g : Given) : List String → Option (Option Given)
  | [] => some (some g)
  | "--" :: rest => (rest.foldlM Given.addPath g).map some
  | "--help" :: _ => some none
  | "--verbose" :: rest => do readArguments knowsVerbose (← g.addVerbose knowsVerbose) rest
  | "--config" :: rest =>
    match rest with
    | value :: rest =>
      if isOption value then none
      else do readArguments knowsVerbose (← g.addSettings value) rest
    | [] => none
  | argument :: rest =>
    match valueOf? "--config" argument with
    | some value => do readArguments knowsVerbose (← g.addSettings value) rest
    | none =>
      if argument.startsWith "--" then none
      else if isOption argument then
        match readCluster knowsVerbose g argument.toList.tail with
        | none => none
        | some .help => some none
        | some (.given g) => readArguments knowsVerbose g rest
        | some (.awaitsSettings g) =>
          match rest with
          | value :: rest =>
            if isOption value then none
            else do readArguments knowsVerbose (← g.addSettings value) rest
          | [] => none
      else do readArguments knowsVerbose (← g.addPath argument) rest

/-- The target of a command with the given arguments. -/
def Given.target (g : Given) : Target := { path := g.path?.getD ".", settings? := g.settings? }

/-- Whether a word names the command that compiles contracts. -/
def isGenerate (word : String) : Bool := word = "gen" || word = "generate"

/-- Read what follows the word for help: at most one command. -/
def readHelp : List String → Option Request
  | [] => some .help
  | [word] => if isGenerate word || word = "clean" || word = "help" then some .help else none
  | _ => none

/-- What the arguments ask for; none if they make no sense. -/
def parse : List String → Option Request
  | [] => none
  | word :: rest =>
    if isGenerate word then
      (readArguments true {} rest).map fun
        | some g => .generate g.target g.verbose
        | none => .help
    else if word = "clean" then
      (readArguments false {} rest).map fun
        | some g => .clean g.target
        | none => .help
    else if word = "help" then readHelp rest
    else if word = "--help" then some .help
    else if word = "--version" then some .version
    else
      match word.toList with
      | '-' :: 'h' :: _ => some .help
      | '-' :: 'V' :: _ => some .version
      | _ => none

end Request

end GoContracts
