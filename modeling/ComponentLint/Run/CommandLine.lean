import ComponentLint.Run.Lint

/-! The command line: its words, what they ask for, and what is printed. -/
namespace ComponentLint

inductive Command where
  | version
  | lint (args : LintArgs)
deriving DecidableEq, Repr, Inhabited

structure Answer where
  exitCode : Nat
  stdout : Text := []
  stderr : Text := []
deriving DecidableEq, Repr, Inhabited

inductive ValueOption where
  | project
  | config
  | format
deriving DecidableEq, Repr, Inhabited

namespace ValueOption

/-- The names of an option, with a letter of its own. -/
def names : List (ValueOption × Text × Char) :=
  [(project, "project".toList, 'p'), (config, "config".toList, 'c'), (format, "format".toList, 'f')]

/-- The value that a word has behind an option's name or letter; none where the next word is the value. -/
def inWord? (word : Text) (name : ValueOption × Text × Char) : Option (ValueOption × Option Text) :=
  let (option, long, letter) := name
  match Text.after? ("--".toList ++ long) word, Text.after? ['-', letter] word with
  | some [], _ => some (option, none)
  | some ('=' :: value), _ => some (option, some value)
  | _, some [] => some (option, none)
  | _, some ('=' :: value) => some (option, some value)
  | _, some value => some (option, some value)
  | _, none => none

/-- The option that a word names. -/
def ofWord? (word : Text) : Option (ValueOption × Option Text) := names.findSome? (inWord? word)

def give (option : ValueOption) (value : Text) (a : LintArgs) : Except String LintArgs :=
  match option with
  | project => .ok { a with project := ⟨value⟩ }
  | config => .ok { a with config := some ⟨value⟩ }
  | format =>
    match ReportFormat.ofName? (String.ofList value) with
    | some f => .ok { a with format := f }
    | none => .error (ReportFormat.unknown (String.ofList value))

end ValueOption

namespace Command

def programName : String := "vernis"

def programVersion : String := "0.3.0"

def addPattern (word : Text) (a : LintArgs) : LintArgs := { a with patterns := a.patterns ++ [word] }

def isOption (word : Text) : Bool := word.head? = some '-' && 1 < word.length

/-- A switch by its word. -/
def switch? (word : Text) (a : LintArgs) : Option LintArgs :=
  match String.ofList word with
  | "--no-fix" => some { a with noFix := true }
  | "--force" => some { a with force := true }
  | "--silent" => some { a with silent := true }
  | _ => none

/-- Reads the words behind `lint`, where `waiting` takes the next one. -/
def lintArgs (a : LintArgs) (waiting : Option ValueOption) : List Text → Except String LintArgs
  | [] => if waiting.isSome then .error "a value is required" else .ok a
  | word :: rest =>
    match waiting with
    | some option => do lintArgs (← option.give word a) none rest
    | none =>
      if word = "--".toList then .ok (rest.foldl (fun a word => addPattern word a) a)
      else if !isOption word then lintArgs (addPattern word a) none rest
      else
        match switch? word a, ValueOption.ofWord? word with
        | some a, _ => lintArgs a none rest
        | none, some (option, none) => lintArgs a (some option) rest
        | none, some (option, some value) => do lintArgs (← option.give value a) none rest
        | none, none => .error s!"unexpected argument '{String.ofList word}' found"

def ofWords : List Text → Except String Command
  | [] => .error "a command is required"
  | word :: rest =>
    match String.ofList word with
    | "lint" => .lint <$> lintArgs {} none rest
    | "--version" => .ok .version
    | "-V" => .ok .version
    | other => .error s!"unrecognized subcommand '{other}'"

/-- What is said of something that keeps a command from running. -/
def complaint (message : String) : Answer := { exitCode := 2, stderr := s!"error: {message}\n".toList }

def run (c : Command) (tree : FileTree) (cwd : Path) (parse : TypeScript.Parsing := TypeScript.Module.ofText) :
    Answer × FileTree :=
  match c with
  | version => ({ exitCode := 0, stdout := s!"{programName} {programVersion}\n".toList }, tree)
  | lint args =>
    match args.run tree cwd parse with
    | (.error f, tree) => (complaint f.message, tree)
    | (.ok result, tree) => ({ exitCode := result.exitCode, stdout := result.output }, tree)

def runWords (words : List Text) (tree : FileTree) (cwd : Path) : Answer × FileTree :=
  match ofWords words with
  | .error message => (complaint message, tree)
  | .ok c => c.run tree cwd

end Command

end ComponentLint
