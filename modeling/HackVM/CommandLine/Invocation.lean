import HackVM.Program
import HackVM.Text.Pieces

/-! # Command-line arguments

Words are read from left to right. An option takes its value from the same word or from the next one; a
value is checked only when the next argument begins, or at the end. So an argument that is wrong in
itself is told before the value in front of it, and any other argument after it.
-/

namespace HackVM

/-- Why the reading of arguments stops before there is anything to do. -/
inductive Stop where
  | help
  | version
  | unknownArgument
  | invalidValue
  | tooManyValues
  | argumentConflict
  | missingInput
deriving DecidableEq, Repr

/-- The exit code: asking for help is no error. -/
def Stop.exitCode : Stop → Nat
  | help | version => 0
  | _ => 2

/-- What the arguments ask for. -/
structure Invocation where
  input : String
  output : Option String := none
  bootstrap : BootstrapMode := .auto
  entry : String := "Sys.init"
  noComments : Bool := false
  logLevel : String := "warn"
deriving DecidableEq, Repr

namespace Invocation

/-- An option with a value. -/
inductive Setting where
  | output
  | bootstrap
  | entry
  | logLevel
deriving DecidableEq, Repr

/-- An option. -/
inductive Opt where
  | setting (setting : Setting)
  | noComments
  | help
  | version
deriving DecidableEq, Repr

/-- The option with a long name. -/
def Opt.ofName? : String → Option Opt
  | "output" => some (.setting .output)
  | "bootstrap" => some (.setting .bootstrap)
  | "entry" => some (.setting .entry)
  | "log-level" => some (.setting .logLevel)
  | "no-comments" => some .noComments
  | "help" => some .help
  | "version" => some .version
  | _ => none

/-- The option with a short name. -/
def Opt.ofLetter? : Char → Option Opt
  | 'o' => some (.setting .output)
  | 'h' => some .help
  | 'V' => some .version
  | _ => none

/-- An argument whose value has not been checked yet, if it has come at all. -/
inductive Pending where
  | input (path : String)
  | setting (setting : Setting) (value : Option String)
deriving DecidableEq, Repr

/-- What has been read so far. -/
structure Progress where
  input : Option String := none
  output : Option String := none
  bootstrap : Option BootstrapMode := none
  entry : Option String := none
  noComments : Bool := false
  logLevel : Option String := none
  pending : Option Pending := none
  inputSeen : Bool := false
  literal : Bool := false
deriving DecidableEq, Repr

namespace Progress

/-- A path, which has at least one character. -/
def path (value : String) : Except Stop String :=
  if value.isEmpty then .error .invalidValue else .ok value

/-- Fill a field that has not been filled before. -/
def fill {α : Type} (field : Option α) (value : Except Stop α) : Except Stop (Option α) :=
  if field.isSome then .error .argumentConflict else some <$> value

/-- Set an option to a value. -/
def assign (progress : Progress) (setting : Setting) (value : String) : Except Stop Progress :=
  match setting with
  | .output => do return { progress with output := ← fill progress.output (path value) }
  | .bootstrap => do
    let mode : Except Stop BootstrapMode := match BootstrapMode.ofName? value with
      | some mode => .ok mode
      | none => .error .invalidValue
    return { progress with bootstrap := ← fill progress.bootstrap mode }
  | .entry => do return { progress with entry := ← fill progress.entry (.ok value) }
  | .logLevel => do return { progress with logLevel := ← fill progress.logLevel (.ok value) }

/-- Check the pending value. -/
def settle (progress : Progress) : Except Stop Progress :=
  let settled := { progress with pending := none }
  match progress.pending with
  | none => .ok settled
  | some (.setting _ none) => .error .invalidValue
  | some (.setting setting (some value)) => settled.assign setting value
  | some (.input value) => do return { settled with input := some (← path value) }

/-- Read an option, with the value that stands in the same word, if any. -/
def option (progress : Progress) (attached : Option String) : Opt → Except Stop Progress
  | .setting setting => do
    let progress ← progress.settle
    match attached with
    | some value => progress.assign setting value
    | none => return { progress with pending := some (.setting setting none) }
  | flag =>
    if attached.isSome then .error .tooManyValues
    else do
      let progress ← progress.settle
      match flag with
      | .help => throw .help
      | .version => throw .version
      | _ =>
        if progress.noComments then throw .argumentConflict
        else return { progress with noComments := true }

/-- Read an argument that is not an option. There is one at most. -/
def positional (progress : Progress) (word : String) : Except Stop Progress :=
  if progress.inputSeen then .error .unknownArgument
  else do
    let progress ← progress.settle
    return { progress with pending := some (.input word), inputSeen := true }

/-- Read what follows two hyphens: a name, and perhaps a value after an equals sign. -/
def long (progress : Progress) (text : List Char) : Except Stop Progress :=
  let (name, attached) := match Text.cut? '=' text with
    | some (name, value) => (name, some (String.ofList value))
    | none => (text, none)
  match Opt.ofName? (String.ofList name) with
  | some opt => progress.option attached opt
  | none => .error .unknownArgument

/-- Read what follows one hyphen: a letter and, for an option with a value, perhaps the value. A flag of this kind
ends the reading. -/
def short (progress : Progress) (letter : Char) (rest : List Char) : Except Stop Progress :=
  match Opt.ofLetter? letter with
  | none => .error .unknownArgument
  | some (.setting setting) =>
    let attached := match rest with
      | [] => none
      | '=' :: value => some value
      | value => some value
    progress.option (attached.map String.ofList) (.setting setting)
  | some flag => progress.option none flag

/-- Read the next word. -/
def word (progress : Progress) (word : String) : Except Stop Progress :=
  if progress.literal then progress.positional word
  else
    match word.toList with
    | ['-', '-'] => .ok { progress with literal := true }
    | '-' :: '-' :: text => progress.long text
    | '-' :: letter :: rest => progress.short letter rest
    | _ =>
      match progress.pending with
      | some (.setting setting none) =>
        .ok { progress with pending := some (.setting setting (some word)) }
      | _ => progress.positional word

/-- What has been asked for once all words are read. -/
def finish (progress : Progress) : Except Stop Invocation := do
  let progress ← progress.settle
  match progress.input with
  | none => throw .missingInput
  | some input =>
    return {
      input
      output := progress.output
      bootstrap := progress.bootstrap.getD .auto
      entry := progress.entry.getD "Sys.init"
      noComments := progress.noComments
      logLevel := progress.logLevel.getD "warn" }

end Progress

/-- Read the arguments of a command line. -/
def ofWords (words : List String) : Except Stop Invocation := do
  let progress ← words.foldlM Progress.word {}
  progress.finish

/-- How the invocation wants its program put together. -/
def buildOptions (invocation : Invocation) : BuildOptions where
  bootstrap := invocation.bootstrap
  entry := invocation.entry
  annotate := !invocation.noComments

end Invocation

end HackVM
