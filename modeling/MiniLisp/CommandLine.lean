import MiniLisp.Session
import MiniLisp.Settings

/-!
# The command line

The arguments are first sorted into items (`items`), whatever command they belong to; then `parse?` finds the command and its
options. Options may stand before the command and behind it, and behind it they win. `Invocation.perform` does what was asked
for, given the contents of files.
-/

namespace MiniLisp.CommandLine

/-! ## Arguments -/

/-- What can be done. -/
inductive Verb where
  | run | expand | read | listPrimitives
  deriving DecidableEq, Repr

namespace Verb

def name : Verb → String
  | .run => "run"
  | .expand => "expand"
  | .read => "read"
  | .listPrimitives => "list-atoms"

def all : List Verb := [.run, .expand, .read, .listPrimitives]

/-- The verb with a name. -/
def ofName? (name : String) : Option Verb := all.find? (·.name == name)

/-- Every verb is found under its name. -/
theorem ofName?_name (v : Verb) : ofName? v.name = some v := by cases v <;> decide

/-- What the verb does, in a sentence. -/
def about : Verb → String
  | .run => "Read, expand and evaluate a script; print the last value unless nil"
  | .expand => "Print every top-level form after macro expansion"
  | .read => "Print every top-level form as read, without expanding or evaluating"
  | .listPrimitives => "List all available atoms"

end Verb

/-- A verb with the file it is about. -/
inductive Command where
  | run (file : String)
  | expand (file : String)
  | read (file : String)
  | listPrimitives
  deriving DecidableEq, Repr

/-- The command that a verb and a file make, if the verb needs the one that is there. -/
def Verb.command? : Verb → Option String → Option Command
  | .run, some file => some (.run file)
  | .expand, some file => some (.expand file)
  | .read, some file => some (.read file)
  | .listPrimitives, none => some .listPrimitives
  | _, _ => none

/-- The options that have a value. -/
inductive ValueOption where
  | config | maxDepth | stackMebibytes
  deriving DecidableEq, Repr

namespace ValueOption

def name : ValueOption → String
  | .config => "config"
  | .maxDepth => "max-depth"
  | .stackMebibytes => "stack-size-mb"

def all : List ValueOption := [.config, .maxDepth, .stackMebibytes]

/-- The option with a name. -/
def ofName? (name : String) : Option ValueOption := all.find? (·.name == name)

/-- Every option is found under its name. -/
theorem ofName?_name (o : ValueOption) : ofName? o.name = some o := by cases o <;> decide

end ValueOption

/-- The options that have none. -/
inductive Flag where
  | verbose | help | version
  deriving DecidableEq, Repr

/-- The flag with a long name. -/
def Flag.ofName? (name : String) : Option Flag :=
  [("verbose", .verbose), ("help", .help), ("version", .version)].lookup name

/-- The flag with a letter. -/
def Flag.ofLetter? (letter : Char) : Option Flag := [('v', .verbose), ('h', .help), ('V', .version)].lookup letter

/-- A piece of the command line. -/
inductive Item where
  | option (o : ValueOption) (value : String)
  | flag (f : Flag)
  /-- A text that is no option; it may be the name of a command. -/
  | word (text : String)
  /-- The mark behind which there are no options. -/
  | endOfOptions
  /-- A text behind that mark. -/
  | operand (text : String)
  /-- An option that does not exist, or that lacks its value or has one too many. -/
  | fault
  deriving DecidableEq, Repr

/-- Whether a text looks like an option. A lone dash does not. -/
def looksLikeOption (text : String) : Bool :=
  match text.toList with
  | '-' :: _ :: _ => true
  | _ => false

/-- The items of the letters behind one dash. -/
def letterItems (letters : List Char) : List Item :=
  letters.map fun c => match Flag.ofLetter? c with
    | some f => .flag f
    | none => .fault

/-- The name and the value of an option behind two dashes; the value begins behind the first equals sign. -/
def splitOption (cs : List Char) : String × Option String :=
  match cs.span (· != '=') with
  | (name, []) => (String.ofList name, none)
  | (name, _ :: value) => (String.ofList name, some (String.ofList value))

/-- The items of the arguments. -/
def items : List String → List Item
  | [] => []
  | arg :: rest =>
    match arg.toList with
    | ['-', '-'] => .endOfOptions :: rest.map .operand
    | '-' :: '-' :: cs =>
      match splitOption cs with
      | (name, value?) =>
        match ValueOption.ofName? name, value? with
        | some o, some value => .option o value :: items rest
        | some o, none =>
          match rest with
          | [] => [.fault]
          | value :: rest => if looksLikeOption value then [.fault] else .option o value :: items rest
        | none, some _ => [.fault]
        | none, none =>
          match Flag.ofName? name with
          | some f => .flag f :: items rest
          | none => [.fault]
    | '-' :: c :: cs => letterItems (c :: cs) ++ items rest
    | _ => .word arg :: items rest

/-- The options that were given. -/
structure Options where
  config : Option String := none
  maxDepth : Option Nat := none
  stackMebibytes : Option Nat := none
  deriving DecidableEq, Repr

/-- The number that an argument is: digits, perhaps behind a plus sign, for a number of at most 64 bits. -/
def number? (text : String) : Option Nat :=
  let n := match text.toList with
    | '+' :: cs => parseNatural cs
    | cs => parseNatural cs
  n.filter (· < Settings.bound)

/-- The path that an argument is; an empty one is none. -/
def path? (text : String) : Option String := if text.isEmpty then none else some text

namespace Options

/-- The options with one more, unless it was given before or its value is none for it. -/
def give? (given : Options) : ValueOption → String → Option Options
  | .config, value => if given.config.isSome then none else (path? value).map fun p => { given with config := some p }
  | .maxDepth, value => if given.maxDepth.isSome then none else (number? value).map fun n => { given with maxDepth := some n }
  | .stackMebibytes, value =>
    if given.stackMebibytes.isSome then none else (number? value).map fun n => { given with stackMebibytes := some n }

/-- These options, and others where these say nothing. -/
def orElse (inner outer : Options) : Options where
  config := inner.config <|> outer.config
  maxDepth := inner.maxDepth <|> outer.maxDepth
  stackMebibytes := inner.stackMebibytes <|> outer.stackMebibytes

end Options

/-- What a command line asks for. -/
inductive Invocation where
  | version
  /-- The usage of the program, or of one command. -/
  | help (topic : Option Verb)
  | command (c : Command) (options : Options)
  deriving DecidableEq, Repr

/-- What the items behind a verb ask for. -/
def parseVerb? (verb : Verb) (outer inner : Options) (file : Option String) : List Item → Option Invocation
  | [] => (verb.command? file).map fun c => .command c (inner.orElse outer)
  | .option o value :: rest => (inner.give? o value).bind fun inner => parseVerb? verb outer inner file rest
  | .flag .verbose :: rest | .endOfOptions :: rest => parseVerb? verb outer inner file rest
  | .flag .help :: _ => some (.help (some verb))
  | .word text :: rest | .operand text :: rest =>
    if file.isSome || verb == .listPrimitives || text.isEmpty then none
    else parseVerb? verb outer inner (some text) rest
  | _ => none

/-- What the items behind `help` ask for: the help of the program, or of one command. -/
def parseHelp? : List Item → Option Invocation
  | [] => some (.help none)
  | [.word name] => if name == "help" then some (.help none) else (Verb.ofName? name).map fun verb => .help (some verb)
  | _ => none

/-- What items ask for, after some options. -/
def parseItems? (given : Options) : List Item → Option Invocation
  | .option o value :: rest => (given.give? o value).bind fun given => parseItems? given rest
  | .flag .verbose :: rest => parseItems? given rest
  | .flag .help :: _ => some (.help none)
  | .flag .version :: _ => some .version
  | .word name :: rest =>
    if name == "help" then parseHelp? rest
    else (Verb.ofName? name).bind fun verb => parseVerb? verb given {} none rest
  | _ => none

/-- What a command line asks for; nothing, if it cannot be understood. -/
def parse? (args : List String) : Option Invocation := parseItems? {} (items args)

/-! ## Usage -/

/-- The name and version of the program. -/
def versionText : String := "lust 0.1.0\n"

/-- A text with spaces behind it, up to a width. -/
def padded (width : Nat) (text : String) : String := text ++ String.ofList (List.replicate (width - text.length) ' ')

/-- The lines that describe the options. -/
def optionLines (topic : Option Verb) : List String :=
  let row (option about : String) := "  " ++ padded 27 option ++ about
  [row "    --config <FILE>" "YAML file with interpreter limits",
    row "    --max-depth <N>" "Maximum nesting of non-tail evaluation",
    row "    --stack-size-mb <MIB>" "Native stack of the evaluation thread, in MiB",
    row "-v, --verbose..." "Increase log verbosity (-v info, -vv debug, -vvv trace)",
    row "-h, --help" "Print help"] ++
  (if topic.isNone then [row "-V, --version" "Print version"] else [])

/-- The help of the program or of a command. -/
def helpText (topic : Option Verb) : String :=
  let body := match topic with
    | none =>
      ["A small Lisp with quasiquoting, macros, pattern matching and modules.", "", "Usage: lust [OPTIONS] <COMMAND>", "",
        "Commands:"] ++ Verb.all.map (fun v => "  " ++ padded 12 v.name ++ v.about) ++
        ["  help        Print this message or the help of the given subcommand(s)", ""]
    | some .listPrimitives => [Verb.listPrimitives.about, "", "Usage: lust list-atoms [OPTIONS]", ""]
    | some verb =>
      [verb.about, "", "Usage: lust " ++ verb.name ++ " [OPTIONS] <FILE>", "", "Arguments:",
        "  <FILE>  The path to the Lust script file to " ++ verb.name, ""]
  "\n".intercalate (body ++ "Options:" :: optionLines topic) ++ "\n"

/-! ## Commands -/

/-- The contents of files by their path, or what kept them from being read. -/
abbrev Files := String → Except String String

/-- The text of a script. -/
def readScript (files : Files) (path : String) : Except Error Source :=
  match files path with
  | .ok text => .ok ⟨path, text⟩
  | .error cause => .error (.ofKind (.io path cause))

/-- The settings of a file. -/
def readSettings (files : Files) (path : String) : Except Error Settings :=
  match files path with
  | .ok text => Settings.parse text
  | .error cause => .error (.ofKind (.io path ("cannot read config file " ++ path ++ ": " ++ cause)))

/-- The settings that options ask for: what the options say goes before what their file says. -/
def Options.settings (o : Options) (files : Files) : Except Error Settings := do
  let base ← match o.config with
    | some path => readSettings files path
    | none => pure {}
  let base := match o.maxDepth with
    | some n => base.set .maxDepth n
    | none => base
  return match o.stackMebibytes with
    | some n => base.set .stackSize (min (n * 1024 * 1024) (Settings.bound - 1))
    | none => base

/-- What came of a command line. -/
inductive Outcome where
  | done (output : String)
  | failed (output : String) (e : Error)
  | misused

namespace Outcome

/-- Everything that was printed. -/
def output : Outcome → String
  | .done output | .failed output _ => output
  | .misused => ""

/-- The exit status. -/
def status : Outcome → Nat
  | .done _ => 0
  | .failed .. => 1
  | .misused => 2

/-- The error that ended it. -/
def error? : Outcome → Option Error
  | .failed _ e => some e
  | _ => none

end Outcome

/-- Each text on a line of its own. -/
def lines (texts : List String) : String := String.join (texts.map (· ++ "\n"))

/-- What came of an action of a new interpreter: what it printed, and then the text of its result. -/
def outcomeOf {α : Type} (settings : Settings) (a : Action α) (text : α → String) : Outcome :=
  match a (Machine.fresh settings.toLimits) with
  | .ok v m => .done (m.output ++ text v)
  | .error (.error e) m => .failed m.output e
  | .error .outOfFuel m => .failed m.output (.ofKind (.internal "no steps left"))

/-- The text of the last value of a script; there is none for `nil`. -/
def lastText : Value → String
  | .nil => ""
  | v => lines [v.print]

/-- No stack is as large as the addresses that a process has. -/
def stackBound : Nat := 128 * 1024 * 1024 * 1024 * 1024

/-- Do what a command says. -/
def Command.perform (c : Command) (files : Files) (settings : Settings) : Except Error Outcome := do
  if stackBound ≤ settings.stackSize then .error (.ofKind (.internal "cannot start evaluation thread"))
  match c with
  | .run file =>
    let source ← readScript files file
    return outcomeOf settings (Session.runSource Session.defaultFuel source) lastText
  | .expand file =>
    let source ← readScript files file
    return outcomeOf settings (Session.expandSource Session.defaultFuel source) fun forms => lines (forms.map Value.print)
  | .read file =>
    let source ← readScript files file
    return .done (lines ((← Reader.readAll source).map Value.print))
  | .listPrimitives => return .done (lines Primitive.sortedNames)

namespace Invocation

/-- The files that an invocation reads. -/
def files : Invocation → List String
  | .command c options =>
    options.config.toList ++ match c with
      | .run file | .expand file | .read file => [file]
      | .listPrimitives => []
  | _ => []

/-- Do what an invocation asks for. -/
def perform (files : Files) : Invocation → Outcome
  | .version => .done versionText
  | .help topic => .done (helpText topic)
  | .command c options =>
    match options.settings files >>= c.perform files with
    | .ok outcome => outcome
    | .error e => .failed "" e

end Invocation

/-- Do what a command line asks for. -/
def perform (files : Files) (args : List String) : Outcome :=
  match parse? args with
  | some invocation => invocation.perform files
  | none => .misused

end MiniLisp.CommandLine
