import VariHist.Decimal.Reader

/-!
# Commands

What is asked for on the command line.  `run` fills the histograms of an analysis from a file of
events; `inspect` shows the columns of the events and the registry of systematics.  In place of a
command the version of the program can be asked for.
-/

namespace VariHist

/-- A command. -/
inductive Command where
  | run (config input output : String) (threads : Nat) (json : Bool)
  /-- Without an output the answer is printed. -/
  | inspect (config input : String) (output : Option String)
  | version
  deriving DecidableEq, Repr

namespace Command

/-- An option: `-c` and `--config` are the same. -/
structure OptionName where
  long : String
  short : Option Char
  /-- Does a value follow? -/
  hasValue : Bool

/-- The options of both commands, and of one of them. -/
def optionNames (isRun : Bool) : List OptionName :=
  [⟨"config", some 'c', true⟩, ⟨"input", some 'i', true⟩, ⟨"output", some 'o', true⟩,
    ⟨"log-level", none, true⟩] ++
    (if isRun then [⟨"threads", none, true⟩, ⟨"json", none, false⟩] else [])

/-- The option that an argument names, and its value if that is part of the argument. -/
def findOption? (names : List OptionName) (argument : String) :
    Option (OptionName × Option String) :=
  match argument.toList with
  | '-' :: '-' :: cs =>
    let name := String.ofList (cs.takeWhile (· ≠ '='))
    (names.find? fun o => o.long = name).map fun o =>
      (o, (cs.dropWhile (· ≠ '=')).tail? |>.map String.ofList)
  | '-' :: c :: cs =>
    (names.find? fun o => o.short = some c).map fun o =>
      (o, match cs with
        | [] => none
        | '=' :: cs => some (String.ofList cs)
        | cs => some (String.ofList cs))
  | _ => none

/-- Does the argument look like an option, so that it is no value? -/
def looksLikeOption (argument : String) : Bool :=
  match argument.toList with
  | '-' :: _ :: _ => true
  | _ => false

/-- Reads options and their values up to the first argument that ends them, and returns what is left
from there on.  Every argument before it has to belong to an option, and none may be given twice.
Two dashes end the options as well; nothing may come after them. -/
def readOptions? (names : List OptionName) (ends : String → Bool) (given : List (String × String)) :
    List String → Option (List (String × String) × List String)
  | [] => some (given, [])
  | argument :: rest =>
    if ends argument then some (given, argument :: rest)
    else if argument = "--" then if rest.isEmpty then some (given, []) else none
    else match findOption? names argument with
    | none => none
    | some (o, value) =>
      if (given.lookup o.long).isSome then none
      else if o.hasValue then
        match value, rest with
        | some value, rest => readOptions? names ends (given ++ [(o.long, value)]) rest
        | none, value :: rest =>
          if looksLikeOption value then none
          else readOptions? names ends (given ++ [(o.long, value)]) rest
        | none, [] => none
      else if value.isSome then none
      else readOptions? names ends (given ++ [(o.long, "")]) rest

/-- A number that fits a word: decimal digits, possibly after a plus sign. -/
def readWord? (text : String) : Option Nat :=
  let ds := match text.toList with
    | '+' :: ds => ds
    | ds => ds
  if ds.isEmpty || !ds.all Char.isDigit then none
  else
    let n := Decimal.natOfDigits ds
    if n < UInt64.size then some n else none

/-- Is the text a level of the log, by its name in letters of either case or by its number? -/
def isLogLevel (level : String) : Bool :=
  ["error", "warn", "info", "debug", "trace"].contains level.toLower ||
    (readWord? level).any fun n => 1 ≤ n && n ≤ 5

/-- Is the level of the log, if one is given, a level? -/
def hasLogLevel (options : List (String × String)) : Bool :=
  (options.lookup "log-level").all isLogLevel

/-- The path given for an option; a path has a character at least. -/
def path? (options : List (String × String)) (name : String) : Option String :=
  (options.lookup name).filter fun path => !path.isEmpty

/-- The command of these options. -/
def ofOptions? (isRun : Bool) (options : List (String × String)) : Option Command := do
  if !hasLogLevel options then none
  if isRun then
    let threads ← match options.lookup "threads" with
      | some text => readWord? text
      | none => some 0
    return .run (← path? options "config") (← path? options "input") (← path? options "output")
      threads (options.lookup "json").isSome
  else
    if options.lookup "output" = some "" then none
    return .inspect (← path? options "config") (← path? options "input") (path? options "output")

/-- Does the argument ask for the version?  What may be joined to the short form is not looked at. -/
def asksVersion (argument : String) : Bool :=
  argument = "--version" || argument.startsWith "-V"

/-- Is the argument the name of a command? -/
def isName (argument : String) : Bool :=
  argument = "run" || argument = "inspect"

/-- Reads the arguments of the command line: the name of a command and its options.  The level of
the log may also be given before the name, whether or not it is given again after it.  Nothing after
a request for the version is looked at; `none` if the arguments make no command. -/
def parse? (arguments : List String) : Option Command := do
  let ends (argument : String) : Bool := isName argument || asksVersion argument
  let (leading, rest) ← readOptions? [⟨"log-level", none, true⟩] ends [] arguments
  match rest with
  | [] => none
  | first :: rest =>
    if !hasLogLevel leading then none
    if asksVersion first then return .version
    let isRun := first = "run"
    let (options, _) ← readOptions? (optionNames isRun) (fun _ => false) [] rest
    ofOptions? isRun options

end Command

end VariHist
