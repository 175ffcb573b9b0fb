import SnapshotDiff.Family

/-!
# Arguments of the command line

The words of a command line are read from left to right.  An option is checked once it is
certain that its value has come: when another option begins, or at the end.

## Main definitions

* `CommandLine.Request` — what a command line asks for.
* `CommandLine.UsageError` — why a command line asks for nothing.
* `CommandLine.Request.ofWords` — the request of the words of a command line.
-/

namespace SnapshotDiff

namespace CommandLine

/-- The form of the output. -/
inductive Format
  | text
  | json
  deriving DecidableEq, Repr

/-- The format with a name. -/
def Format.ofName? (s : String) : Option Format :=
  if s = "text" then some text else if s = "json" then some json else none

/-- Two snapshots in files, either of which may be absent, and how to compare them. -/
structure Snapshots where
  family : Family
  old : Option String
  new : Option String
  config : Option String
  deriving DecidableEq, Repr

/-- What is to be done. -/
inductive Command
  | diff (snapshots : Snapshots)
  | entry (snapshots : Snapshots) (tenant entity : String) (user : Option String)
  | families (config : Option String)
  deriving DecidableEq, Repr

/-- What a command line asks for. -/
structure Request where
  command : Command
  format : Format
  verbose : Bool
  deriving DecidableEq, Repr

/-- Why a command line asks for nothing. -/
inductive UsageError
  | displayHelp
  | displayVersion
  | displayHelpOnMissingArgumentOrSubcommand
  | missingSubcommand
  | invalidSubcommand
  | missingRequiredArgument
  | unknownArgument
  | invalidValue
  | valueValidation
  | argumentConflict
  | tooManyValues
  deriving DecidableEq, Repr

/-- The name of the kind of error. -/
def UsageError.name : UsageError → String
  | displayHelp => "DisplayHelp"
  | displayVersion => "DisplayVersion"
  | displayHelpOnMissingArgumentOrSubcommand => "DisplayHelpOnMissingArgumentOrSubcommand"
  | missingSubcommand => "MissingSubcommand"
  | invalidSubcommand => "InvalidSubcommand"
  | missingRequiredArgument => "MissingRequiredArgument"
  | unknownArgument => "UnknownArgument"
  | invalidValue => "InvalidValue"
  | valueValidation => "ValueValidation"
  | argumentConflict => "ArgumentConflict"
  | tooManyValues => "TooManyValues"

/-! ### Options -/

/-- The options that take a value. -/
inductive OptionName
  | family
  | old
  | new
  | config
  | tenant
  | entityId
  | user
  | format
  deriving DecidableEq, Repr

/-- The word of an option behind its two hyphens. -/
def OptionName.word : OptionName → String
  | family => "family"
  | old => "old"
  | new => "new"
  | config => "config"
  | tenant => "tenant"
  | entityId => "entity-id"
  | user => "user"
  | format => "format"

/-- A value is checked as soon as it is taken: a family must be known, a format must be one of
the two, and the name of a file must not be empty. -/
def OptionName.check (o : OptionName) (v : String) : Except UsageError Unit :=
  match o with
  | family => if (Family.ofName? v).isSome then .ok () else .error .valueValidation
  | format => if (Format.ofName? v).isSome then .ok () else .error .invalidValue
  | old | new | config => if v = "" then .error .invalidValue else .ok ()
  | tenant | entityId | user => .ok ()

/-- What may stand on a stretch of the command line. -/
structure Level where
  /-- The options that take a value. -/
  options : List OptionName
  /-- The options that must be there. -/
  required : List OptionName
  /-- The commands, one of which ends the stretch. -/
  commands : List String
  deriving Repr

/-- The stretch before the command. -/
def top : Level := ⟨[.format], [], ["diff", "entry", "families", "help"]⟩

/-- The stretch behind a command. -/
def Level.ofCommand : String → Level
  | "diff" => ⟨[.family, .old, .new, .config, .format], [.family], []⟩
  | "entry" =>
    ⟨[.family, .old, .new, .config, .tenant, .entityId, .user, .format],
      [.family, .tenant, .entityId], []⟩
  | _ => ⟨[.config, .format], [], []⟩

/-! ### Reading words -/

/-- What has been read of a stretch. -/
structure Progress where
  /-- The options with their checked values. -/
  given : List (OptionName × String) := []
  /-- The option read last, and its value if that has come. -/
  pending : Option (OptionName × Option String) := none
  verbose : Bool := false
  /-- Two hyphens have ended the options. -/
  closed : Bool := false
  deriving Repr

namespace Progress

/-- Checks the option read last. -/
def settle (p : Progress) : Except UsageError Progress :=
  match p.pending with
  | none => .ok p
  | some (_, none) => .error .invalidValue
  | some (o, some v) =>
    if (p.given.lookup o).isSome then .error .argumentConflict
    else (o.check v).map fun _ => { p with given := p.given ++ [(o, v)], pending := none }

/-- The value of an option must come next. -/
def isWaiting (p : Progress) : Bool :=
  match p.pending with
  | some (_, none) => true
  | _ => false

/-- Reads an option with two hyphens. -/
def long (level : Level) (p : Progress) (name : String) (value : Option String) :
    Except UsageError Progress :=
  match level.options.find? fun o => o.word = name with
  | some o => do
    let p ← p.settle
    let p := { p with pending := some (o, value) }
    if value.isSome then p.settle else return p
  | none =>
    let isFlag := name = "verbose" || name = "help" || (name = "version" && !level.commands.isEmpty)
    if !isFlag then .error .unknownArgument
    else if value.isSome then .error .tooManyValues
    else do
      let p ← p.settle
      if name = "help" then .error .displayHelp
      else if name = "version" then .error .displayVersion
      else if p.verbose then .error .argumentConflict
      else return { p with verbose := true }

/-- Reads the letters behind one hyphen. -/
def short (level : Level) (p : Progress) : List Char → Except UsageError Progress
  | [] => .ok p
  | c :: cs =>
    if c = 'v' then do
      let p ← p.settle
      if p.verbose then .error .argumentConflict else short level { p with verbose := true } cs
    else if c = 'h' then do let _ ← p.settle; .error .displayHelp
    else if c = 'V' ∧ !level.commands.isEmpty then do let _ ← p.settle; .error .displayVersion
    else .error .unknownArgument

/-- A word that is neither an option nor a value nor a command. -/
def stray (level : Level) (p : Progress) (word : String) : UsageError :=
  if level.commands.isEmpty || (p.closed && level.commands.contains word) then .unknownArgument
  else .invalidSubcommand

/-- The name and the value of an option with an equals sign in it. -/
def splitOption (cs : List Char) : String × Option String :=
  (String.ofList (cs.takeWhile (· ≠ '=')),
    match cs.dropWhile (· ≠ '=') with
    | [] => none
    | _ :: v => some (String.ofList v))

/-- Reads a word that is no command. -/
def word (level : Level) (p : Progress) (w : String) : Except UsageError Progress :=
  if p.closed then .error (stray level p w)
  else match w.toList with
    | ['-', '-'] => .ok { p with closed := true }
    | '-' :: '-' :: cs =>
      let (name, value) := splitOption cs
      long level p name value
    | '-' :: c :: cs => short level p (c :: cs)
    | _ =>
      match p.pending with
      | some (o, none) => .ok { p with pending := some (o, some w) }
      | _ => .error (stray level p w)

/-- Reads words up to a command; yields it with the words behind it. -/
def words (level : Level) (p : Progress) :
    List String → Except UsageError (Progress × Option (String × List String))
  | [] => .ok (p, none)
  | w :: ws =>
    if !p.closed && !p.isWaiting && level.commands.contains w then .ok (p, some (w, ws))
    else match word level p w with
      | .ok p => words level p ws
      | .error e => .error e

/-- The value of an option. -/
def value? (p : Progress) (o : OptionName) : Option String := p.given.lookup o

end Progress

/-! ### Requests -/

/-- Reads the words behind a command. -/
def readCommand (level : Level) (ws : List String) : Except UsageError Progress := do
  let (p, _) ← Progress.words level {} ws
  let p ← p.settle
  if level.required.all fun o => (p.value? o).isSome then return p
  else .error .missingRequiredArgument

/-- The snapshots that the options name. -/
def snapshots (p : Progress) : Except UsageError Snapshots :=
  match (p.value? .family).bind Family.ofName? with
  | some f => .ok ⟨f, p.value? .old, p.value? .new, p.value? .config⟩
  | none => .error .missingRequiredArgument

/-- The command of a name with its options. -/
def commandOf (name : String) (p : Progress) : Except UsageError Command :=
  if name = "diff" then Command.diff <$> snapshots p
  else if name = "entry" then
    match p.value? .tenant, p.value? .entityId with
    | some tenant, some entity => (Command.entry · tenant entity (p.value? .user)) <$> snapshots p
    | _, _ => .error .missingRequiredArgument
  else .ok (.families (p.value? .config))

/-- What is asked for behind the word `help`: at most one command can be named. -/
def helpError : List String → UsageError
  | [] => .displayHelp
  | [w] => if top.commands.contains w then .displayHelp else .invalidSubcommand
  | _ => .invalidSubcommand

/-- The request of the words of a command line.  The words behind the command are checked
first; there a format counts before one that stands in front of the command. -/
def Request.ofWords (ws : List String) : Except UsageError Request := do
  let (p, found) ← Progress.words top {} ws
  match found with
  | none =>
    let p ← p.settle
    if p.given.isEmpty && !p.verbose then .error .displayHelpOnMissingArgumentOrSubcommand
    else .error .missingSubcommand
  | some (name, rest) =>
    if name = "help" then .error (helpError rest)
    else
      let q ← readCommand (Level.ofCommand name) rest
      let c ← commandOf name q
      let p ← p.settle
      let format := ((q.value? .format).orElse fun _ => p.value? .format).bind Format.ofName?
      return ⟨c, format.getD .text, q.verbose || p.verbose⟩

end CommandLine

end SnapshotDiff
