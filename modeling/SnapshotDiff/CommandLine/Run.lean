import SnapshotDiff.CommandLine.Arguments
import SnapshotDiff.CommandLine.Report
import SnapshotDiff.Config.Stored

/-!
# Carrying out requests

A request is carried out on the contents of files; reading them is left to the program.

## Main definitions

* `CommandLine.Stamp` — the identifier and the date of a new entry.
* `CommandLine.CommandError` — why a request fails.
* `CommandLine.run` — the output of a request.
-/

namespace SnapshotDiff

namespace CommandLine

/-- The identifier and the date of a new entry. -/
structure Stamp where
  id : EventId
  date : Instant
  deriving Repr

/-- Why a request fails. -/
inductive CommandError
  /-- An entry needs at least one snapshot. -/
  | noSnapshot
  | unreadable (file : String)
  | notJson (file : String)
  | cannotDiff (family : Family) (cause : DiffError)
  /-- There is no engine for the configuration. -/
  | config (cause : DiffError)
  deriving Repr

namespace CommandError

/-- The wording of the error. -/
def message : CommandError → String
  | noSnapshot => "at least one of --old and --new is required"
  | unreadable file => "cannot read " ++ file
  | notJson file => file ++ " is not valid JSON"
  | cannotDiff family _ => "cannot diff " ++ family.name ++ " snapshots"
  | config cause => cause.message

/-- The error below, if the wording does not tell it. -/
def cause? : CommandError → Option DiffError
  | cannotDiff _ cause => some cause
  | _ => none

end CommandError

/-- The contents of files by their names; a file that cannot be read has none. -/
abbrev Files := String → Option String

/-- The engine of a configuration file, or the standard one. -/
def loadEngine (files : Files) : Option String → Except CommandError Engine
  | none => .ok .standard
  | some file =>
    match files file with
    | none => .error (.config (.config (.unreadable file)))
    | some text =>
      match Config.ofText text with
      | .error fault => .error (.config (.config fault))
      | .ok c => (Engine.ofConfig c).mapError .config

/-- The snapshot in a file, if one is named. -/
def readSnapshot (files : Files) : Option String → Except CommandError (Option Json)
  | none => .ok none
  | some file =>
    match files file with
    | none => .error (.unreadable file)
    | some text =>
      match Json.ofText? text with
      | none => .error (.notJson file)
      | some v => .ok (some v)

/-- The changes between two snapshots in files. -/
def diffSnapshots (files : Files) (s : Snapshots) : Except CommandError (Option ChangeRecord) := do
  let engine ← loadEngine files s.config
  let old ← readSnapshot files s.old
  let new ← readSnapshot files s.new
  (engine.diff s.family old new).mapError (.cannotDiff s.family)

/-- The entry for an event. -/
def newEntry (files : Files) (stamp : Stamp) (s : Snapshots) (tenant entity : String)
    (user : Option String) : Except CommandError AuditEntry := do
  match Action.infer? s.old.isSome s.new.isSome with
  | none => .error .noSnapshot
  | some action =>
    let diff ← diffSnapshots files s
    return ⟨stamp.id, tenant, entity, s.family, action, user, stamp.date, diff⟩

/-- The output of a request. -/
def run (files : Files) (stamp : Stamp) (r : Request) : Except CommandError String := do
  match r.command, r.format with
  | .diff s, .json =>
    return (Document.ofOptional ChangeRecord.document (← diffSnapshots files s)).pretty ++ "\n"
  | .diff s, .text => return reportOf (← diffSnapshots files s)
  | .entry s tenant entity user, .json =>
    return (← newEntry files stamp s tenant entity user).text ++ "\n"
  | .entry s tenant entity user, .text =>
    return entryReport (← newEntry files stamp s tenant entity user)
  | .families config, .json => return (familiesDocument (← loadEngine files config)).pretty ++ "\n"
  | .families config, .text => return familiesReport (← loadEngine files config)

/-- The files that a request reads. -/
def Request.files (r : Request) : List String :=
  match r.command with
  | .diff s | .entry s _ _ _ => (s.config.toList ++ s.old.toList ++ s.new.toList)
  | .families config => config.toList

end CommandLine

end SnapshotDiff
