import SnapshotDiff.CommandLine.Run
import Std.Time.DateTime.Timestamp

/-!
# The program

Reads the arguments, the clock and the files that are asked for, and prints the output of the
request.
-/

namespace SnapshotDiff

namespace CommandLine

/-- What the program says about its arguments. -/
def usage : String :=
  Text.joined "\n"
    ["Structural diffs of entity snapshots",
      "",
      "Usage: snapshot-diff [--format text|json] [--verbose] <command>",
      "",
      "Commands:",
      "  diff      --family F [--old FILE] [--new FILE] [--config FILE]",
      "  entry     --family F [--old FILE] [--new FILE] [--config FILE]",
      "            --tenant T --entity-id E [--user U]",
      "  families  [--config FILE]",
      ""]

/-- The contents of a file, if it can be read. -/
def readFile? (name : String) : IO (Option String) := do
  try return some (← IO.FS.readFile name) catch _ => return none

/-- The contents of the files that can be read. -/
def readFiles (names : List String) : IO Files := do
  let contents ← names.mapM fun name => do return (name, ← readFile? name)
  return fun name => (contents.lookup name).join

/-- An identifier and a date for an entry that is made now. -/
def newStamp : IO Stamp := do
  let nanoseconds := (← Std.Time.Timestamp.now).toNanosecondsSinceUnixEpoch.toInt.toNat
  let random := (← IO.getRandomBytes 10).foldl (fun n b => n * 256 + b.toNat) 0
  return ⟨EventId.ofTime (nanoseconds / 1000000) random, Instant.ofUnix nanoseconds⟩

/-- Carries out the request of the arguments; the exit code tells whether that worked. -/
def perform (arguments : List String) : IO UInt32 := do
  match Request.ofWords arguments with
  | .error .displayHelp => IO.print usage; return 0
  | .error .displayVersion => IO.println "snapshot-diff 0.1.0"; return 0
  | .error e =>
    IO.eprintln ("error: " ++ e.name)
    IO.eprint usage
    return 2
  | .ok r =>
    match run (← readFiles r.files) (← newStamp) r with
    | .ok output => IO.print output; return 0
    | .error e =>
      IO.eprintln ("error: " ++ e.message)
      if let some cause := e.cause? then IO.eprintln ("caused by: " ++ cause.message)
      return 1

end CommandLine

end SnapshotDiff

/-- The program. -/
def main (arguments : List String) : IO UInt32 := SnapshotDiff.CommandLine.perform arguments
