import Causeway.CommandLine.Arguments
import Causeway.CommandLine.Basic
import Causeway.Uuid.Seeded
import Std.Time.DateTime.Timestamp

/-!
# The program

Reads the files that the arguments name, replays the instructions in a world whose clock starts now
and whose identifiers come from a random seed, and prints the report.
-/

namespace Causeway.CommandLine

/-- The bytes of a file that can be read. -/
def contents? (path : String) : IO (Option Bytes) := do
  match ← (IO.FS.readBinFile path).toBaseIO with
  | .ok bytes => return some bytes.data.toList
  | .error _ => return none

/-- A world of empty stores; each reading of its clock is a nanosecond after the one before. -/
def freshWorld : IO World := do
  let start := (← Std.Time.Timestamp.now).toNanosecondsSinceUnixEpoch.val
  let seed := (← IO.getRandomBytes 32).data.toList
  return { clock := fun n => (Instant.ofNanos? (start + n)).getD .last, ids := .ofSeed seed }

/-- Runs what the arguments ask for and gives the exit code. -/
def execute (a : Arguments) : IO UInt32 := do
  let environmentSecret ← IO.getEnv "FUNDRAIL_WEBHOOK_SECRET"
  let environmentDatabase ← IO.getEnv "FUNDRAIL_DB_PATH"
  let config ← match a.config with
    | some path => some <$> contents? path
    | none => pure none
  let invocation : Invocation :=
    { instructions := ← contents? a.instructions
      config
      secret := a.secret
      environmentSecret
      wantsDatabase := (a.database <|> environmentDatabase).isSome }
  let (outcome, _) := run invocation (← freshWorld)
  for w in outcome.warnings do
    IO.eprintln ("WARN " ++ w.message)
  if let some complaint := outcome.complaint? then
    IO.eprintln ("Error: " ++ complaint)
  IO.print outcome.output
  return outcome.exitCode.toUInt32

end Causeway.CommandLine

open Causeway.CommandLine in
def main (args : List String) : IO UInt32 := do
  if args.contains "--help" || args.contains "-h" then
    IO.println usage
    return 0
  match Arguments.read args with
  | .ok a => execute a
  | .error e =>
    IO.eprintln ("error: " ++ e.message)
    IO.eprintln usage
    return 2
