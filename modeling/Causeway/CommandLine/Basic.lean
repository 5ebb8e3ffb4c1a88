import Causeway.Replay.Basic
import Causeway.Wire.Settings

/-!
# The command line

An invocation names a file of instructions and, if need be, a settings file and a webhook secret.
Nothing is replayed under settings that cannot work.
-/

namespace Causeway.CommandLine

/-- The files as far as they exist; the secret of the command line goes before that of the
environment. -/
structure Invocation where
  instructions : Option Bytes
  config : Option (Option Bytes) := none
  secret : Option String := none
  environmentSecret : Option String := none
  wantsDatabase : Bool := false

inductive Refusal where
  | settingsFile (fault : Settings.FileFault)
  | settings (failure : Failure)
  | noInstructions

def Refusal.message : Refusal → String
  | settingsFile .missing => "the settings file cannot be read"
  | settingsFile .notText => "the settings file is not text"
  | settingsFile .malformed => "the settings file does not hold settings"
  | settings e => e.message
  | noInstructions => "the instructions cannot be read"

structure Outcome where
  ending : Except Refusal Replay.Ending
  warnings : List Replay.Warning := []

namespace Outcome

/-- An overflow ends the program with code 101. -/
def exitCode (o : Outcome) : Nat :=
  match o.ending with
  | .ok (.report _) => 0
  | .ok (.overflow _) => 101
  | .ok (.failed _) | .error _ => 1

def output (o : Outcome) : String :=
  match o.ending with
  | .ok (.report text) => text
  | _ => ""

def complaint? (o : Outcome) : Option String :=
  match o.ending with
  | .ok (.report _) => none
  | .ok (.failed e) => some e.message
  | .ok (.overflow e) => some e.message
  | .error r => some r.message

end Outcome

def settings (i : Invocation) : Except Refusal Settings := do
  let s ← match i.config with
    | none => .ok .standard
    | some file => (Settings.ofFile file).mapError .settingsFile
  let webhookSecret := (i.secret <|> i.environmentSecret).getD s.webhookSecret
  let s := { s with webhookSecret }
  s.validate.mapError .settings
  pure s

def run (i : Invocation) (w : World) : Outcome × World :=
  match settings i with
  | .error r => ({ ending := .error r }, w)
  | .ok s =>
    let before := if i.wantsDatabase then [Replay.Warning.notPersistent] else []
    match i.instructions with
    | none => ({ ending := .error .noInstructions, warnings := before }, w)
    | some bs =>
      let w := { w with rail := { w.rail with feeRate := s.provider.feeRate } }
      let (ending, st) := Replay.run s (Instruction.ofCsv bs) w
      ({ ending := .ok ending, warnings := before ++ st.warnings.reverse }, st.world)

end Causeway.CommandLine
