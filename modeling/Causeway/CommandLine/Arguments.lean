/-!
# Arguments

Besides the file of instructions there are three options, each with a value that follows it or
stands behind an equals sign. Behind `--` everything is the name of a file.
-/

namespace Causeway.CommandLine

inductive Slot where
  | instructions
  | database
  | config
  | secret
deriving DecidableEq

def Slot.name : Slot → String
  | instructions => "<INPUT>"
  | database => "--db-path"
  | config => "--config"
  | secret => "--webhook-secret"

def Slot.ofOption? (s : String) : Option Slot := [database, config, secret].find? (·.name = s)

inductive Misuse where
  | unknown (argument : String)
  | repeated (slot : Slot)
  | noValue (slot : Slot)
  | noInstructions
deriving DecidableEq

def Misuse.message : Misuse → String
  | unknown a => "unexpected argument '" ++ a ++ "'"
  | repeated s => "'" ++ s.name ++ "' is given more than once"
  | noValue s => "a value is required for '" ++ s.name ++ "'"
  | noInstructions => "'" ++ Slot.instructions.name ++ "' is missing"

/-- The values that are given, each under its slot. -/
abbrev Given := List (Slot × String)

def Given.fill (g : Given) (slot : Slot) (value : String) : Except Misuse Given :=
  match slot, g.lookup slot with
  | _, none => .ok ((slot, value) :: g)
  | .instructions, some _ => .error (.unknown value)
  | slot, some _ => .error (.repeated slot)

/-- The option and the value behind its equals sign, if it has one. -/
def splitOption (a : String) : String × Option String :=
  let cs := a.toList
  let name := String.ofList (cs.takeWhile (· ≠ '='))
  (name, (cs.dropWhile (· ≠ '=')).tail?.map String.ofList)

def isOption (a : String) : Bool := a.startsWith "-" && a ≠ "-"

def Given.read (g : Given) : List String → Except Misuse Given
  | [] => .ok g
  | "--" :: as => as.foldlM (·.fill .instructions ·) g
  | a :: as =>
    if !isOption a then g.fill .instructions a >>= (·.read as)
    else match Slot.ofOption? (splitOption a).1, (splitOption a).2, as with
      | none, _, _ => .error (.unknown a)
      | some slot, some value, as => g.fill slot value >>= (·.read as)
      | some slot, none, [] => .error (.noValue slot)
      | some slot, none, value :: as =>
        if isOption value then .error (.noValue slot) else g.fill slot value >>= (·.read as)

structure Arguments where
  instructions : String
  database : Option String
  config : Option String
  secret : Option String
deriving DecidableEq

def Arguments.read (as : List String) : Except Misuse Arguments := do
  let g ← Given.read [] as
  match g.lookup .instructions with
  | none => .error .noInstructions
  | some instructions =>
    .ok
      { instructions
        database := g.lookup .database
        config := g.lookup .config
        secret := g.lookup .secret }

def usage : String :=
  "Usage: causeway [--db-path <DB_PATH>] [--config <CONFIG>] [--webhook-secret <WEBHOOK_SECRET>] "
    ++ "<INPUT>"

end Causeway.CommandLine
