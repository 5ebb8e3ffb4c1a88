import Causeway.Instant.Basic
import Causeway.Text.Blank
import Causeway.Text.Digits

/-!
# Instants as text

`toText` writes `2026-03-14T10:00:00Z`, with a fraction of 3, 6 or 9 digits where there is one and a
sign before a year outside 0 to 9999. `ofText?` reads that form with any offset from universal time,
and allows blanks between the parts.
-/

namespace Causeway.Instant

open Text

/-! ## Writing -/

def yearText (year : Int) : List Char :=
  if 0 ≤ year ∧ year ≤ 9999 then padded 4 year.toNat
  else (if year < 0 then '-' else '+') :: padded 4 year.natAbs

/-- The shortest of 0, 3, 6 and 9 digits that loses nothing. -/
def fractionText (nano : Nat) : List Char :=
  if nano = 0 then []
  else if nano % 1000000 = 0 then '.' :: padded 3 (nano / 1000000)
  else if nano % 1000 = 0 then '.' :: padded 6 (nano / 1000)
  else '.' :: padded 9 nano

/-- A leap second is written as second 60. -/
def toChars (t : Instant) : List Char :=
  let month := Calendar.monthOf t.day
  let date := yearText (month / 12) ++ '-' :: padded 2 ((month % 12).toNat + 1)
    ++ '-' :: padded 2 ((t.day - Calendar.firstDay month).toNat + 1)
  let leap := 1000000000 ≤ t.nano
  let time := padded 2 (t.second / 3600) ++ ':' :: padded 2 (t.second / 60 % 60)
    ++ ':' :: padded 2 (t.second % 60 + if leap then 1 else 0)
  date ++ 'T' :: time ++ fractionText (if leap then t.nano - 1000000000 else t.nano) ++ ['Z']

def toText (t : Instant) : String := String.ofList t.toChars

/-! ## Reading -/

/-- Reads the character `c`, blanks before it allowed. -/
def readMark (c : Char) (cs : List Char) : Option (List Char) :=
  match trimStart cs with
  | d :: rest => if d = c then some rest else none
  | [] => none

/-- Reads one or two digits, blanks before them allowed. -/
def readPart (cs : List Char) : Option (Nat × List Char) := readUpTo 2 (trimStart cs)

/-- Reads a year: four digits at most, or any number of them after a sign. -/
def readYear (cs : List Char) : Option (Int × List Char) :=
  match trimStart cs with
  | '-' :: rest => (readAll rest).map fun (n, rest) => (-(n : Int), rest)
  | '+' :: rest => (readAll rest).map fun (n, rest) => ((n : Int), rest)
  | rest => (readUpTo 4 rest).map fun (n, rest) => ((n : Int), rest)

/-- The nanoseconds of a fraction; digits after the ninth are dropped. -/
def readFraction : List Char → Option (Nat × List Char)
  | '.' :: rest =>
    let ds := rest.takeWhile isDigit
    if ds = [] then none
    else some (numberOf ((ds ++ List.replicate 9 '0').take 9), rest.drop ds.length)
  | rest => some (0, rest)

def readOffset (cs : List Char) : Option (Int × List Char) :=
  if (cs.take 3).map Char.toLower = ['u', 't', 'c'] then some (0, cs.drop 3)
  else match cs with
    | [] => none
    | c :: rest =>
      if c = 'Z' ∨ c = 'z' then some (0, rest)
      else if c = '+' ∨ c = '-' ∨ c = '\u2212' then
        match rest with
        | h :: h' :: rest =>
          match (rest.dropWhile fun c => c == ':' || isBlank c) with
          | m :: m' :: rest => do
            let hours := 10 * (← digit? h) + (← digit? h')
            let minutes := 10 * (← digit? m) + (← digit? m')
            if hours < 24 ∧ minutes < 60 then
              let offset : Int := 60 * hours + minutes
              some (if c = '+' then offset else -offset, rest)
            else none
          | _ => none
        | _ => none
      else none

/-- Moves an instant read at an offset of some minutes to universal time. -/
def atOffset? (day : Int) (second nano : Nat) (offset : Int) : Option Instant :=
  let s := second - 60 * offset
  if minDay ≤ day ∧ day ≤ maxDay then ofParts? (day + s / 86400) (s % 86400).toNat nano else none

def ofChars? (cs : List Char) : Option Instant := do
  let (year, cs) ← readYear cs
  let (month, cs) ← readPart (← readMark '-' cs)
  let (day, cs) ← readPart (← readMark '-' cs)
  let cs ← match cs with
    | c :: cs => if c = 'T' ∨ c = 't' ∨ c = ' ' then some cs else none
    | [] => none
  let (hour, cs) ← readPart cs
  let (minute, cs) ← readPart (← readMark ':' cs)
  let (second, cs) ← readPart (← readMark ':' cs)
  let (nano, cs) ← readFraction cs
  let (offset, cs) ← readOffset (trimStart cs)
  let date ← Calendar.dayOf? year month day
  if hour < 24 ∧ minute < 60 ∧ second ≤ 60 ∧ trimStart cs = [] then
    let leap := second = 60
    atOffset? date (3600 * hour + 60 * minute + if leap then 59 else second)
      (nano + if leap then 1000000000 else 0) offset
  else none

def ofText? (s : String) : Option Instant := ofChars? s.toList

end Causeway.Instant
