import CrossDoc.Log.Level
import CrossDoc.JsonString

/-!
# Log records

A record is a level, the module it comes from and a message.  As text it is
one line with the time of day, as JSON one object with the milliseconds since
the epoch.
-/

namespace CrossDoc.Log

structure Record where
  level : Level
  module : Text
  message : Text
deriving DecidableEq, Repr, Inhabited

inductive Format where
  | text
  | json
deriving DecidableEq, Repr, Inhabited

def Format.ofName (t : Text) : Format :=
  if t = "json" ∨ t = "JSON" then .json else .text

/-- When a record is written: the time of day as `HH:MM:SS.mmm` and the
milliseconds since the epoch. -/
structure Clock where
  timeOfDay : Text := "00:00:00.000"
  milliseconds : Int := 0
deriving DecidableEq, Repr, Inhabited

namespace Record

/-- The level and the message, as they follow the time in text form. -/
def label (r : Record) : Text :=
  r.level.name ++ List.replicate (5 - r.level.name.length) ' ' ++
    " [" ++ r.module ++ "] " ++ r.message

def toJson (milliseconds : Int) (r : Record) : Text :=
  "\x7b\"ts\":" ++ Text.ofInt milliseconds ++ ",\"level\":\"" ++ r.level.name ++
    "\",\"module\":\"" ++ JsonString.escape r.module ++ "\",\"msg\":\"" ++
    JsonString.escape r.message ++ "\"\x7d"

/-- The record as a line, without the line feed. -/
def line (format : Format) (clock : Clock) (r : Record) : Text :=
  match format with
  | .text => clock.timeOfDay ++ " " ++ r.label
  | .json => r.toJson clock.milliseconds

end Record

end CrossDoc.Log
