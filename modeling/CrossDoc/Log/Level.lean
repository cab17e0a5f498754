import CrossDoc.Text

/-!
# Log levels
-/

namespace CrossDoc.Log

/-- The levels in ascending order; `off` stands above all messages. -/
inductive Level where
  | trace
  | debug
  | info
  | warn
  | error
  | fatal
  | off
deriving DecidableEq, Repr, Inhabited

namespace Level

def rank : Level → Nat
  | .trace => 0
  | .debug => 1
  | .info => 2
  | .warn => 3
  | .error => 4
  | .fatal => 5
  | .off => 6

instance : LE Level := ⟨fun a b => a.rank ≤ b.rank⟩

instance : LT Level := ⟨fun a b => a.rank < b.rank⟩

instance (a b : Level) : Decidable (a ≤ b) :=
  inferInstanceAs (Decidable (a.rank ≤ b.rank))

instance (a b : Level) : Decidable (a < b) :=
  inferInstanceAs (Decidable (a.rank < b.rank))

def min (a b : Level) : Level := if b < a then b else a

def name : Level → Text
  | .trace => "TRACE"
  | .debug => "DEBUG"
  | .info => "INFO"
  | .warn => "WARN"
  | .error => "ERROR"
  | .fatal => "FATAL"
  | .off => "OFF"

/-- Reads a level name, all lower or all upper case.  Any other name stands
for `info`. -/
def ofName (t : Text) : Level :=
  if t = "trace" ∨ t = "TRACE" then .trace
  else if t = "debug" ∨ t = "DEBUG" then .debug
  else if t = "info" ∨ t = "INFO" then .info
  else if t = "warn" ∨ t = "WARN" ∨ t = "warning" then .warn
  else if t = "error" ∨ t = "ERROR" then .error
  else if t = "fatal" ∨ t = "FATAL" then .fatal
  else if t = "off" ∨ t = "OFF" then .off
  else .info

end Level

end CrossDoc.Log
