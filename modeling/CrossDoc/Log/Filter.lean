import CrossDoc.Log.Level

/-!
# Log filters

A filter holds a level for some modules and one for all others.  It is
written as `merge=trace,render=debug,*=warn`; a module without a level is
traced.
-/

namespace CrossDoc.Log

/-- The lowest level each module logs. -/
structure Filter where
  default : Level := .info
  modules : List (Text × Level) := []
deriving DecidableEq, Repr, Inhabited

namespace Filter

/-- The level of a module that has one of its own. -/
def level? (f : Filter) (module : Text) : Option Level :=
  (f.modules.find? fun e => e.1 == module).map Prod.snd

/-- Sets the level of one module. -/
def assign (f : Filter) (module : Text) (level : Level) : Filter :=
  { f with
    modules := (f.modules.filter fun e => e.1 != module) ++ [(module, level)] }

/-- What one piece of a filter text says. -/
def readToken (f : Filter) (token : Text) : Filter :=
  if token.contains '=' then
    let module := token.takeWhile (· != '=')
    let level := Level.ofName ((token.dropWhile (· != '=')).drop 1)
    if module = ['*'] then { f with default := level }
    else f.assign module level
  else if token.isEmpty then f
  else f.assign token .trace

/-- Replaces the levels of all modules by those of a filter text.  The level
of all other modules stays unless the text sets it. -/
def parse (f : Filter) (spec : Text) : Filter :=
  (Text.splitAt ',' spec).foldl readToken { f with modules := [] }

/-- The lowest level a module logs. -/
def levelOf (f : Filter) (module : Text) : Level :=
  (f.level? module).getD f.default

def shouldLog (f : Filter) (level : Level) (module : Text) : Bool :=
  f.levelOf module ≤ level

/-- The lowest level that any module logs. -/
def minLevel (f : Filter) : Level :=
  f.modules.foldl (fun low e => low.min e.2) f.default

end Filter

end CrossDoc.Log
