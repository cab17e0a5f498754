import CrossDoc.Files.Disk
import CrossDoc.Log.Filter
import CrossDoc.Log.Options

/-!
# The logger

A logger decides by its level and its filter which records it takes, and hands
them to its sinks: standard error, files, or memory.  Writing is described by
its result: the sinks and the `Outlet` after it.  A file sink gathers lines and
adds them to its file when it is flushed: by an error, and at the latest when it
is removed.
-/

namespace CrossDoc.Log

/-- A destination of records. -/
inductive Sink where
  | console (format : Format)
  /-- Appends to a file; holds the lines since the last flush, the last one
  first. -/
  | file (path : Text) (format : Format) (held : List Text)
  /-- Keeps the records in memory, under a number. -/
  | capture (number : Nat) (records : List Record)
  | discard
  /-- Hands each record to all of its sinks. -/
  | group (sinks : List Sink)
deriving Repr, Inhabited

/-- Where sinks write: standard error and the disk. -/
structure Outlet where
  /-- What standard error was given, the last piece first. -/
  printed : List Text := []
  disk : Disk := {}
deriving DecidableEq, Repr, Inhabited

namespace Outlet

def print (t : Text) (out : Outlet) : Outlet := { out with printed := t :: out.printed }

/-- All that was written to standard error. -/
def stderr (out : Outlet) : Text := out.printed.reverse.flatten

end Outlet

namespace Sink

mutual

/-- The sink and the outlet after a flush. -/
def flush : Sink → Outlet → Sink × Outlet
  | .file path format held, out =>
      let disk := (out.disk.append path held.reverse.flatten).toOption
      (.file path format [], { out with disk := disk.getD out.disk })
  | .group sinks, out =>
      let (sinks, out) := flushAll sinks out
      (.group sinks, out)
  | s, out => (s, out)

def flushAll : List Sink → Outlet → List Sink × Outlet
  | [], out => ([], out)
  | s :: rest, out =>
      let (s, out) := flush s out
      let (rest, out) := flushAll rest out
      (s :: rest, out)

end

mutual

/-- The sink and the outlet after a record. -/
def write (clock : Clock) (r : Record) : Sink → Outlet → Sink × Outlet
  | .console format, out => (.console format, out.print (r.line format clock ++ "\n"))
  | .file path format held, out =>
      let s := .file path format ((r.line format clock ++ "\n") :: held)
      if .error ≤ r.level then flush s out else (s, out)
  | .capture number records, out => (.capture number (records ++ [r]), out)
  | .discard, out => (.discard, out)
  | .group sinks, out =>
      let (sinks, out) := writeAll clock r sinks out
      (.group sinks, out)

def writeAll (clock : Clock) (r : Record) : List Sink → Outlet → List Sink × Outlet
  | [], out => ([], out)
  | s :: rest, out =>
      let (s, out) := write clock r s out
      let (rest, out) := writeAll clock r rest out
      (s :: rest, out)

end

mutual

/-- The captures of a sink with their numbers, in order. -/
def captures : Sink → List (Nat × List Record)
  | .capture number records => [(number, records)]
  | .group sinks => capturesAll sinks
  | .console _ | .file _ _ _ | .discard => []

def capturesAll : List Sink → List (Nat × List Record)
  | [] => []
  | s :: rest => s.captures ++ capturesAll rest

end

mutual

/-- Empties the capture of a number. -/
def clear (n : Nat) : Sink → Sink
  | .capture number records => .capture number (if number = n then [] else records)
  | .group sinks => .group (clearAll n sinks)
  | .console format => .console format
  | .file path format held => .file path format held
  | .discard => .discard

def clearAll (n : Nat) : List Sink → List Sink
  | [] => []
  | s :: rest => s.clear n :: clearAll n rest

end

end Sink

/-- Takes records of its level and filter. -/
structure Logger where
  level : Level := .info
  filter : Filter := {}
  sinks : List Sink := []
deriving Repr, Inhabited

namespace Logger

/-- The logger of a fresh process writes to standard error. -/
def fresh : Logger := { sinks := [.console .text] }

def setLevel (l : Logger) (level : Level) : Logger :=
  { l with level := level, filter := { l.filter with default := level } }

def setFilter (l : Logger) (spec : Text) : Logger :=
  let filter := l.filter.parse spec
  { l with level := filter.minLevel, filter := filter }

def shouldLog (l : Logger) (level : Level) (module : Text) : Bool :=
  l.level ≤ level && l.filter.shouldLog level module

def addSink (l : Logger) (s : Sink) : Logger := { l with sinks := l.sinks ++ [s] }

def flush (l : Logger) (out : Outlet) : Logger × Outlet :=
  let (sinks, out) := Sink.flushAll l.sinks out
  ({ l with sinks := sinks }, out)

/-- Flushes the sinks and removes them. -/
def clearSinks (l : Logger) (out : Outlet) : Logger × Outlet :=
  ({ l with sinks := [] }, (l.flush out).2)

/-- The captures of all sinks, in order. -/
def captures (l : Logger) : List (Nat × List Record) := Sink.capturesAll l.sinks

def clearCapture (l : Logger) (n : Nat) : Logger :=
  { l with sinks := Sink.clearAll n l.sinks }

/-- Adds a sink with `n` captures, numbered on from those there are. -/
def addCaptures (l : Logger) (n : Nat) : Logger :=
  let first := l.captures.length
  l.addSink (.group ((List.range n).map fun i => .capture (first + i) []))

/-- Some record of a module in a capture holds a text. -/
def capturedContains (l : Logger) (n : Nat) (module needle : Text) : Bool :=
  l.captures.any fun c =>
    c.1 == n && c.2.any fun r => r.module == module && Text.holds needle r.message

/-- Hands a record to the sinks if the logger takes it. -/
def log (clock : Clock) (r : Record) (l : Logger) (out : Outlet) : Logger × Outlet :=
  if l.shouldLog r.level r.module then
    let (sinks, out) := Sink.writeAll clock r l.sinks out
    ({ l with sinks := sinks }, out)
  else (l, out)

def logAll (clock : Clock) (rs : List Record) (l : Logger) (out : Outlet) : Logger × Outlet :=
  rs.foldl (fun (l, out) r => l.log clock r out) (l, out)

/-! ## Setting up -/

/-- The level and filter of some options.  A filter text replaces the module
levels; the level of all other modules is then the lower of that of the
options and that of the filter. -/
def configure (l : Logger) (o : Options) : Logger :=
  if o.filterSpec.isEmpty then
    { l with level := o.level, filter := { l.filter with default := o.level } }
  else
    let parsed := l.filter.parse o.filterSpec
    let filter := { parsed with default := parsed.default.min o.level }
    { l with level := filter.minLevel, filter := filter }

/-- Replaces sinks, level and filter.  A log file is created at once; one that
cannot be opened is reported on standard error and left out. -/
def init (o : Options) (l : Logger) (out : Outlet) : Logger × Outlet :=
  let (l, out) := (l.configure o).clearSinks out
  let l := if o.console then l.addSink (.console o.format) else l
  if o.logFile.isEmpty then (l, out)
  else match out.disk.append o.logFile [] with
    | .ok disk => (l.addSink (.file o.logFile o.format []), { out with disk := disk })
    | .error _ => (l, out.print ("warning: could not open log file: " ++ o.logFile ++ "\n"))

end Logger

end CrossDoc.Log
