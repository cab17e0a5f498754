import CrossDoc.Log.Logger
import CrossDoc.Proofs.DecimalNumbers
import CrossDoc.Proofs.TextPieces
import CrossDoc.Proofs.WrittenJson

/-!
# What a JSON log says

In JSON form a record is one line and stands for one value, an object with four members,
whatever bytes its module and its message have.  Reading the line gives back the time, the name
of the level, the module and the message, so a log is read line by line.
-/

namespace CrossDoc

namespace Log

open JsonValue

/-- What one line of a JSON log says. -/
structure Entry where
  milliseconds : Int
  level : Text
  module : Text
  message : Text
deriving DecidableEq, Repr

namespace Entry

def value (e : Entry) : JsonValue :=
  .object
    [("ts", .number (Text.ofInt e.milliseconds)), ("level", .string e.level),
      ("module", .string e.module), ("msg", .string e.message)]

def ofValue? (v : JsonValue) : Option Entry := do
  return {
    milliseconds := ← (← v.field? "ts").integer?
    level := ← (← v.field? "level").text?
    module := ← (← v.field? "module").text?
    message := ← (← v.field? "msg").text? }

def ofJson? (t : Text) : Option Entry := do ofValue? (← JsonValue.decode? t)

theorem ofValue?_value (e : Entry) : ofValue? e.value = some e := by
  have hts : e.value.field? "ts" = some (.number (Text.ofInt e.milliseconds)) := rfl
  have hlevel : e.value.field? "level" = some (.string e.level) := rfl
  have hmodule : e.value.field? "module" = some (.string e.module) := rfl
  have hmessage : e.value.field? "msg" = some (.string e.message) := rfl
  simp only [ofValue?, hts, hlevel, hmodule, hmessage, integer?, text?, Text.toInt?_ofInt,
    Option.bind_eq_bind, Option.bind_some, pure]

theorem ofJson?_of_isJson {t : Text} {e : Entry} (h : IsJson t e.value) : ofJson? t = some e := by
  rw [ofJson?, decode?_of_isJson h]
  exact ofValue?_value e

end Entry

namespace Record

/-- What a record says when it is written at some time. -/
def entry (milliseconds : Int) (r : Record) : Entry :=
  { milliseconds := milliseconds, level := r.level.name, module := r.module, message := r.message }

/-! ## The line -/

/-- The members of the line, as they are written. -/
def fields (milliseconds : Int) (r : Record) : List Text :=
  [JsonString.quoted "ts" ++ ":" ++ Text.ofInt milliseconds,
    JsonString.quoted "level" ++ ":" ++ JsonString.quoted r.level.name,
    JsonString.quoted "module" ++ ":" ++ JsonString.quoted r.module,
    JsonString.quoted "msg" ++ ":" ++ JsonString.quoted r.message]

theorem escape_name (l : Level) : JsonString.escape l.name = l.name := by cases l <;> decide

theorem toJson_eq (milliseconds : Int) (r : Record) :
    r.toJson milliseconds = '\x7b' :: (Text.join "," (r.fields milliseconds) ++ ['\x7d']) := by
  have hts : JsonString.quoted "ts" = "\"ts\"".toList := by decide
  have hlevel : JsonString.quoted "level" = "\"level\"".toList := by decide
  have hmodule : JsonString.quoted "module" = "\"module\"".toList := by decide
  have hmessage : JsonString.quoted "msg" = "\"msg\"".toList := by decide
  have hname : JsonString.quoted r.level.name = '"' :: r.level.name ++ ['"'] := by
    rw [JsonString.quoted, escape_name]
  -- `delta`, since `unfold` would compute the literals to make an equation
  delta toJson
  simp only [fields, Text.join, hts, hlevel, hmodule, hmessage, hname]
  simp [JsonString.quoted]

theorem isJson_toJson (milliseconds : Int) (r : Record) :
    IsJson (r.toJson milliseconds) (r.entry milliseconds).value := by
  have hnone : IsBlank [] := nofun
  have hts : IsValue (Text.ofInt milliseconds) (.number (Text.ofInt milliseconds)) :=
    .number (isNumber_ofInt milliseconds)
  have hfields : List.Forall₂ (Indented (IsMember IsValue)) (r.fields milliseconds)
      [("ts", .number (Text.ofInt milliseconds)), ("level", .string r.level.name),
        ("module", .string r.module), ("msg", .string r.message)] :=
    .cons (.of (IsMember.quoted "ts" hnone hts))
      (.cons (.of (IsMember.quoted "level" hnone (isValue_quoted r.level.name)))
        (.cons (.of (IsMember.quoted "module" hnone (isValue_quoted r.module)))
          (.cons (.of (IsMember.quoted "msg" hnone (isValue_quoted r.message))) .nil)))
  have hjoined := IsValue.object (IsEnclosed.join hnone hnone hfields)
  rw [List.append_nil] at hjoined
  rw [toJson_eq]
  exact ⟨[], _, [], hnone, hjoined, hnone, by simp⟩

theorem le_of_mem_member (key : Text) {s : Text} (hs : ∀ c ∈ s, 32 ≤ c.toNat) :
    ∀ c ∈ JsonString.quoted key ++ ":" ++ s, 32 ≤ c.toNat :=
  List.forall_mem_append.mpr
    ⟨List.forall_mem_append.mpr ⟨JsonString.le_of_mem_quoted key, by simp⟩, hs⟩

/-- The line has no control characters. -/
theorem le_of_mem_toJson {milliseconds : Int} {r : Record} {c : Char}
    (hc : c ∈ r.toJson milliseconds) : 32 ≤ c.toNat := by
  have hfields : ∀ f ∈ r.fields milliseconds, ∀ c ∈ f, 32 ≤ c.toNat := by
    simp only [fields, List.forall_mem_cons]
    exact ⟨le_of_mem_member "ts" (Text.le_of_mem_ofInt milliseconds),
      le_of_mem_member "level" (JsonString.le_of_mem_quoted r.level.name),
      le_of_mem_member "module" (JsonString.le_of_mem_quoted r.module),
      le_of_mem_member "msg" (JsonString.le_of_mem_quoted r.message), nofun⟩
  rw [toJson_eq, List.mem_cons, List.mem_append, List.mem_singleton] at hc
  rcases hc with rfl | hc | rfl
  · decide
  · rcases Text.exists_of_mem_join hc with hsep | ⟨f, hf, hcf⟩
    · obtain rfl := List.mem_singleton.mp hsep
      decide
    · exact hfields f hf c hcf
  · decide

theorem lineFeed_not_mem_toJson (milliseconds : Int) (r : Record) : '\n' ∉ r.toJson milliseconds :=
  fun h => absurd (le_of_mem_toJson h) (by decide)

/-- **Escaping is faithful, and so is a record in JSON form.**  Escaped text is read back, has no
control characters and no bare quote.  A record in JSON form is one line.  The line stands for
the object of the time, the name of the level, the module and the message and for no other value,
and these four are read back from it. -/
theorem line_json_faithful :
    (∀ t : Text, JsonString.unescape (JsonString.escape t) = some t ∧
      (∀ c ∈ JsonString.escape t, 32 ≤ c.toNat) ∧
      JsonString.IsWithoutBareQuote (JsonString.escape t)) ∧
    ∀ (clock : Clock) (r : Record),
      Text.lines (r.line .json clock) = [r.line .json clock] ∧
      (∀ v, IsJson (r.line .json clock) v ↔ v = (r.entry clock.milliseconds).value) ∧
      Entry.ofJson? (r.line .json clock) = some (r.entry clock.milliseconds) := by
  refine ⟨fun t => ⟨JsonString.unescape_escape t, fun c => JsonString.le_of_mem_escape,
    JsonString.isWithoutBareQuote_escape t⟩, fun clock r => ?_⟩
  have hvalue := isJson_toJson clock.milliseconds r
  have hne : r.toJson clock.milliseconds ≠ [] := by
    rw [toJson_eq]
    exact List.cons_ne_nil _ _
  exact ⟨Text.lines_of_not_mem (lineFeed_not_mem_toJson clock.milliseconds r) hne,
    fun v => hvalue.iff_eq, Entry.ofJson?_of_isJson hvalue⟩

example : Entry.ofJson?
    "\x7b\"ts\":7,\"level\":\"INFO\",\"module\":\"render\",\"msg\":\"tab\\there\\u0001\"\x7d" =
      some (entry 7 ⟨.info, "render", "tab\there\x01"⟩) := by decide +kernel

end Record

/-! ## The log -/

namespace Sink

/-- The sink and the outlet after some records, each with the time at which it
is written. -/
def writeRun (s : Sink) (out : Outlet) (rs : List (Clock × Record)) : Sink × Outlet :=
  rs.foldl (fun st e => st.1.write e.1 e.2 st.2) (s, out)

theorem stderr_print (t : Text) (out : Outlet) : (out.print t).stderr = out.stderr ++ t := by
  simp [Outlet.print, Outlet.stderr]

theorem stderr_writeRun_console (format : Format) : ∀ (rs : List (Clock × Record)) (out : Outlet),
    (writeRun (.console format) out rs).2.stderr =
      out.stderr ++ (rs.map fun e => e.2.line format e.1).flatMap (· ++ ['\n'])
  | [], out => (List.append_nil out.stderr).symm
  | e :: rs, out => by
      have hrest := stderr_writeRun_console format rs (out.print (e.2.line format e.1 ++ "\n"))
      rw [stderr_print] at hrest
      rw [List.map_cons, List.flatMap_cons, ← List.append_assoc]
      exact hrest

/-- **A JSON log is read line by line.**  The lines of what the console was given stand for the
records in their order, whatever line feeds and quotes the messages have. -/
theorem mapM_ofJson?_lines (rs : List (Clock × Record)) :
    (Text.lines (writeRun (.console .json) {} rs).2.stderr).mapM Entry.ofJson? =
      some (rs.map fun e => e.2.entry e.1.milliseconds) := by
  have hlines : ∀ l ∈ rs.map fun e => e.2.line .json e.1, '\n' ∉ l :=
    List.forall_mem_map.mpr fun e _ => e.2.lineFeed_not_mem_toJson e.1.milliseconds
  have hread : (fun e : Clock × Record => Entry.ofJson? (e.2.line .json e.1)) =
      fun e => some (e.2.entry e.1.milliseconds) :=
    funext fun e => Entry.ofJson?_of_isJson (e.2.isJson_toJson e.1.milliseconds)
  have hfresh : ({} : Outlet).stderr = [] := rfl
  rw [stderr_writeRun_console, hfresh, List.nil_append, Text.lines_flatMap hlines, List.mapM_map]
  simp only [Function.comp_def, hread]
  exact List.mapM_pure

end Sink

end Log

end CrossDoc
