import CrossDoc.Command.Options
import Mathlib.Data.List.Perm.Basic

/-!
# Arguments that two readers share

The options of logging and those of the command are read from one list of arguments,
each by a reader that passes over the arguments of the other.  What an argument asks
of logging is told by the argument alone (`Log.Options.Request`).  A request sets one
field, or raises the verbosity, so the order of the arguments counts only among those
that set the same field.
-/

namespace CrossDoc

namespace Log.Options

/-! ## Requests -/

/-- The fields of the logging options that an argument can set. -/
inductive Field where
  | level
  | filter
  | file
  | format
deriving DecidableEq, Repr

/-- What an argument asks of logging. -/
inductive Request where
  | level (level : Level)
  | filter (spec : Text)
  | file (path : Text)
  | format (format : Format)
  /-- So many letters of verbosity; they set no field while arguments are read. -/
  | verbosity (letters : Nat)
deriving DecidableEq, Repr

/-- The field that a request sets. -/
def Request.field? : Request → Option Field
  | .level _ => some .level
  | .filter _ => some .filter
  | .file _ => some .file
  | .format _ => some .format
  | .verbosity _ => none

/-- The reading after a request. -/
def Reading.answer (r : Reading) : Request → Reading
  | .level l => { r with options := { r.options with level := l }, hasLevel := true }
  | .filter spec => { r with options := { r.options with filterSpec := spec }, hasFilter := true }
  | .file path => { r with options := { r.options with logFile := path } }
  | .format f => { r with options := { r.options with format := f } }
  | .verbosity n => { r with verbosity := max r.verbosity n }

/-- The request of an argument; none if it has nothing to do with logging. -/
def request? (arg : Text) : Option Request :=
  match Text.dropPrefix? "--log-level=" arg with
  | some v => some (.level (Level.ofName v))
  | none =>
  match Text.dropPrefix? "--log-filter=" arg with
  | some v => some (.filter v)
  | none =>
  match Text.dropPrefix? "--log-file=" arg with
  | some v => some (.file v)
  | none =>
  match Text.dropPrefix? "--log-format=" arg with
  | some v => some (.format (Format.ofName v))
  | none =>
      if arg = "-q" ∨ arg = "--quiet" then some (.level .warn)
      else if arg = "--verbose" then some (.verbosity 1)
      else if 0 < verbosity arg then some (.verbosity (verbosity arg))
      else none

/-- The field that an argument sets. -/
def field? (arg : Text) : Option Field := (request? arg).bind Request.field?

theorem readArg_eq (r : Reading) (arg : Text) :
    readArg r arg = (request? arg).elim r r.answer := by
  unfold readArg request?
  cases Text.dropPrefix? "--log-level=" arg with
  | some v => rfl
  | none =>
  cases Text.dropPrefix? "--log-filter=" arg with
  | some v => rfl
  | none =>
  cases Text.dropPrefix? "--log-file=" arg with
  | some v => rfl
  | none =>
  cases Text.dropPrefix? "--log-format=" arg with
  | some v => rfl
  | none =>
      dsimp only
      split_ifs with hquiet hverbose hletters
      · rfl
      · rfl
      · rfl
      · rw [Nat.eq_zero_of_not_pos hletters, Nat.max_zero]
        rfl

/-- The test for logging options knows exactly the arguments with a request. -/
theorem isLogOption_eq (arg : Text) : isLogOption arg = (request? arg).isSome := by
  unfold isLogOption request? Text.startsWith
  cases Text.dropPrefix? "--log-level=" arg with
  | some v => rfl
  | none =>
  cases Text.dropPrefix? "--log-filter=" arg with
  | some v => rfl
  | none =>
  cases Text.dropPrefix? "--log-file=" arg with
  | some v => rfl
  | none =>
  cases Text.dropPrefix? "--log-format=" arg with
  | some v => rfl
  | none =>
      dsimp only
      split_ifs with hquiet hverbose hletters
      · rcases hquiet with rfl | rfl <;> rfl
      · subst hverbose
        rfl
      · simp [hletters]
      · obtain ⟨hshort, hlong⟩ := not_or.mp hquiet
        rw [beq_false_of_ne hshort, beq_false_of_ne hlong, beq_false_of_ne hverbose,
          decide_eq_false hletters]
        rfl

theorem readArg_of_not_isLogOption {arg : Text} (h : isLogOption arg = false) (r : Reading) :
    readArg r arg = r := by
  rw [isLogOption_eq, Option.isSome_eq_false_iff, Option.isNone_iff_eq_none] at h
  rw [readArg_eq, h]
  rfl

theorem pos_of_request? {arg : Text} {n : Nat} (h : request? arg = some (.verbosity n)) :
    0 < n := by
  unfold request? at h
  split at h
  · cases h
  split at h
  · cases h
  split at h
  · cases h
  split at h
  · cases h
  split_ifs at h with _ _ hletters
  · cases h
  · cases h
    exact Nat.one_pos
  · cases h
    exact hletters

/-- Every request changes some reading. -/
theorem exists_readArg_ne {arg : Text} (h : isLogOption arg = true) :
    ∃ r, readArg r arg ≠ r := by
  rw [isLogOption_eq] at h
  obtain ⟨q, hq⟩ := Option.isSome_iff_exists.mp h
  simp only [readArg_eq, hq, Option.elim_some]
  cases q with
  | level l => exact ⟨{}, fun h => by cases congrArg Reading.hasLevel h⟩
  | filter spec => exact ⟨{}, fun h => by cases congrArg Reading.hasFilter h⟩
  | file path =>
      refine ⟨{ options := { logFile := ' ' :: path } }, fun h => ?_⟩
      have hpath : path = ' ' :: path := congrArg (·.options.logFile) h
      exact List.cons_ne_self _ _ hpath.symm
  | format f =>
      cases f with
      | text => exact ⟨{ options := { format := .json } }, by decide⟩
      | json => exact ⟨{}, by decide⟩
  | verbosity n =>
      refine ⟨{}, fun h => ?_⟩
      have hn : max 0 n = 0 := congrArg Reading.verbosity h
      have hpos := pos_of_request? hq
      omega

/-! ## Fields -/

/-- What a reading knows of one field; all else is as at the start. -/
def Reading.only (r : Reading) : Field → Reading
  | .level => { options := { level := r.options.level }, hasLevel := r.hasLevel }
  | .filter => { options := { filterSpec := r.options.filterSpec }, hasFilter := r.hasFilter }
  | .file => { options := { logFile := r.options.logFile } }
  | .format => { options := { format := r.options.format } }

/-- An argument that does not set a field leaves all that is known of it. -/
theorem only_readArg_of_ne {arg : Text} {f : Field} (h : field? arg ≠ some f) (r : Reading) :
    (readArg r arg).only f = r.only f := by
  rw [readArg_eq]
  unfold field? at h
  cases hq : request? arg with
  | none => rfl
  | some q =>
      rw [hq] at h
      cases q <;> cases f <;> first | rfl | exact absurd rfl h

/-- What becomes known of a field rests on what was known of it. -/
theorem only_readArg_congr {r r' : Reading} {f : Field} (h : r.only f = r'.only f) (arg : Text) :
    (readArg r arg).only f = (readArg r' arg).only f := by
  have hreset : ∀ r : Reading, (readArg r arg).only f = (readArg (r.only f) arg).only f := by
    intro r
    rw [readArg_eq, readArg_eq]
    cases request? arg with
    | none => cases f <;> rfl
    | some q => cases q <;> cases f <;> rfl
  rw [hreset r, h, ← hreset]

theorem only_foldl_congr {f : Field} (args : List Text) {r r' : Reading}
    (h : r.only f = r'.only f) : (args.foldl readArg r).only f = (args.foldl readArg r').only f := by
  induction args generalizing r r' with
  | nil => exact h
  | cons arg rest ih => exact ih (only_readArg_congr h arg)

/-- The arguments that set a field decide what is read of it. -/
theorem only_foldl (f : Field) (args : List Text) (r : Reading) :
    (args.foldl readArg r).only f =
      ((args.filter fun arg => field? arg = some f).foldl readArg r).only f := by
  induction args generalizing r with
  | nil => rfl
  | cons arg rest ih =>
      rw [List.foldl_cons, ih, List.filter_cons]
      split
      · rfl
      · next h => exact only_foldl_congr _ (only_readArg_of_ne (by simpa using h) r)

/-- What no argument sets: all that is read beside the fields. -/
def Reading.beside (r : Reading) : Reading where
  options := { console := r.options.console, colors := r.options.colors }
  verbosity := r.verbosity

theorem Reading.eq_of_only {r r' : Reading} (hfields : ∀ f, r.only f = r'.only f)
    (hbeside : r.beside = r'.beside) : r = r' := by
  obtain ⟨⟨level, format, spec, file, console, colors⟩, hasLevel, hasFilter, letters⟩ := r
  obtain ⟨⟨level', format', spec', file', console', colors'⟩, hasLevel', hasFilter', letters'⟩ := r'
  have hlevel := hfields .level
  have hfilter := hfields .filter
  have hfile := hfields .file
  have hformat := hfields .format
  simp_all [Reading.only, Reading.beside]

/-- The verbosity that an argument asks for. -/
def letters (arg : Text) : Nat := (readArg {} arg).verbosity

def Reading.raise (r : Reading) (letters : Nat) : Reading :=
  { r with verbosity := max r.verbosity letters }

theorem beside_readArg (r : Reading) (arg : Text) :
    (readArg r arg).beside = r.beside.raise (letters arg) := by
  unfold letters
  rw [readArg_eq, readArg_eq]
  cases request? arg with
  | none => simp [Reading.raise]
  | some q => cases q <;> simp [Reading.answer, Reading.beside, Reading.raise]

theorem beside_foldl (args : List Text) (r : Reading) :
    (args.foldl readArg r).beside = (args.map letters).foldl Reading.raise r.beside := by
  induction args generalizing r with
  | nil => rfl
  | cons arg rest ih => rw [List.foldl_cons, ih, beside_readArg, List.map_cons, List.foldl_cons]

instance : RightCommutative Reading.raise where
  right_comm r m n := by simp [Reading.raise, Nat.max_assoc, Nat.max_comm m n]

/-! ## Rearranging arguments -/

/-- The arguments stand in another order, except that those which set one field keep theirs. -/
structure Rearranged (args args' : List Text) : Prop where
  perm : args.Perm args'
  fields : ∀ f : Field, (args.filter fun arg => field? arg = some f) =
    args'.filter fun arg => field? arg = some f

theorem Rearranged.foldl_eq {args args' : List Text} (h : Rearranged args args') (r : Reading) :
    args.foldl readArg r = args'.foldl readArg r := by
  apply Reading.eq_of_only
  · intro f
    rw [only_foldl, h.fields, ← only_foldl]
  · rw [beside_foldl, beside_foldl]
    exact (h.perm.map letters).foldl_eq r.beside

theorem ofArgs_filter (args : List Text) (env : Text) :
    ofArgs (args.filter isLogOption) env = ofArgs args env := by
  have hpasses : ∀ r arg,
      (if isLogOption arg = true then readArg r arg else r) = readArg r arg := by
    intro r arg
    cases h : isLogOption arg with
    | true => rfl
    | false => exact (readArg_of_not_isLogOption h r).symm
  rw [ofArgs, ofArgs, List.foldl_filter]
  simp only [hpasses]

end Log.Options

namespace CommandOptions

open Log.Options (isLogOption)

/-! ## What becomes of an argument -/

/-- Who reads an argument. -/
inductive Fate where
  | logging
  | command
  /-- It is an error of the command line. -/
  | reported
deriving DecidableEq, Repr

/-- What is said about an argument that nobody reads. -/
def unknownMessage (arg : Text) : Text := "unknown option '" ++ arg ++ "'"

/-- Somebody who reads an argument can be changed by it, and what is reported is
reported whatever has been read before. -/
def Fate.IsOf (arg : Text) : Fate → Prop
  | .logging => ∃ r, Log.Options.readArg r arg ≠ r
  | .command => ∃ o, { readArg o arg with errors := o.errors } ≠ o
  | .reported => ∀ o, readArg o arg = { o with errors := o.errors ++ [unknownMessage arg] }

/-- What an argument sets: a switch, an option with a value, or a source root. -/
def read? (o : CommandOptions) (arg : Text) : Option CommandOptions :=
  (o.readSwitch? arg).or ((o.readValue? arg).or
    (if isSource arg then some { o with sources := o.sources ++ [arg] } else none))

def fate (arg : Text) : Fate :=
  if isLogOption arg then .logging
  else if (read? {} arg).isSome then .command
  else .reported

theorem readArg_eq (o : CommandOptions) (arg : Text) :
    readArg o arg = if isLogOption arg then o
      else (o.read? arg).getD { o with errors := o.errors ++ [unknownMessage arg] } := by
  unfold readArg read?
  cases o.readSwitch? arg with
  | some o' => rfl
  | none =>
  cases o.readValue? arg with
  | some o' => rfl
  | none => cases isSource arg <;> rfl

/-- What a switch or a value sets, and that it reports nothing. -/
theorem errors_of_readSwitch? {o o' : CommandOptions} {arg : Text}
    (h : o.readSwitch? arg = some o') : o'.errors = o.errors := by
  unfold readSwitch? at h
  split_ifs at h <;> cases h <;> rfl

theorem errors_of_readValue? {o o' : CommandOptions} {arg : Text}
    (h : o.readValue? arg = some o') : o'.errors = o.errors := by
  unfold readValue? at h
  dsimp only at h
  split_ifs at h <;> cases h <;> rfl

/-- Whether an argument is a switch does not depend on the options. -/
theorem isSome_readSwitch? (o o' : CommandOptions) (arg : Text) :
    (o.readSwitch? arg).isSome = (o'.readSwitch? arg).isSome := by
  unfold readSwitch?
  split_ifs <;> rfl

theorem isSome_readValue? (o o' : CommandOptions) (arg : Text) :
    (o.readValue? arg).isSome = (o'.readValue? arg).isSome := by
  unfold readValue?
  dsimp only
  split_ifs <;> rfl

theorem exists_readSwitch?_ne {arg : Text} (h : (readSwitch? {} arg).isSome = true) :
    ∃ o o', readSwitch? o arg = some o' ∧ o' ≠ o := by
  obtain ⟨o', ho'⟩ := Option.isSome_iff_exists.mp h
  refine ⟨{}, o', ho', ?_⟩
  unfold readSwitch? at ho'
  split_ifs at ho' <;> cases ho' <;> decide

theorem exists_readValue?_ne {arg : Text} (h : (readValue? {} arg).isSome = true) :
    ∃ o o', readValue? o arg = some o' ∧ o' ≠ o := by
  -- Options that hold something else than the value are changed by it.
  let other : Text := '=' :: (arg.dropWhile (· != '=')).drop 1
  let o : CommandOptions := { configFile := other, moduleName := other, platform := other }
  have hother : (arg.dropWhile (· != '=')).drop 1 ≠ other := (List.cons_ne_self _ _).symm
  rw [isSome_readValue? _ o] at h
  obtain ⟨o', ho'⟩ := Option.isSome_iff_exists.mp h
  refine ⟨o, o', ho', ?_⟩
  unfold readValue? at ho'
  dsimp only at ho'
  split_ifs at ho' <;> cases ho' <;> intro heq
  · exact hother (congrArg configFile heq)
  · cases congrArg outputDir heq
  · cases congrArg format heq
  · exact hother (congrArg moduleName heq)
  · cases congrArg sources heq
  · cases congrArg classpath heq
  · exact hother (congrArg platform heq)

theorem errors_of_read? {o o' : CommandOptions} {arg : Text} (h : o.read? arg = some o') :
    o'.errors = o.errors := by
  simp only [read?, Option.or_eq_some_iff] at h
  rcases h with h | ⟨-, h | ⟨-, h⟩⟩
  · exact errors_of_readSwitch? h
  · exact errors_of_readValue? h
  · split_ifs at h
    cases h
    rfl

theorem isSome_read? (o o' : CommandOptions) (arg : Text) :
    (o.read? arg).isSome = (o'.read? arg).isSome := by
  simp only [read?, Option.isSome_or, isSome_readSwitch? o o', isSome_readValue? o o']
  cases isSource arg <;> rfl

/-- An argument of the command changes some options. -/
theorem exists_read?_ne {arg : Text} (h : (read? {} arg).isSome = true) :
    ∃ o o', read? o arg = some o' ∧ o' ≠ o := by
  cases hswitch : (readSwitch? {} arg).isSome with
  | true =>
      obtain ⟨o, o', ho', hne⟩ := exists_readSwitch?_ne hswitch
      exact ⟨o, o', by rw [read?, ho', Option.some_or], hne⟩
  | false =>
  have hnone : ∀ o, readSwitch? o arg = none := fun o => by
    rw [← Option.isNone_iff_eq_none, ← Option.isSome_eq_false_iff, isSome_readSwitch? o {}, hswitch]
  cases hvalue : (readValue? {} arg).isSome with
  | true =>
      obtain ⟨o, o', ho', hne⟩ := exists_readValue?_ne hvalue
      exact ⟨o, o', by rw [read?, hnone, ho', Option.none_or, Option.some_or], hne⟩
  | false =>
  have hsource : isSource arg = true := by
    rw [read?, Option.isSome_or, Option.isSome_or, hswitch, hvalue] at h
    cases hs : isSource arg with
    | true => rfl
    | false =>
        rw [hs] at h
        cases h
  rw [Option.isSome_eq_false_iff, Option.isNone_iff_eq_none] at hvalue
  refine ⟨{}, { sources := [arg] }, ?_, nofun⟩
  rw [read?, hnone, hvalue, if_pos hsource]
  rfl

/-! ## One reader for each argument -/

theorem readArg_of_logging {arg : Text} (h : isLogOption arg = true) (o : CommandOptions) :
    readArg o arg = o := by
  rw [readArg_eq, if_pos h]

theorem fate_logging_iff {arg : Text} : fate arg = .logging ↔ isLogOption arg = true := by
  unfold fate
  split_ifs with hlog hread <;> simp [hlog]

theorem readArg_of_command {arg : Text} (h : fate arg = .command) (o : CommandOptions) :
    ∃ o', o.read? arg = some o' ∧ readArg o arg = o' := by
  unfold fate at h
  split_ifs at h with hlog hread
  rw [isSome_read? _ o] at hread
  obtain ⟨o', ho'⟩ := Option.isSome_iff_exists.mp hread
  exact ⟨o', ho', by rw [readArg_eq, if_neg hlog, ho', Option.getD_some]⟩

theorem readArg_of_reported {arg : Text} (h : fate arg = .reported) (o : CommandOptions) :
    readArg o arg = { o with errors := o.errors ++ [unknownMessage arg] } := by
  unfold fate at h
  split_ifs at h with hlog hread
  rw [isSome_read? _ o, Option.not_isSome_iff_eq_none] at hread
  rw [readArg_eq, if_neg hlog, hread, Option.getD_none]

theorem isOf_fate (arg : Text) : (fate arg).IsOf arg := by
  cases h : fate arg with
  | logging => exact Log.Options.exists_readArg_ne (fate_logging_iff.mp h)
  | command =>
      have hread : (read? {} arg).isSome = true := by
        obtain ⟨o', ho', -⟩ := readArg_of_command h {}
        rw [ho']
        rfl
      obtain ⟨o, o', ho', hne⟩ := exists_read?_ne hread
      obtain ⟨o'', ho'', hreadArg⟩ := readArg_of_command h o
      obtain rfl := Option.some.inj (ho'.symm.trans ho'')
      refine ⟨o, ?_⟩
      rw [hreadArg, ← errors_of_read? ho']
      exact hne
  | reported => exact readArg_of_reported h

/-- Nothing else becomes of an argument. -/
theorem eq_fate_of_isOf {arg : Text} {f : Fate} (h : f.IsOf arg) : f = fate arg := by
  cases f with
  | logging =>
      obtain ⟨r, hr⟩ := h
      refine (fate_logging_iff.mpr ?_).symm
      by_contra hlog
      exact hr (Log.Options.readArg_of_not_isLogOption (Bool.not_eq_true _ ▸ hlog) r)
  | command =>
      obtain ⟨o, ho⟩ := h
      cases hfate : fate arg with
      | logging =>
          rw [readArg_of_logging (fate_logging_iff.mp hfate)] at ho
          exact absurd rfl ho
      | command => rfl
      | reported =>
          rw [readArg_of_reported hfate] at ho
          exact absurd rfl ho
  | reported =>
      have herrors : (readArg {} arg).errors = [unknownMessage arg] := congrArg errors (h {})
      cases hfate : fate arg with
      | logging =>
          rw [readArg_of_logging (fate_logging_iff.mp hfate)] at herrors
          cases herrors
      | command =>
          obtain ⟨o', ho', hread⟩ := readArg_of_command hfate {}
          rw [hread, errors_of_read? ho'] at herrors
          cases herrors
      | reported => rfl

theorem errors_foldl (args : List Text) (o : CommandOptions) :
    (args.foldl readArg o).errors =
      o.errors ++ (args.filter fun arg => fate arg = .reported).map unknownMessage := by
  induction args generalizing o with
  | nil => simp
  | cons arg rest ih =>
      rw [List.foldl_cons, ih, List.filter_cons]
      cases hfate : fate arg with
      | logging => rw [readArg_of_logging (fate_logging_iff.mp hfate)]; rfl
      | command =>
          obtain ⟨o', ho', hread⟩ := readArg_of_command hfate o
          rw [hread, errors_of_read? ho']
          rfl
      | reported =>
          rw [readArg_of_reported hfate]
          simp

/-! ## Both readers -/

theorem ofArgs_filter (args : List Text) :
    ofArgs (args.filter fun arg => !isLogOption arg) = ofArgs args := by
  have hpasses : ∀ o arg,
      (if (!isLogOption arg) = true then readArg o arg else o) = readArg o arg := by
    intro o arg
    cases h : isLogOption arg with
    | true => exact (readArg_of_logging h o).symm
    | false => rfl
  rw [ofArgs, ofArgs, List.foldl_filter]
  simp only [hpasses]

/-- The readers of logging and of the command share some arguments without overlap. -/
structure ReadersShare (args : List Text) : Prop where
  /-- The command does without the arguments of logging. -/
  command : ofArgs (args.filter fun arg => !isLogOption arg) = ofArgs args
  /-- Logging does without all others. -/
  logging : ∀ env, Log.Options.ofArgs (args.filter isLogOption) env = Log.Options.ofArgs args env
  /-- One thing becomes of each argument, and what concerns logging is told by the test for it. -/
  fates : ∀ arg ∈ args, (∀ f : Fate, f.IsOf arg ↔ f = fate arg) ∧
    (fate arg = .logging ↔ isLogOption arg = true)
  /-- The unknown arguments are reported in their order, and nothing else is. -/
  reported : (ofArgs args).errors =
    (args.filter fun arg => fate arg = .reported).map unknownMessage
  /-- The order counts only among arguments that set the same field. -/
  rearranged : ∀ args' env, Log.Options.Rearranged args args' →
    Log.Options.ofArgs args' env = Log.Options.ofArgs args env

open Log.Options in
/-- Verbosity, a file and a level may stand in any order. -/
example : Rearranged ["-vv", "src", "--log-level=error", "--log-file=run.log"]
    ["--log-file=run.log", "--log-level=error", "-vv", "src"] :=
  ⟨by decide, fun f => by cases f <;> decide⟩

/-- Of two arguments for the level the last one counts. -/
example : Log.Options.ofArgs ["-q", "--log-level=error"] [] ≠
    Log.Options.ofArgs ["--log-level=error", "-q"] [] := by
  decide

end CommandOptions

end CrossDoc
