import CrossDoc.Config.Reader
import CrossDoc.Proofs.DecimalNumbers

/-!
# The written form of a configuration

A configuration is written table by table: first what concerns the whole run,
then each pass with its package options, source links and external links.  A
table has a header and one line for each of its keys.  Whatever a string holds,
reading a written value gives the value back and stops right behind it.
-/

namespace CrossDoc

/-! ## Words -/

namespace Cursor

variable {p : Char → Bool} {word : Text} {x : Char}

/-- The characters of a class are those in front of the first one outside it. -/
theorem takeWhile_word (hword : ∀ c ∈ word, p c = true) (hx : p x = false) (rest : Text) :
    (word ++ x :: rest).takeWhile p = word := by
  rw [List.takeWhile_append_of_pos hword, List.takeWhile_cons_of_neg (by simp [hx]),
    List.append_nil]

theorem skip_word (hword : ∀ c ∈ word, p c = true) (hx : p x = false) (rest : Text) (line : Nat) :
    Cursor.skip p ⟨word ++ x :: rest, line⟩ = ⟨x :: rest, line⟩ := by
  rw [Cursor.skip, List.dropWhile_append_of_pos hword, List.dropWhile_cons_of_neg (by simp [hx])]

end Cursor

/-! ## Values -/

namespace ConfigValue

/-- A character between quotes. -/
def escape (c : Char) : Text :=
  if c = '\\' then ['\\', '\\']
  else if c = '"' then ['\\', '"']
  else if c = '\n' then ['\\', 'n']
  else [c]

def quote (t : Text) : Text := '"' :: (t.flatMap escape ++ ['"'])

def write : ConfigValue → Text
  | .text t => quote t
  | .list ts => '[' :: (Text.join ", " (ts.map quote) ++ [']'])
  | .boolean true => "true"
  | .boolean false => "false"
  | .integer n => Text.ofInt n

/-- Integers have a range; everything else can be written. -/
def IsWritable : ConfigValue → Prop
  | .integer n => isIntegerRange n = true
  | .text _ | .list _ | .boolean _ => True

/-! ### Strings -/

theorem readString_escaped (t rest : Text) (line : Nat) :
    readString (t.flatMap escape ++ '"' :: rest) line = .ok (t, ⟨rest, line⟩) := by
  induction t with
  | nil => simp [readString]
  | cons c t ih =>
      rw [List.flatMap_cons, List.append_assoc]
      by_cases hbackslash : c = '\\'
      · subst hbackslash
        simp [escape, readString, unescape?, ih, Except.map]
      by_cases hquote : c = '"'
      · subst hquote
        simp [escape, readString, unescape?, ih, Except.map]
      by_cases hnewline : c = '\n'
      · subst hnewline
        simp [escape, readString, unescape?, ih, Except.map]
      · simp [escape, hbackslash, hquote, hnewline, readString, ih, Except.map]

/-! ### Arrays -/

theorem readItems_space (fuel : Nat) (rest : Text) (line : Nat) :
    readItems fuel ⟨' ' :: rest, line⟩ = readItems fuel ⟨rest, line⟩ := by
  cases fuel <;> rfl

theorem quote_append (t rest : Text) :
    quote t ++ rest = '"' :: (t.flatMap escape ++ '"' :: rest) := by
  simp [quote]

/-- A string of an array, with what is done behind it. -/
theorem readItems_quote (fuel : Nat) (t rest : Text) (line : Nat) :
    readItems (fuel + 1) ⟨quote t ++ rest, line⟩ =
      (let c := (⟨rest, line⟩ : Cursor).skipSpace
       if c.peek = ',' then (readItems fuel c.advance).map fun (items, c) => (t :: items, c)
       else if c.peek = ']' then .ok ([t], c.advance)
       else c.fail .arraySeparator) := by
  rw [quote_append]
  change (readString (t.flatMap escape ++ '"' :: rest) line >>= _) = _
  rw [readString_escaped]
  dsimp only [bind, Except.bind]
  split
  · cases readItems fuel (Cursor.advance _) <;> rfl
  · rfl

theorem readItems_join : ∀ {ts : List Text} {fuel : Nat} (rest : Text) (line : Nat),
    ts.length < fuel →
      readItems fuel ⟨Text.join ", " (ts.map quote) ++ ']' :: rest, line⟩ = .ok (ts, ⟨rest, line⟩)
  | [], fuel + 1, rest, line, _ => rfl
  | [t], fuel + 1, rest, line, _ => by
      show readItems (fuel + 1) ⟨quote t ++ ']' :: rest, line⟩ = _
      rw [readItems_quote]
      rfl
  | t :: u :: ts, fuel + 1, rest, line, h => by
      have hlength : (u :: ts).length < fuel := Nat.lt_of_succ_lt_succ h
      have hmore := readItems_join rest line hlength
      have htext : Text.join ", " ((t :: u :: ts).map quote) ++ ']' :: rest =
          quote t ++ ',' :: ' ' :: (Text.join ", " ((u :: ts).map quote) ++ ']' :: rest) := by
        simp [Text.join]
      rw [htext, readItems_quote]
      show (readItems fuel ⟨' ' :: _, line⟩).map _ = _
      rw [readItems_space, hmore]
      rfl

/-- Each string takes room in the text of an array. -/
theorem length_le_join : ∀ ts : List Text,
    ts.length ≤ (Text.join ", " (ts.map quote)).length
  | [] => Nat.le_refl 0
  | [t] => by simp [Text.join, quote]
  | t :: u :: ts => by
      have hmore := length_le_join (u :: ts)
      simp only [List.map_cons, Text.join, List.length_append, List.length_cons] at hmore ⊢
      have hsep : (", " : String).toList.length = 2 := rfl
      omega

/-! ### Words -/

theorem isWordChar_of_mem_ofInt {n : Int} {c : Char} (h : c ∈ Text.ofInt n) :
    isWordChar c = true := by
  have hdigit : ∀ {m : Nat} {c : Char}, c ∈ Text.ofNat m → isWordChar c = true := by
    intro m c hc
    simp [isWordChar, Char.isAlphanum, Text.isDigit_of_mem_ofNat hc]
  cases n with
  | ofNat m => exact hdigit h
  | negSucc m =>
      rcases List.mem_cons.mp h with rfl | h
      · rfl
      · exact hdigit h

theorem ofWord?_ofInt {n : Int} (h : isIntegerRange n = true) :
    ofWord? (Text.ofInt n) = some (.integer n) := by
  have hword : ∀ t : Text, (Text.toInt? t) = none → Text.ofInt n ≠ t := by
    rintro t ht rfl
    rw [Text.toInt?_ofInt] at ht
    cases ht
  rw [ofWord?, if_neg (hword _ rfl), if_neg (hword _ rfl), Text.toInt?_ofInt]
  exact if_pos h

/-! ### Reading -/

/-- Anything but a string and an array is read up to the end of the word. -/
theorem read_word {word : Text} {v : ConfigValue} (rest : Text) (line : Nat)
    (hchars : ∀ c ∈ word, isWordChar c = true) (hword : ofWord? word = some v) :
    read ⟨word ++ '\n' :: rest, line⟩ = .ok (v, ⟨'\n' :: rest, line⟩) := by
  have hnewline : isWordChar '\n' = false := by decide
  have hpeek : ∀ c, isWordChar c = false → c ≠ '\n' →
      Cursor.peek ⟨word ++ '\n' :: rest, line⟩ ≠ c := by
    intro c hc hline
    cases word with
    | nil => exact fun h => hline h.symm
    | cons d ds =>
        rintro rfl
        have hd := hchars d List.mem_cons_self
        exact absurd (hd.symm.trans hc) (by decide)
  rw [read, if_neg (hpeek '"' (by decide) (by decide)), if_neg (hpeek '[' (by decide) (by decide))]
  dsimp only
  rw [Cursor.takeWhile_word hchars hnewline, Cursor.skip_word hchars hnewline, hword]

/-- A written value is read back, up to the end of its line. -/
theorem read_write {v : ConfigValue} (h : v.IsWritable) (rest : Text) (line : Nat) :
    read ⟨v.write ++ '\n' :: rest, line⟩ = .ok (v, ⟨'\n' :: rest, line⟩) := by
  cases v with
  | text t =>
      rw [write, quote_append]
      show (readString (t.flatMap escape ++ '"' :: '\n' :: rest) line).map _ = _
      rw [readString_escaped]
      rfl
  | list ts =>
      rw [write, List.cons_append, List.append_assoc]
      show (readItems _ ⟨Text.join ", " (ts.map quote) ++ ']' :: '\n' :: rest, line⟩).map _ = _
      rw [readItems_join]
      · rfl
      · have hlength := length_le_join ts
        simp only [List.length_cons, List.length_append]
        omega
  | boolean b => cases b <;> rfl
  | integer n =>
      exact read_word rest line (fun c hc => isWordChar_of_mem_ofInt hc) (ofWord?_ofInt h)

end ConfigValue

/-! ## Tables -/

/-- An entry of a table. -/
abbrev ConfigEntry := Text × ConfigValue

/-- The keys that have two names, each under one of them. -/
structure KeyNames where
  output : Text := "output_dir"
  module : Text := "module"
  platform : Text := "platform"
  packageList : Text := "package_list_url"
  output_mem : output = "output_dir" ∨ output = "output" := by decide
  module_mem : module = "module" ∨ module = "module_name" := by decide
  platform_mem : platform = "platform" ∨ platform = "analysis_platform" := by decide
  packageList_mem : packageList = "package_list" ∨ packageList = "package_list_url" := by decide

variable (names : KeyNames)

/-- There is no entry for a cache root that is not given. -/
def cacheRootEntries (root : Option Text) : List ConfigEntry :=
  root.toList.map fun root => ("cache_root", .text root)

def Config.entries (c : Config) : List ConfigEntry :=
  (names.output, .text c.outputDir) :: ("format", .text c.format) ::
    ("implied_platforms", .list c.impliedPlatforms) ::
    ("generate_index_pages", .boolean c.generateIndexPages) :: ("skip", .boolean c.skip) ::
    ("fail_on_error", .boolean c.failOnError) :: ("disabled_plugins", .list c.disabledPlugins) ::
    cacheRootEntries c.cacheRoot

def Pass.entries (p : Pass) : List ConfigEntry :=
  [(names.module, .text p.moduleName), (names.platform, .text p.family.name),
    ("targets", .list p.targets), ("source_roots", .list p.sourceRoots),
    ("classpath", .list p.classpath), ("samples", .list p.samples),
    ("includes", .list p.includes), ("suppressed_files", .list p.suppressedFiles),
    ("jdk_version", .integer p.jdkVersion), ("skip_deprecated", .boolean p.skipDeprecated),
    ("skip_empty_packages", .boolean p.skipEmptyPackages),
    ("report_undocumented", .boolean p.reportUndocumented),
    ("include_non_public", .boolean p.includeNonPublic),
    ("include_root_package", .boolean p.includeRootPackage),
    ("no_stdlib_link", .boolean p.noStdlibLink), ("no_jdk_link", .boolean p.noJdkLink),
    ("language_version", .text p.languageVersion), ("api_version", .text p.apiVersion),
    ("since_version", .text p.sinceVersion)]

def PackageOptions.entries (o : PackageOptions) : List ConfigEntry :=
  [("prefix", .text o.packagePrefix), ("include_non_public", .boolean o.includeNonPublic),
    ("report_undocumented", .boolean o.reportUndocumented),
    ("skip_deprecated", .boolean o.skipDeprecated), ("suppress", .boolean o.suppress)]

def SourceLink.entries (l : SourceLink) : List ConfigEntry :=
  [("path", .text l.path), ("url", .text l.url), ("line_suffix", .text l.lineSuffix)]

def ExternalLink.entries (l : ExternalLink) : List ConfigEntry :=
  [("url", .text l.url), (names.packageList, .text l.packageListUrl)]

def ConfigTable.name : ConfigTable → Text
  | .outside => []
  | .docgen => "docgen"
  | .pass => "pass"
  | .package => "pass.package"
  | .sourceLink => "pass.source_link"
  | .externalLink => "pass.external_link"

/-- The line that opens a table.  There is one table for the whole run and any number of the
others. -/
def ConfigTable.header (table : ConfigTable) : Text :=
  if table = .docgen then '[' :: (table.name ++ [']'])
  else '[' :: '[' :: (table.name ++ [']', ']'])

def ConfigEntry.write (e : ConfigEntry) : Text := e.1 ++ " = " ++ e.2.write ++ ['\n']

def ConfigTable.write (table : ConfigTable) (es : List ConfigEntry) : Text :=
  table.header ++ ['\n'] ++ es.flatMap ConfigEntry.write

/-- The version number has 32 bits. -/
def Pass.IsWritable (p : Pass) : Prop :=
  Int32.minValue.toInt ≤ p.jdkVersion ∧ p.jdkVersion ≤ Int32.maxValue.toInt

instance Pass.decidableIsWritable (p : Pass) : Decidable p.IsWritable :=
  inferInstanceAs (Decidable (_ ∧ _))

/-- A pass, with what belongs to it. -/
def Pass.write (p : Pass) : Text :=
  ConfigTable.pass.write (Pass.entries names p) ++
    (p.packageOptions.flatMap fun o => ConfigTable.package.write o.entries) ++
    (p.sourceLinks.flatMap fun l => ConfigTable.sourceLink.write l.entries) ++
    p.externalLinks.flatMap fun l => ConfigTable.externalLink.write (ExternalLink.entries names l)

def Config.write (c : Config) : Text :=
  ConfigTable.docgen.write (Config.entries names c) ++ c.passes.flatMap (Pass.write names)

end CrossDoc
