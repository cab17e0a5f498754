import CrossDoc.Proofs.ParameterTypes

/-!
# Default values of parameters

A default value stands behind the type of its parameter.  It is cut off at the equals sign,
but only when the parameters have been split, so its own brackets and commas are split at
as well.  Values whose brackets are balanced and whose commas stand inside of them leave the
parameters apart, and the discriminator does not see them.  No other value can be left out
of account: the sign of a comparison is a bracket here, and so is what stands in a literal.
-/

namespace CrossDoc

namespace Symbol

variable {prev : Char} {d : Int} {t u v value : Text}

/-! ## Pieces -/

/-- What is not kept together is split at a first comma. -/
theorem exists_first_comma (h : ¬ KeepsTogether d prev t) : ∃ u v, t = u ++ ',' :: v ∧
    depthBehind d prev u = 0 ∧ KeepsTogether d prev u := by
  induction t generalizing d prev with
  | nil => exact absurd (keepsTogether_nil d prev) h
  | cons c rest ih =>
      by_cases hcomma : c = ',' ∧ d = 0
      · exact ⟨[], rest, by rw [hcomma.1]; rfl, hcomma.2, keepsTogether_nil d prev⟩
      · have hrest : ¬ KeepsTogether (depthAfter d prev c) c rest :=
          fun hrest => h (keepsTogether_cons.mpr ⟨hcomma, hrest⟩)
        obtain ⟨u, v, rfl, hzero, hu⟩ := ih hrest
        exact ⟨c :: u, v, rfl, hzero, keepsTogether_cons.mpr ⟨hcomma, hu⟩⟩

theorem keepsTogether_of_all (hd : d ≠ 0) (h : t.all (!isBracket ·) = true) :
    KeepsTogether d prev t := by
  induction t generalizing prev with
  | nil => exact keepsTogether_nil d prev
  | cons c rest ih =>
      rw [List.all_cons, Bool.and_eq_true, Bool.not_eq_true'] at h
      rw [keepsTogether_cons, depthAfter_char h.1]
      exact ⟨fun hcomma => hd hcomma.2, ih h.2⟩

theorem IsClosed.append (hs : IsClosed u) (hdash : u.getLast? ≠ some '-') (ht : IsClosed v) :
    IsClosed (u ++ v) := by
  have hprev : u.getLast?.getD ' ' ≠ '-' := by
    cases hlast : u.getLast? with
    | none => decide
    | some c => exact fun hc => hdash (hlast.trans (congrArg some hc))
  constructor
  · rw [depthBehind_append, hs.balanced, ht.depthBehind_eq hprev]
  · refine hs.inside.append ?_
    rw [hs.balanced]
    exact ht.keepsTogether hprev

/-- The pieces are the text with its commas taken out at some places. -/
theorem join_splitParameters (d : Int) (prev : Char) (t : Text) :
    Text.join "," (splitParameters d prev t) = t := by
  induction t generalizing d prev with
  | nil => rfl
  | cons c rest ih =>
      by_cases hcomma : c = ',' ∧ d = 0
      · obtain ⟨piece, more, hpieces⟩ :=
          List.exists_cons_of_ne_nil (splitParameters_ne_nil d c rest)
        have hjoin := ih d c
        rw [hpieces] at hjoin
        rw [splitParameters, if_pos hcomma, hpieces, Text.join, hjoin, hcomma.1]
        rfl
      · obtain ⟨piece, more, hpieces⟩ := List.exists_cons_of_ne_nil
          (splitParameters_ne_nil (depthAfter d prev c) c rest)
        have hjoin := ih (depthAfter d prev c) c
        rw [hpieces] at hjoin
        rw [splitParameters_cons hcomma, hpieces, List.modifyHead_cons, ← hjoin]
        cases more <;> rfl

theorem splitParameters_congr {prev' : Char} (hprev : prev ≠ '-') (hprev' : prev' ≠ '-')
    (t : Text) : splitParameters d prev t = splitParameters d prev' t := by
  cases t with
  | nil => rfl
  | cons c rest =>
      by_cases hcomma : c = ',' ∧ d = 0
      · rw [splitParameters, if_pos hcomma, splitParameters, if_pos hcomma]
      · have hdepth : depthAfter d prev c = depthAfter d prev' c :=
          depthBehind_congr hprev hprev' [c]
        rw [splitParameters_cons hcomma, splitParameters_cons hcomma, hdepth]

theorem parameters_of_keepsTogether (h : KeepsTogether 0 '\x00' t) (hfilled : trimBlanks t ≠ []) :
    parameters t = [trimBlanks t] := by
  rw [parameters, splitParameters_of_keepsTogether h]
  simp [hfilled]

/-- There are no parameters in a blank text only. -/
theorem forall_isBlank_of_parameters_eq_nil (h : parameters t = []) :
    ∀ c ∈ t, Text.isBlank c = true := by
  obtain ⟨piece, more, hpieces⟩ := List.exists_cons_of_ne_nil (splitParameters_ne_nil 0 '\x00' t)
  have hjoin := join_splitParameters 0 '\x00' t
  rw [parameters, hpieces] at h
  rw [hpieces] at hjoin
  cases more with
  | nil =>
      obtain rfl : piece = t := hjoin
      refine Text.trimBy_eq_nil_iff.mp ?_
      by_contra hfilled
      simp [trimBlanks, hfilled] at h
  | cons next more =>
      rw [List.map_cons, List.map_cons, List.dropLast_cons_cons] at h
      split at h <;> cases h

/-- A closed text in front of a comma is a parameter of its own. -/
theorem parameters_append_comma (h : IsClosed t) (v : Text) :
    parameters (t ++ ',' :: v) = trimBlanks t :: parameters v := by
  obtain ⟨piece, more, hpieces⟩ := List.exists_cons_of_ne_nil (splitParameters_ne_nil 0 '\x00' v)
  have hcomma : splitParameters 0 ',' v = splitParameters 0 '\x00' v :=
    splitParameters_congr (by decide) (by decide) v
  rw [parameters, splitParameters_append_comma h (by decide), hcomma, parameters, hpieces]
  simp only [List.map_cons, List.getLast?_cons_cons, List.dropLast_cons_cons]
  split <;> rfl

/-! ## Default values -/

/-- A parameter with the default value that may stand behind its type. -/
structure DefaultParameter extends Parameter where
  default? : Option Text := none

namespace DefaultParameter

variable {p : DefaultParameter}

/-- The parameter as it is written, with its default value. -/
def written (p : DefaultParameter) : Text :=
  match p.default? with
  | none => p.text
  | some value => p.text ++ " = " ++ value

end DefaultParameter

namespace Parameter

variable {p : Parameter}

theorem IsPlain.isNested_beforeDefault (h : p.IsPlain) : IsNested false (p.text ++ " = ") :=
  h.isNested_text.append (IsNested.of_all (by decide))

theorem IsPlain.isClosed_withDefault (h : p.IsPlain) (hvalue : IsClosed value) :
    IsClosed (p.text ++ " = " ++ value) := by
  have hdash : (p.text ++ " = ").getLast? ≠ some '-' := by
    rw [List.getLast?_append_of_ne_nil _ (by decide)]
    decide
  exact h.isNested_beforeDefault.isClosed.append hdash hvalue

/-- Whatever follows the equals sign does not reach the type. -/
theorem IsPlain.parameterType_withDefault (h : p.IsPlain) (t : Text) :
    parameterType (trimBlanks (p.text ++ " = " ++ t)) = p.bareType := by
  have hsign : p.text ++ " = " ++ t = p.name ++ ':' :: ((p.type ++ [' ']) ++ '=' :: ' ' :: t) := by
    simp [text]
  have htype : ∀ c ∈ p.type ++ [' '], (c != '=') = true := by
    intro c hc
    rw [bne_iff_ne]
    rintro rfl
    rcases List.mem_append.mp hc with hc | hc
    · exact h.noDefault hc
    · exact absurd hc (by decide)
  rw [hsign, h.parameterType_behind_colon, Text.trimRight_append_cons (by decide),
    List.takeWhile_append_of_pos htype, List.takeWhile_cons_of_neg (by decide), List.append_nil]
  exact Text.trimBy_concat (by decide) _

theorem trimBlanks_withDefault_ne_nil (p : Parameter) (t : Text) :
    trimBlanks (p.text ++ " = " ++ t) ≠ [] := by
  have hcolon := trimBlanks_behind_colon_ne_nil p.name (p.type ++ " = " ++ t)
  simpa [text] using hcolon

end Parameter

namespace DefaultParameter

variable {p : DefaultParameter}

theorem isRoundNested_written (h : p.IsPlain) (hvalue : ∀ v ∈ p.default?, IsRoundNested v) :
    IsRoundNested p.written := by
  cases hdefault : p.default? with
  | none =>
      rw [written, hdefault]
      exact h.isNested_text.isRoundNested
  | some value =>
      rw [written, hdefault]
      exact h.isNested_beforeDefault.isRoundNested.append (hvalue value hdefault)

theorem isClosed_written (h : p.IsPlain) (hvalue : ∀ v ∈ p.default?, IsClosed v) :
    IsClosed p.written := by
  cases hdefault : p.default? with
  | none =>
      rw [written, hdefault]
      exact h.isNested_text.isClosed
  | some value =>
      rw [written, hdefault]
      exact h.isClosed_withDefault (hvalue value hdefault)

theorem parameterType_written (h : p.IsPlain) :
    parameterType (trimBlanks p.written) = p.bareType := by
  rw [written]
  split
  · exact h.parameterType_text
  · exact h.parameterType_withDefault _

theorem trimBlanks_written_ne_nil (p : DefaultParameter) : trimBlanks p.written ≠ [] := by
  rw [written]
  split
  · exact Parameter.trimBlanks_behind_colon_ne_nil p.name p.type
  · exact Parameter.trimBlanks_withDefault_ne_nil _ _

end DefaultParameter

variable {s s' : Symbol} {ps ps' : List DefaultParameter} {P : Text → Prop}

theorem isPlain_toParameter (h : ∀ p ∈ ps, p.IsPlain) :
    ∀ p ∈ ps.map (·.toParameter), p.IsPlain := by
  intro p hp
  obtain ⟨q, hq, rfl⟩ := List.mem_map.mp hp
  exact h q hq

/-- The function is written with these parameters and their default values, behind a text that
opens no parenthesis. -/
structure DeclaresWithDefaults (s : Symbol) (ps : List DefaultParameter) : Prop where
  kind : s.kind = .function
  tail : ∃ before params rest, s.tail = before ++ '(' :: (params ++ ')' :: rest) ∧
    '(' ∉ before ∧ (params = Text.join "," (ps.map DefaultParameter.written) ∨
      ps = [] ∧ ∀ c ∈ params, Text.isBlank c = true)
  plain : ∀ p ∈ ps, p.IsPlain

/-- The default values that are given satisfy `P`. -/
def DefaultsSatisfy (P : Text → Prop) (ps : List DefaultParameter) : Prop :=
  ∀ p ∈ ps, ∀ v ∈ p.default?, P v

theorem discriminator_of_declaresWithDefaults (h : s.DeclaresWithDefaults ps)
    (hround : DefaultsSatisfy IsRoundNested ps) (hclosed : DefaultsSatisfy IsClosed ps) :
    s.discriminator =
      "(" ++ Text.join "," ((ps.map (·.toParameter)).map Parameter.bareType) ++ ")" := by
  obtain ⟨before, params, rest, htail, hbefore, hparams⟩ := h.tail
  rcases hparams with rfl | ⟨rfl, hblanks⟩
  · have hwritten : ∀ {Q : Text → Prop}, (∀ p ∈ ps, Q p.written) →
        ∀ t ∈ ps.map DefaultParameter.written, Q t := by
      intro Q hp t ht
      obtain ⟨p, hmem, rfl⟩ := List.mem_map.mp ht
      exact hp p hmem
    refine discriminator_of_tail h.kind hbefore htail
      (IsRoundNested.join (hwritten fun p hp =>
        DefaultParameter.isRoundNested_written (h.plain p hp) (hround p hp))) ?_
    rw [parameters_join (hwritten fun p hp =>
        DefaultParameter.isClosed_written (h.plain p hp) (hclosed p hp))
      (hwritten fun p _ => p.trimBlanks_written_ne_nil), List.map_map, List.map_map, List.map_map]
    exact List.map_congr_left fun p hp => DefaultParameter.parameterType_written (h.plain p hp)
  · have hnested : IsNested false params := IsNested.of_blanks hblanks
    refine discriminator_of_tail h.kind hbefore htail hnested.isRoundNested ?_
    rw [parameters_of_blanks hblanks]
    rfl

/-- The discriminator is the same with default values that satisfy `P` and without them. -/
def IgnoresDefaults (P : Text → Prop) : Prop :=
  ∀ (s u : Symbol) (ps : List DefaultParameter), s.DeclaresWithDefaults ps →
    DefaultsSatisfy P ps → u.Declares (ps.map (·.toParameter)) →
    s.discriminator = u.discriminator

/-- Closed default values do not count. -/
theorem ignoresDefaults_of_isClosed (hround : ∀ v, P v → IsRoundNested v)
    (hclosed : ∀ v, P v → IsClosed v) : IgnoresDefaults P := by
  intro s u ps hs hvalues hu
  rw [discriminator_of_declaresWithDefaults hs (fun p hp v hv => hround v (hvalues p hp v hv))
    (fun p hp v hv => hclosed v (hvalues p hp v hv)), discriminator_of_declares hu]

/-! ## Values that count -/

/-- The function with these parameters and nothing else in its signature. -/
def functionOf (ts : List Text) : Symbol :=
  { kind := .function, tail := '(' :: (Text.join "," ts ++ [')']) }

theorem declaresWithDefaults_functionOf (h : ∀ p ∈ ps, p.IsPlain) :
    (functionOf (ps.map DefaultParameter.written)).DeclaresWithDefaults ps :=
  ⟨rfl, ⟨[], _, [], rfl, List.not_mem_nil, .inl rfl⟩, h⟩

theorem declares_functionOf {ps : List Parameter} (h : ∀ p ∈ ps, p.IsPlain) :
    (functionOf (ps.map Parameter.text)).Declares ps :=
  ⟨rfl, ⟨[], _, [], rfl, List.not_mem_nil, .inl rfl⟩, h⟩

theorem types_of_ignoresDefaults (h : IgnoresDefaults P) (ps : List DefaultParameter)
    (hplain : ∀ p ∈ ps, p.IsPlain) (hround : DefaultsSatisfy IsRoundNested ps)
    (hvalues : DefaultsSatisfy P ps) :
    Text.join "," ((parameters (Text.join "," (ps.map DefaultParameter.written))).map
      parameterType) = Text.join "," ((ps.map (·.toParameter)).map Parameter.bareType) := by
  have hs := declaresWithDefaults_functionOf hplain
  have hu := declares_functionOf (isPlain_toParameter hplain)
  have hwritten : ∀ t ∈ ps.map DefaultParameter.written, IsRoundNested t := by
    intro t ht
    obtain ⟨p, hp, rfl⟩ := List.mem_map.mp ht
    exact DefaultParameter.isRoundNested_written (hplain p hp) (hround p hp)
  have hsame := h _ _ ps hs hvalues hu
  rwa [discriminator_of_tail rfl List.not_mem_nil rfl (IsRoundNested.join hwritten) rfl,
    discriminator_of_declares hu, List.append_left_inj, List.append_right_inj] at hsame

def firstParameter : Parameter := ⟨"a", " A"⟩

def secondParameter : Parameter := ⟨" b", " B"⟩

theorem isPlain_firstParameter : firstParameter.IsPlain :=
  .of_all (by decide) (by decide) (.of_all (by decide)) (by decide)

theorem isPlain_secondParameter : secondParameter.IsPlain :=
  .of_all (by decide) (by decide) (.of_all (by decide)) (by decide)

/-- A value with a bracket that is not closed takes the next parameter with it. -/
theorem parameters_of_unbalanced (hvalue : KeepsTogether 0 ' ' value)
    (hdepth : depthBehind 0 ' ' value ≠ 0) :
    (parameters (firstParameter.text ++ " = " ++ (value ++ ',' :: secondParameter.text))).map
      parameterType = ["A".toList] := by
  have hbefore := isPlain_firstParameter.isNested_beforeDefault
  have hkeeps : KeepsTogether 0 '\x00'
      (firstParameter.text ++ " = " ++ (value ++ ',' :: secondParameter.text)) := by
    refine (hbefore.keepsTogether '\x00' (Int.le_refl 0) nofun).append ?_
    rw [hbefore.depthBehind_eq]
    exact KeepsTogether.append hvalue (keepsTogether_of_all hdepth (by decide))
  rw [parameters_of_keepsTogether hkeeps (Parameter.trimBlanks_withDefault_ne_nil _ _),
    List.map_singleton, isPlain_firstParameter.parameterType_withDefault]
  rfl

/-- A value with a comma to split at makes parameters of what follows. -/
theorem parameters_of_split (hu : IsClosed u) (v : Text) :
    (parameters (firstParameter.text ++ " = " ++ (u ++ ',' :: v))).map parameterType =
      "A".toList :: (parameters v).map parameterType := by
  have hclosed := isPlain_firstParameter.isClosed_withDefault hu
  rw [← List.append_assoc, parameters_append_comma hclosed, List.map_cons,
    isPlain_firstParameter.parameterType_withDefault]
  rfl

theorem isClosed_of_ignoresDefaults (h : IgnoresDefaults P) (hvalue : P value)
    (hround : IsRoundNested value) : IsClosed value := by
  have hone : Text.join "," ((parameters (firstParameter.text ++ " = " ++ value)).map
      parameterType) = "A".toList :=
    types_of_ignoresDefaults h [⟨firstParameter, some value⟩] (by simp [isPlain_firstParameter])
      (by simpa [DefaultsSatisfy] using hround) (by simpa [DefaultsSatisfy] using hvalue)
  have htwo : Text.join "," ((parameters (firstParameter.text ++ " = " ++
      (value ++ ',' :: secondParameter.text))).map parameterType) = "A,B".toList := by
    have htypes := types_of_ignoresDefaults h
      [⟨firstParameter, some value⟩, ⟨secondParameter, none⟩]
      (by simp [isPlain_firstParameter, isPlain_secondParameter])
      (by simpa [DefaultsSatisfy] using hround) (by simpa [DefaultsSatisfy] using hvalue)
    have hlist : Text.join "," ([⟨firstParameter, some value⟩, ⟨secondParameter, none⟩].map
        DefaultParameter.written) =
        firstParameter.text ++ " = " ++ (value ++ ',' :: secondParameter.text) := by
      simp [Text.join, DefaultParameter.written]
    rwa [hlist] at htypes
  by_cases hkeeps : KeepsTogether 0 ' ' value
  · refine ⟨?_, hkeeps⟩
    by_contra hdepth
    rw [parameters_of_unbalanced hkeeps hdepth] at htwo
    exact absurd htwo (by decide)
  · exfalso
    obtain ⟨u, v, rfl, hzero, hu⟩ := exists_first_comma hkeeps
    have hclosed : IsClosed u := ⟨hzero, hu⟩
    rw [parameters_of_split hclosed] at hone
    have hnone : parameters v = [] := by
      cases hmore : parameters v with
      | nil => rfl
      | cons piece more =>
          rw [hmore] at hone
          simp [Text.join] at hone
    have hblank := forall_isBlank_of_parameters_eq_nil hnone
    rw [List.append_assoc u, List.cons_append, parameters_of_split hclosed,
      parameters_append_comma (IsNested.of_blanks hblank).isClosed, trimBlanks,
      Text.trimBy_eq_nil_iff.mpr hblank] at htwo
    exact absurd htwo (by decide)

/-! ## Identities -/

/-- **Default values do not count exactly if they are closed.**  Take any values whose parentheses
are nested.  No function has another discriminator with such values than without, exactly if in
each of them the brackets are balanced, signs of comparison included, and the commas stand inside
of brackets, those of literals included.  Then functions of one name in one owner have one identity
exactly if their parameter types are the same, whatever default values they have. -/
theorem ignoresDefaults_iff (hround : ∀ v, P v → IsRoundNested v) :
    (IgnoresDefaults P ↔ ∀ v, P v → IsClosed v) ∧
    ((∀ v, P v → IsClosed v) → ∀ {s u : Symbol} {ps qs : List DefaultParameter},
      s.DeclaresWithDefaults ps → DefaultsSatisfy P ps →
      u.DeclaresWithDefaults qs → DefaultsSatisfy P qs → u.name = s.name →
      ∀ owner : DeclId, (s.idIn owner = u.idIn owner ↔
        ps.map (·.bareType) = qs.map (·.bareType))) := by
  refine ⟨⟨fun h v hv => isClosed_of_ignoresDefaults h hv (hround v hv),
    ignoresDefaults_of_isClosed hround⟩, fun hclosed s u ps qs hs hps hu hqs hname owner => ?_⟩
  have hdiscriminator : ∀ {s : Symbol} {ps : List DefaultParameter}, s.DeclaresWithDefaults ps →
      DefaultsSatisfy P ps → s.discriminator =
        "(" ++ Text.join "," ((ps.map (·.toParameter)).map Parameter.bareType) ++ ")" := by
    intro s ps hs hps
    exact discriminator_of_declaresWithDefaults hs (fun p hp v hv => hround v (hps p hp v hv))
      fun p hp v hv => hclosed v (hps p hp v hv)
  rw [idIn_eq_iff_discriminator hs.kind hu.kind hname, hdiscriminator hs hps,
    hdiscriminator hu hqs, List.append_left_inj, List.append_right_inj,
    join_bareType_inj (isPlain_toParameter hs.plain) (isPlain_toParameter hu.plain),
    List.map_map, List.map_map]
  rfl

/-- A number, and a call with an arrow and with commas in its parentheses. -/
def plainValues : List Text := ["10", "pick((a, b) -> a, 0)"]

theorem isRoundNested_plainValues : ∀ v ∈ plainValues, IsRoundNested v := by
  have hcall : IsRoundNested ("pick".toList ++ '(' :: (('(' :: ("a, b".toList ++
      ')' :: " -> a, 0".toList)) ++ ')' :: [])) :=
    (IsRoundNested.of_all (by decide)).append
      (.round (.round (.of_all (by decide)) (.of_all (by decide))) .nil)
  exact List.forall_mem_cons.mpr ⟨.of_all (by decide), List.forall_mem_singleton.mpr hcall⟩

theorem ignoresDefaults_iff_plainValues :
    (∀ v ∈ plainValues, IsRoundNested v) ∧ (∀ v ∈ plainValues, IsClosed v) ∧
    IgnoresDefaults (· ∈ plainValues) := by
  have hclosed : ∀ v ∈ plainValues, IsClosed v := by decide +kernel
  exact ⟨isRoundNested_plainValues, hclosed,
    (ignoresDefaults_iff isRoundNested_plainValues).1.mpr hclosed⟩

/-- The default value is a literal with a comma. -/
def separatorParameters : List DefaultParameter :=
  [⟨⟨"separator", " String"⟩, some "\", \""⟩, ⟨⟨" limit", " Int"⟩, none⟩]

/-- The default value is a comparison. -/
def comparingParameters : List DefaultParameter :=
  [⟨⟨"strict", " Boolean"⟩, some "a < b"⟩, ⟨⟨" limit", " Int"⟩, none⟩]

theorem isPlain_separatorParameters : ∀ p ∈ separatorParameters, p.IsPlain :=
  List.forall_mem_cons.mpr ⟨.of_all (by decide) (by decide) (.of_all (by decide)) (by decide),
    List.forall_mem_singleton.mpr
      (.of_all (by decide) (by decide) (.of_all (by decide)) (by decide))⟩

theorem isPlain_comparingParameters : ∀ p ∈ comparingParameters, p.IsPlain :=
  List.forall_mem_cons.mpr ⟨.of_all (by decide) (by decide) (.of_all (by decide)) (by decide),
    List.forall_mem_singleton.mpr
      (.of_all (by decide) (by decide) (.of_all (by decide)) (by decide))⟩

/-- The comma of a literal makes a parameter of what follows it.  The sign of a comparison hides
the parameters that follow, and the function has the identity of one without them. -/
theorem defaults_changeDiscriminators :
    (functionOf ["separator: String = \", \"", " limit: Int"]).DeclaresWithDefaults
      separatorParameters ∧
    (functionOf ["separator: String", " limit: Int"]).Declares
      (separatorParameters.map (·.toParameter)) ∧
    DefaultsSatisfy IsRoundNested separatorParameters ∧
    (functionOf ["separator: String = \", \"", " limit: Int"]).discriminator = "(String,\",Int)" ∧
    (functionOf ["separator: String", " limit: Int"]).discriminator = "(String,Int)" ∧
    (functionOf ["strict: Boolean = a < b", " limit: Int"]).DeclaresWithDefaults
      comparingParameters ∧
    DefaultsSatisfy IsRoundNested comparingParameters ∧
    ∀ owner, (functionOf ["strict: Boolean = a < b", " limit: Int"]).idIn owner =
      (functionOf ["strict: Boolean"]).idIn owner := by
  have hliteral : IsRoundNested "\", \"" := .of_all (by decide)
  have hcomparison : IsRoundNested "a < b" := .of_all (by decide)
  refine ⟨declaresWithDefaults_functionOf isPlain_separatorParameters,
    declares_functionOf (isPlain_toParameter isPlain_separatorParameters),
    by simpa [DefaultsSatisfy, separatorParameters] using hliteral, by decide +kernel,
    by decide +kernel, declaresWithDefaults_functionOf isPlain_comparingParameters,
    by simpa [DefaultsSatisfy, comparingParameters] using hcomparison, fun owner => ?_⟩
  exact (idIn_eq_iff_discriminator rfl rfl rfl owner).mpr (by decide +kernel)

end Symbol

end CrossDoc
