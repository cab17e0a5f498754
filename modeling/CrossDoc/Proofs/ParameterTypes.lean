import CrossDoc.Model.Assembly
import CrossDoc.Proofs.ParameterSplitting

/-!
# Parameter types

A parameter is written as its name and, behind a colon, its type.  As brackets are nested in
types, the parameters come out of the signature as they were written, and the discriminator
of the function lists their types.  These can be read off the discriminator again: it keeps
them, and only them.
-/

namespace CrossDoc

namespace Symbol

/-! ## Parameters -/

/-- A parameter as written, with blanks around its name and its type. -/
structure Parameter where
  name : Text
  type : Text

namespace Parameter

def text (p : Parameter) : Text := p.name ++ ':' :: p.type

/-- The type without the blanks around it. -/
def bareType (p : Parameter) : Text := trimBlanks p.type

/-- The parameter can be told from its neighbours, and its name from its type. -/
structure IsPlain (p : Parameter) : Prop where
  name : ∀ c ∈ p.name, isBracket c = false ∧ c ≠ ',' ∧ c ≠ ':'
  filled : p.bareType ≠ []
  nested : IsNested false p.bareType
  noDefault : '=' ∉ p.type

variable {p : Parameter}

theorem IsPlain.of_all (hname : p.name.all (fun c => !isBracket c && c != ',' && c != ':') = true)
    (hfilled : p.bareType ≠ []) (hnested : IsNested false p.bareType) (hdefault : '=' ∉ p.type) :
    p.IsPlain where
  name := fun c hc => by simpa [and_assoc] using List.all_eq_true.mp hname c hc
  filled := hfilled
  nested := hnested
  noDefault := hdefault

theorem IsPlain.isNested_text (h : p.IsPlain) : IsNested false p.text := by
  have hname : IsNested false p.name := IsNested.of_chars fun c hc =>
    ⟨(h.name c hc).1, fun he => absurd he (h.name c hc).2.1⟩
  exact hname.append (.char (by decide) (by decide) (IsNested.of_trimBlanks h.nested))

theorem trimBlanks_behind_colon (name t : Text) : trimBlanks (name ++ ':' :: t) =
    Text.trimLeft Text.isBlank name ++ ':' :: Text.trimRight Text.isBlank t :=
  Text.trimBy_append_cons (by decide) name t

theorem trimBlanks_behind_colon_ne_nil (name t : Text) : trimBlanks (name ++ ':' :: t) ≠ [] := by
  rw [trimBlanks_behind_colon]
  simp

/-- The type of a parameter is what stands behind its colon, up to an equals sign. -/
theorem IsPlain.parameterType_behind_colon (h : p.IsPlain) (t : Text) :
    parameterType (trimBlanks (p.name ++ ':' :: t)) =
      trimBlanks ((Text.trimRight Text.isBlank t).takeWhile (· != '=')) := by
  have hname : ∀ c ∈ Text.trimLeft Text.isBlank p.name, (c != ':') = true := by
    intro c hc
    simpa using (h.name c ((List.dropWhile_sublist _).mem hc)).2.2
  have hskip : (trimBlanks (p.name ++ ':' :: t)).dropWhile (· != ':') =
      ':' :: Text.trimRight Text.isBlank t := by
    rw [trimBlanks_behind_colon, List.dropWhile_append_of_pos hname,
      List.dropWhile_cons_of_neg (by decide)]
  have hcolon : (trimBlanks (p.name ++ ':' :: t)).contains ':' = true := by
    rw [trimBlanks_behind_colon]
    simp
  rw [parameterType, if_pos hcolon, hskip, List.drop_one, List.tail_cons]

theorem IsPlain.parameterType_text (h : p.IsPlain) :
    parameterType (trimBlanks p.text) = p.bareType := by
  have htype : ∀ c ∈ Text.trimRight Text.isBlank p.type, (c != '=') = true := by
    intro c hc
    simpa using fun he : c = '=' => h.noDefault (he ▸ (List.rdropWhile_prefix _ _).mem hc)
  rw [text, h.parameterType_behind_colon, List.takeWhile_eq_self_iff.mpr htype]
  exact Text.trimBy_trimRight _ _

end Parameter

variable {ps qs : List Parameter}

/-- The text lists the parameters, or it is blank for none. -/
def ListsParameters (params : Text) (ps : List Parameter) : Prop :=
  params = Text.join "," (ps.map Parameter.text) ∨ ps = [] ∧ ∀ c ∈ params, Text.isBlank c = true

/-- The function is written with these parameters, behind a text that opens no parenthesis. -/
structure Declares (s : Symbol) (ps : List Parameter) : Prop where
  kind : s.kind = .function
  tail : ∃ before params rest, s.tail = before ++ '(' :: (params ++ ')' :: rest) ∧
    '(' ∉ before ∧ ListsParameters params ps
  plain : ∀ p ∈ ps, p.IsPlain

theorem isNested_text_of_mem (h : ∀ p ∈ ps, p.IsPlain) : ∀ t ∈ ps.map Parameter.text,
    IsNested false t := by
  intro t ht
  obtain ⟨p, hp, rfl⟩ := List.mem_map.mp ht
  exact (h p hp).isNested_text

theorem parameters_of_lists {params : Text} (hplain : ∀ p ∈ ps, p.IsPlain)
    (h : ListsParameters params ps) :
    IsRoundNested params ∧ (parameters params).map parameterType = ps.map Parameter.bareType := by
  rcases h with rfl | ⟨rfl, hblanks⟩
  · have hnested := isNested_text_of_mem hplain
    refine ⟨IsRoundNested.join fun t ht => (hnested t ht).isRoundNested, ?_⟩
    rw [parameters_join fun t ht => (hnested t ht).isClosed, List.map_map, List.map_map]
    · exact List.map_congr_left fun p hp => (hplain p hp).parameterType_text
    · intro t ht
      obtain ⟨p, -, rfl⟩ := List.mem_map.mp ht
      exact Parameter.trimBlanks_behind_colon_ne_nil p.name p.type
  · have hnested : IsNested false params := IsNested.of_blanks hblanks
    exact ⟨hnested.isRoundNested, by rw [parameters_of_blanks hblanks]; rfl⟩

/-! ## Discriminators -/

theorem discriminator_of_tail {s : Symbol} {before params rest : Text} {types : List Text}
    (hkind : s.kind = .function) (hbefore : '(' ∉ before)
    (htail : s.tail = before ++ '(' :: (params ++ ')' :: rest)) (hround : IsRoundNested params)
    (htypes : (parameters params).map parameterType = types) :
    s.discriminator = "(" ++ Text.join "," types ++ ")" := by
  rw [discriminator, if_pos hkind, htail, parameterText?_append hbefore hround]
  simp only [htypes]

theorem discriminator_of_declares {s : Symbol} (h : s.Declares ps) :
    s.discriminator = "(" ++ Text.join "," (ps.map Parameter.bareType) ++ ")" := by
  obtain ⟨before, params, rest, htail, hbefore, hlists⟩ := h.tail
  obtain ⟨hround, htypes⟩ := parameters_of_lists h.plain hlists
  exact discriminator_of_tail h.kind hbefore htail hround htypes

/-- Types are found again between the commas that were put there. -/
theorem parameters_join_bareType (h : ∀ p ∈ ps, p.IsPlain) :
    parameters (Text.join "," (ps.map Parameter.bareType)) = ps.map Parameter.bareType := by
  have hbare : ∀ p : Parameter, trimBlanks p.bareType = p.bareType :=
    fun p => Text.trimBy_trimBy Text.isBlank p.type
  rw [parameters_join, List.map_map]
  · exact List.map_congr_left fun p _ => hbare p
  · intro t ht
    obtain ⟨p, hp, rfl⟩ := List.mem_map.mp ht
    exact (h p hp).nested.isClosed
  · intro t ht
    obtain ⟨p, hp, rfl⟩ := List.mem_map.mp ht
    rw [hbare]
    exact (h p hp).filled

/-- Types that were joined by commas are told apart. -/
theorem join_bareType_inj {qs : List Parameter} (hps : ∀ p ∈ ps, p.IsPlain)
    (hqs : ∀ q ∈ qs, q.IsPlain) :
    Text.join "," (ps.map Parameter.bareType) = Text.join "," (qs.map Parameter.bareType) ↔
      ps.map Parameter.bareType = qs.map Parameter.bareType := by
  refine ⟨fun hjoin => ?_, congrArg (Text.join ",")⟩
  rw [← parameters_join_bareType hps, hjoin, parameters_join_bareType hqs]

theorem idIn_eq_iff_discriminator {s u : Symbol} (hs : s.kind = .function)
    (hu : u.kind = .function) (hname : u.name = s.name) (owner : DeclId) :
    s.idIn owner = u.idIn owner ↔ s.discriminator = u.discriminator := by
  rw [idIn, idIn, hs, hu, hname]
  simp [declId, DeclId.withCallable]

/-- **Overloads are told apart by their parameter types only.**  The discriminator of a function
lists the types of its parameters.  So two functions of one name in one owner have one identity
exactly if these types are the same, whatever the names and blanks around them, and whatever
stands before and behind the parameters. -/
theorem idIn_eq_iff_bareTypes {s : Symbol} (hs : s.Declares ps) :
    s.discriminator = "(" ++ Text.join "," (ps.map Parameter.bareType) ++ ")" ∧
    ∀ {u : Symbol} {qs : List Parameter}, u.Declares qs → u.name = s.name → ∀ owner : DeclId,
      (s.idIn owner = u.idIn owner ↔ ps.map Parameter.bareType = qs.map Parameter.bareType) := by
  have hdisc := discriminator_of_declares hs
  refine ⟨hdisc, fun {u qs} hu hname owner => ?_⟩
  rw [idIn_eq_iff_discriminator hs.kind hu.kind hname, hdisc, discriminator_of_declares hu,
    List.append_left_inj, List.append_right_inj, join_bareType_inj hs.plain hu.plain]

/-- A function with a type parameter in front of its parameters and with a result. -/
def spacedFunction : Symbol :=
  { kind := .function, name := "map"
    tail := "<T>(items : List<Pair<A, B>>, f: (A) -> [B]): List<B>" }

def spacedParameters : List Parameter :=
  [⟨"items ", " List<Pair<A, B>>"⟩, ⟨" f", " (A) -> [B]"⟩]

/-- A function with the same parameter types under other names and without blanks. -/
def denseFunction : Symbol :=
  { kind := .function, name := "map", tail := "(xs:List<Pair<A, B>>,by:(A) -> [B])" }

def denseParameters : List Parameter := [⟨"xs", "List<Pair<A, B>>"⟩, ⟨"by", "(A) -> [B]"⟩]

theorem isNested_listOfPairs : IsNested false "List<Pair<A, B>>" := by
  have hpair : IsNested true ("Pair" ++ '<' :: ("A, B" ++ '>' :: [])) :=
    (IsNested.of_all (by decide)).append
      (.bracket .angle (by decide) (IsNested.of_all (by decide)) .nil)
  have hlist : IsNested false ("List" ++ '<' :: ("Pair<A, B>" ++ '>' :: [])) :=
    (IsNested.of_all (by decide)).append (.bracket .angle (by decide) hpair .nil)
  exact hlist

theorem isNested_arrow : IsNested false "(A) -> [B]" := by
  have hresult : IsNested false (' ' :: '[' :: ("B" ++ ']' :: [])) :=
    .char (by decide) (by decide)
      (.bracket .square (by decide) (IsNested.of_all (by decide)) .nil)
  have harrow : IsNested false ('(' :: ("A" ++ ')' :: ' ' :: '-' :: '>' :: " [B]")) :=
    .bracket .round (by decide) (IsNested.of_all (by decide))
      (.char (by decide) (by decide) (.arrow hresult))
  exact harrow

theorem isPlain_of_bareType {p : Parameter}
    (hname : p.name.all (fun c => !isBracket c && c != ',' && c != ':') = true)
    (h : p.bareType = "List<Pair<A, B>>".toList ∨ p.bareType = "(A) -> [B]".toList)
    (hdefault : '=' ∉ p.type) : p.IsPlain := by
  refine .of_all hname ?_ ?_ hdefault
  · rcases h with h | h <;> rw [h] <;> decide
  · rcases h with h | h <;> rw [h]
    · exact isNested_listOfPairs
    · exact isNested_arrow

theorem idIn_eq_iff_bareTypes_map :
    spacedFunction.Declares spacedParameters ∧ denseFunction.Declares denseParameters ∧
    spacedFunction.discriminator = "(List<Pair<A, B>>,(A) -> [B])" ∧
    ∀ owner, spacedFunction.idIn owner = denseFunction.idIn owner := by
  have hspaced : spacedFunction.Declares spacedParameters := by
    refine ⟨rfl, ⟨"<T>", "items : List<Pair<A, B>>, f: (A) -> [B]", ": List<B>", by decide +kernel,
      by decide, .inl (by decide +kernel)⟩, List.forall_mem_cons.mpr ⟨?_, ?_⟩⟩
    · exact isPlain_of_bareType (by decide) (.inl (by decide +kernel)) (by decide)
    · exact List.forall_mem_singleton.mpr
        (isPlain_of_bareType (by decide) (.inr (by decide +kernel)) (by decide))
  have hdense : denseFunction.Declares denseParameters := by
    refine ⟨rfl, ⟨[], "xs:List<Pair<A, B>>,by:(A) -> [B]", [], by decide +kernel,
      by decide, .inl (by decide +kernel)⟩, List.forall_mem_cons.mpr ⟨?_, ?_⟩⟩
    · exact isPlain_of_bareType (by decide) (.inl (by decide +kernel)) (by decide)
    · exact List.forall_mem_singleton.mpr
        (isPlain_of_bareType (by decide) (.inr (by decide +kernel)) (by decide))
  obtain ⟨hdiscriminator, hids⟩ := idIn_eq_iff_bareTypes hspaced
  refine ⟨hspaced, hdense, ?_, fun owner => (hids hdense rfl owner).mpr (by decide +kernel)⟩
  rw [hdiscriminator]
  decide +kernel

end Symbol

end CrossDoc
