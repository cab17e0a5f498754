import CrossDoc.Log.Logger
import Mathlib.Data.List.Induction

/-!
# What a logger logs

The threshold of a module is the lowest level that a logger takes from it.  A
filter text names modules, each by its last piece that does, and may set the
level of all others.

Setting up means what the options say, except for what earlier operations have
left: without a filter text the module levels of the last one stay, and with one
the level of all other modules is at most the one they had or are given.
-/

namespace CrossDoc.Log

namespace Level

variable {a b : Level}

theorem le_iff : a ≤ b ↔ a.rank ≤ b.rank := Iff.rfl

theorem rank_inj : a.rank = b.rank ↔ a = b := by
  constructor
  · intro h
    cases a <;> cases b <;> first | rfl | cases h
  · exact congrArg rank

theorem rank_le_off (a : Level) : a.rank ≤ Level.off.rank := by
  cases a <;> decide

theorem rank_min (a b : Level) : (a.min b).rank = Min.min a.rank b.rank := by
  cases a <;> cases b <;> rfl

/-- The higher of two levels. -/
def max (a b : Level) : Level := if a < b then b else a

theorem rank_max (a b : Level) : (a.max b).rank = Max.max a.rank b.rank := by
  cases a <;> cases b <;> rfl

theorem min_eq_left_iff : a.min b = a ↔ a ≤ b := by
  rw [← rank_inj, rank_min, le_iff]
  omega

theorem min_eq_right_iff : a.min b = b ↔ b ≤ a := by
  rw [← rank_inj, rank_min, le_iff]
  omega

theorem max_eq_left_iff : a.max b = a ↔ b ≤ a := by
  rw [← rank_inj, rank_max, le_iff]
  omega

theorem max_eq_right_iff : a.max b = b ↔ a ≤ b := by
  rw [← rank_inj, rank_max, le_iff]
  omega

theorem max_le_iff {c : Level} : a.max b ≤ c ↔ a ≤ c ∧ b ≤ c := by
  simp only [le_iff, rank_max]
  omega

/-- A threshold is told by the messages that pass it. -/
theorem eq_of_forall_lt_off (h : ∀ level < Level.off, a ≤ level ↔ b ≤ level) : a = b := by
  have ha := a.rank_le_off
  have hb := b.rank_le_off
  rw [← rank_inj]
  rcases Nat.lt_trichotomy a.rank b.rank with hlt | heq | hlt
  · have hpass := (h a (Nat.lt_of_lt_of_le hlt hb)).mp (Nat.le_refl _)
    exact absurd hpass (Nat.not_le_of_lt hlt)
  · exact heq
  · have hpass := (h b (Nat.lt_of_lt_of_le hlt ha)).mpr (Nat.le_refl _)
    exact absurd hpass (Nat.not_le_of_lt hlt)

end Level

namespace Filter

/-! ## Filter texts -/

/-- The piece of a filter text gives the module a level. -/
def names (module token : Text) : Bool :=
  if token.contains '=' then token.takeWhile (· != '=') == module && module != ['*']
  else token == module && !module.isEmpty

/-- The piece sets the level of all other modules. -/
def namesOthers (token : Text) : Bool :=
  token.contains '=' && token.takeWhile (· != '=') == ['*']

/-- The level after the equals sign; a module alone is traced. -/
def tokenLevel (token : Text) : Level :=
  if token.contains '=' then Level.ofName ((token.dropWhile (· != '=')).drop 1) else .trace

/-- The level of the last of the pieces that are meant. -/
def lastLevel (meant : Text → Bool) (tokens : List Text) : Option Level :=
  (tokens.filter meant).getLast?.map tokenLevel

/-- The level that a filter text gives a module by name. -/
def named? (spec module : Text) : Option Level :=
  lastLevel (names module) (Text.splitAt ',' spec)

/-- The level that a filter text gives all other modules. -/
def others? (spec : Text) : Option Level := lastLevel namesOthers (Text.splitAt ',' spec)

theorem lastLevel_append_singleton (meant : Text → Bool) (tokens : List Text) (token : Text) :
    lastLevel meant (tokens ++ [token]) =
      if meant token then some (tokenLevel token) else lastLevel meant tokens := by
  unfold lastLevel
  rw [List.filter_append]
  by_cases h : meant token
  · simp [h]
  · simp [h]

theorem level?_assign (f : Filter) (named : Text) (level : Level) (module : Text) :
    (f.assign named level).level? module =
      if named = module then some level else f.level? module := by
  unfold level? assign
  dsimp only
  rw [List.find?_append]
  split
  · next h =>
    subst h
    have hnone : (f.modules.filter fun e => e.1 != named).find? (fun e => e.1 == named) = none := by
      rw [List.find?_eq_none]
      intro e he
      simpa using (List.mem_filter.mp he).2
    rw [hnone]
    simp
  · next h =>
    have hrest : (f.modules.filter fun e => e.1 != named).find? (fun e => e.1 == module) =
        f.modules.find? fun e => e.1 == module := by
      rw [List.find?_filter]
      congr 1
      ext e
      by_cases he : e.1 = module
      · simp [he, Ne.symm h]
      · simp [he]
    rw [hrest]
    simp [h]

theorem level?_readToken (f : Filter) (token module : Text) :
    (f.readToken token).level? module =
      if names module token then some (tokenLevel token) else f.level? module := by
  unfold readToken names tokenLevel
  cases hequals : token.contains '=' with
  | true =>
      by_cases hothers : token.takeWhile (· != '=') = ['*']
      · simp only [hothers, if_true]
        by_cases hmodule : module = ['*']
        · simp [hmodule, level?]
        · simp [Ne.symm hmodule, level?]
      · simp only [hothers, if_true, if_false, level?_assign]
        by_cases hmodule : token.takeWhile (· != '=') = module
        · subst hmodule
          simp [hothers]
        · simp [hmodule]
  | false =>
      cases htoken : token.isEmpty with
      | true =>
          rw [List.isEmpty_iff] at htoken
          subst htoken
          cases module <;> rfl
      | false =>
          by_cases hmodule : token = module
          · subst hmodule
            simp [htoken, level?_assign]
          · simp [hmodule, level?_assign]

theorem default_readToken (f : Filter) (token : Text) :
    (f.readToken token).default = if namesOthers token then tokenLevel token else f.default := by
  unfold readToken namesOthers tokenLevel
  cases hequals : token.contains '=' with
  | true =>
      by_cases hothers : token.takeWhile (· != '=') = ['*']
      · simp [hothers]
      · simp [hothers, assign]
  | false =>
      cases htoken : token.isEmpty <;> simp [assign]

theorem level?_foldl (f : Filter) (tokens : List Text) (module : Text) :
    (tokens.foldl readToken f).level? module =
      (lastLevel (names module) tokens).or (f.level? module) := by
  induction tokens using List.reverseRecOn with
  | nil => rfl
  | append_singleton rest token ih =>
      rw [List.foldl_append, lastLevel_append_singleton]
      show ((rest.foldl readToken f).readToken token).level? module = _
      rw [level?_readToken, ih]
      split <;> rfl

theorem default_foldl (f : Filter) (tokens : List Text) :
    (tokens.foldl readToken f).default = (lastLevel namesOthers tokens).getD f.default := by
  induction tokens using List.reverseRecOn with
  | nil => rfl
  | append_singleton rest token ih =>
      rw [List.foldl_append, lastLevel_append_singleton]
      show ((rest.foldl readToken f).readToken token).default = _
      rw [default_readToken, ih]
      split <;> rfl

/-- What a filter text says of a module replaces all that was said before. -/
theorem level?_parse (f : Filter) (spec module : Text) :
    (f.parse spec).level? module = named? spec module := by
  rw [parse, level?_foldl]
  exact Option.or_none

theorem default_parse (f : Filter) (spec : Text) :
    (f.parse spec).default = (others? spec).getD f.default := by
  rw [parse, default_foldl]
  rfl

/-! ## The lowest level -/

theorem rank_foldl_min_le (es : List (Text × Level)) (low : Level) :
    (es.foldl (fun low e => low.min e.2) low).rank ≤ low.rank ∧
      ∀ e ∈ es, (es.foldl (fun low e => low.min e.2) low).rank ≤ e.2.rank := by
  induction es generalizing low with
  | nil => exact ⟨Nat.le_refl _, nofun⟩
  | cons e rest ih =>
      obtain ⟨hlow, hrest⟩ := ih (low.min e.2)
      rw [Level.rank_min] at hlow
      refine ⟨Nat.le_trans hlow (Nat.min_le_left _ _), ?_⟩
      intro x hx
      rcases List.mem_cons.mp hx with rfl | hx
      · exact Nat.le_trans hlow (Nat.min_le_right _ _)
      · exact hrest x hx

theorem minLevel_le_levelOf (f : Filter) (module : Text) : f.minLevel ≤ f.levelOf module := by
  obtain ⟨hdefault, hmodules⟩ := rank_foldl_min_le f.modules f.default
  unfold levelOf level?
  cases hfind : f.modules.find? fun e => e.1 == module with
  | none => exact hdefault
  | some e => exact hmodules e (List.mem_of_find?_eq_some hfind)

end Filter

/-! ## Thresholds -/

open CrossDoc.Log.Filter

namespace Logger

/-- The lowest level that the logger takes from a module. -/
def threshold (l : Logger) (module : Text) : Level := l.level.max (l.filter.levelOf module)

theorem shouldLog_iff (l : Logger) (level : Level) (module : Text) :
    l.shouldLog level module = true ↔ l.threshold module ≤ level := by
  rw [threshold, Level.max_le_iff, shouldLog, Bool.and_eq_true, decide_eq_true_iff,
    Filter.shouldLog, decide_eq_true_iff]

/-- What setting up makes of a logger. -/
theorem threshold_configure (l : Logger) (o : Options) (module : Text) :
    (l.configure o).threshold module =
      if o.filterSpec.isEmpty then o.level.max ((l.filter.level? module).getD o.level)
      else (named? o.filterSpec module).getD
        (((others? o.filterSpec).getD l.filter.default).min o.level) := by
  unfold threshold configure
  split
  · rfl
  · -- The level of the logger is the lowest of its filter and decides nothing.
    dsimp only
    rw [Level.max_eq_right_iff.mpr (minLevel_le_levelOf _ module), ← level?_parse l.filter,
      ← default_parse]
    rfl

/-- The sinks of a logger do not matter for what it takes. -/
theorem init_eq_configure (l : Logger) (o : Options) (out : Outlet) :
    (l.init o out).1.level = (l.configure o).level ∧
      (l.init o out).1.filter = (l.configure o).filter := by
  unfold init
  cases o.console
  all_goals
    dsimp only
    split
    · exact ⟨rfl, rfl⟩
    · split <;> exact ⟨rfl, rfl⟩

theorem threshold_init (l : Logger) (o : Options) (out : Outlet) (module : Text) :
    (l.init o out).1.threshold module = (l.configure o).threshold module := by
  obtain ⟨hlevel, hfilter⟩ := l.init_eq_configure o out
  rw [threshold, threshold, hlevel, hfilter]

end Logger

/-! ## Histories -/

/-- What can change the threshold of a module. -/
inductive Operation where
  | init (o : Options)
  | setLevel (level : Level)
  | setFilter (spec : Text)

/-- The logger and what its sinks write to, after an operation. -/
def Operation.apply (s : Logger × Outlet) : Operation → Logger × Outlet
  | .init o => s.1.init o s.2
  | .setLevel level => (s.1.setLevel level, s.2)
  | .setFilter spec => (s.1.setFilter spec, s.2)

/-- The logger of a process after its first operations. -/
def after (history : List Operation) (out : Outlet) : Logger × Outlet :=
  history.foldl Operation.apply (.fresh, out)

/-- What is left of earlier operations: the last filter text, and the level of
the modules that no filter text names. -/
structure Leftover where
  spec : Text := []
  others : Level := .info

namespace Leftover

def step (left : Leftover) : Operation → Leftover
  | .init o =>
      if o.filterSpec.isEmpty then { left with others := o.level }
      else ⟨o.filterSpec, ((others? o.filterSpec).getD left.others).min o.level⟩
  | .setLevel level => { left with others := level }
  | .setFilter spec => ⟨spec, (others? spec).getD left.others⟩

def ofHistory (history : List Operation) : Leftover := history.foldl step {}

/-- The filter of a logger holds what is left. -/
structure IsIn (left : Leftover) (f : Filter) : Prop where
  modules : ∀ module, f.level? module = named? left.spec module
  others : f.default = left.others

theorem isIn_fresh : IsIn {} Logger.fresh.filter where
  modules module := by
    cases module <;> rfl
  others := rfl

theorem IsIn.step {left : Leftover} {s : Logger × Outlet} (h : left.IsIn s.1.filter)
    (op : Operation) : (left.step op).IsIn (op.apply s).1.filter := by
  cases op with
  | init o =>
      show IsIn _ (s.1.init o s.2).1.filter
      rw [(s.1.init_eq_configure o s.2).2, Leftover.step, Logger.configure]
      split
      · exact ⟨h.modules, rfl⟩
      · constructor
        · exact level?_parse s.1.filter o.filterSpec
        · show ((s.1.filter.parse o.filterSpec).default).min o.level = _
          rw [default_parse, h.others]
  | setLevel level => exact ⟨h.modules, rfl⟩
  | setFilter spec =>
      constructor
      · exact level?_parse s.1.filter spec
      · show (s.1.filter.parse spec).default = _
        rw [default_parse, h.others]
        rfl

/-- Whatever has been done, the filter holds what is left of it. -/
theorem isIn_after (history : List Operation) (out : Outlet) :
    (ofHistory history).IsIn (after history out).1.filter := by
  induction history using List.reverseRecOn with
  | nil => exact isIn_fresh
  | append_singleton earlier op ih =>
      rw [ofHistory, after, List.foldl_append, List.foldl_append]
      exact ih.step op

/-- What is left does not change what the options say of a module. -/
def Yields (left : Leftover) (o : Options) (module : Text) : Prop :=
  if o.filterSpec.isEmpty then ∀ level ∈ named? left.spec module, level ≤ o.level
  else named? o.filterSpec module = none →
    match others? o.filterSpec with
    | some level => level ≤ o.level
    | none => o.level ≤ left.others

end Leftover

/-- The threshold of a module as options say it. -/
def Options.thresholdOf (o : Options) (module : Text) : Level :=
  if o.filterSpec.isEmpty then o.level
  else (named? o.filterSpec module).getD ((others? o.filterSpec).getD o.level)

/-- The threshold of a module after a history and setting up. -/
theorem threshold_after_init (history : List Operation) (out : Outlet) (o : Options)
    (module : Text) :
    (after (history ++ [.init o]) out).1.threshold module = o.thresholdOf module ↔
      (Leftover.ofHistory history).Yields o module := by
  have hleft := Leftover.isIn_after history out
  rw [after, List.foldl_append]
  show ((after history out).1.init o (after history out).2).1.threshold module = _ ↔ _
  rw [Logger.threshold_init, Logger.threshold_configure, hleft.modules, hleft.others,
    Options.thresholdOf, Leftover.Yields]
  split
  · cases named? (Leftover.ofHistory history).spec module with
    | none => simp [Level.max_eq_left_iff, Level.le_iff]
    | some level => simp [Level.max_eq_left_iff]
  · cases named? o.filterSpec module with
    | some level => simp
    | none =>
        cases others? o.filterSpec with
        | some level => simp [Level.min_eq_left_iff]
        | none => simp [Level.min_eq_right_iff]

/-- After setting up, the messages of a module that pass are those that the
options let pass, exactly if what is left of earlier operations does not change
what the options say of it. -/
theorem shouldLog_init_iff (history : List Operation) (out : Outlet) (o : Options)
    (module : Text) :
    (∀ level < Level.off, (after (history ++ [.init o]) out).1.shouldLog level module = true ↔
        o.thresholdOf module ≤ level) ↔
      (Leftover.ofHistory history).Yields o module := by
  rw [← threshold_after_init history out o module]
  constructor
  · intro h
    apply Level.eq_of_forall_lt_off
    intro level hlevel
    rw [← Logger.shouldLog_iff]
    exact h level hlevel
  · intro h level _
    rw [Logger.shouldLog_iff, h]

/-- In a fresh process the level of other modules stays at information, though
the options ask for errors only. -/
theorem shouldLog_init_fresh_others :
    ¬ ∀ level < Level.off,
      ((after ([] ++ [.init { level := .error, filterSpec := "merge=trace", console := false }])
          {}).1.shouldLog level "render" = true ↔
        Options.thresholdOf { level := .error, filterSpec := "merge=trace", console := false }
          "render" ≤ level) := by
  intro h
  have hinfo := h .info (by decide)
  exact absurd (hinfo.mp (by decide)) (by decide)

/-- A filter text cannot raise the level of other modules above that of the
options. -/
example : (after [.init { filterSpec := "merge=debug,*=warn", console := false }] {}).1.threshold
    "render" = .info := by
  decide

end CrossDoc.Log
