import CrossDoc.Proofs.PagePaths
import CrossDoc.Proofs.PassIdentity
import CrossDoc.Proofs.PassModules
import CrossDoc.Proofs.PoolRuns
import CrossDoc.Proofs.Production
import CrossDoc.Proofs.StageOrder
import CrossDoc.Proofs.TransformChain

/-!
# Runs without further plugins

The plugins that every run starts with fill each single point once and each
chain in the order of their proposals.  So a run without further plugins
translates, merges and transforms by their functions alone: what it renders is
the page tree of a module that it produces, and this module has the name that
the first pass gives.
-/

namespace CrossDoc

namespace Plugin

/-! ## The registry -/
variable {c : Config} {r : Registry Extension}

theorem order_builtin : (order builtin).run.value = .ok builtin := by
  rfl

/-- The implementations of a point that the plugins of every run have, in their order. -/
def builtinFor (c : Config) : (p : Point) → List p.Interface
  | .symbolTranslator => [Assembly.ofGroups]
  | .fileTranslator => [Assembly.ofFiles]
  | .merger => [mergeModules]
  | .moduleTransformer => BaseTransform.all.map BaseTransform.apply
  | .pageCreator => [createPages]
  | .pageTransformer => (pageTransforms c).map applyPageTransform
  | .renderer => if isMarkdown c.format then [renderMarkdown] else []

theorem proposals_markdown (c : Config) : markdown.proposals c =
    if isMarkdown c.format then [Point.renderer.propose "renderer" renderMarkdown] else [] := by
  unfold proposals markdown
  dsimp only
  cases isMarkdown c.format <;> rfl

/-- No extension of theirs demands a place or overrides another one. -/
theorem isFree_builtin : ∀ p ∈ builtin, ∀ x ∈ p.registered c, x.IsFree := by
  have hfree : ∀ p ∈ builtin, ∀ q ∈ p.proposals c,
      q.after = [] ∧ q.before = [] ∧ q.overrides = [] := by
    refine List.forall_mem_cons.mpr ⟨?_, List.forall_mem_cons.mpr ⟨?_, ?_⟩⟩
    · intro q hq
      have hq : q ∈ [_, _, _, _] := hq
      simp only [List.mem_cons, List.not_mem_nil, or_false] at hq
      rcases hq with rfl | rfl | rfl | rfl <;> exact ⟨rfl, rfl, rfl⟩
    · intro q hq
      rcases List.mem_append.mp hq with hq | hq
      · obtain ⟨t, -, rfl⟩ := List.mem_map.mp hq
        exact ⟨rfl, rfl, rfl⟩
      · obtain ⟨t, -, rfl⟩ := List.mem_map.mp hq
        exact ⟨rfl, rfl, rfl⟩
    · intro p hp q hq
      obtain rfl := List.mem_singleton.mp hp
      rw [proposals_markdown] at hq
      split at hq
      · obtain rfl := List.mem_singleton.mp hq
        exact ⟨rfl, rfl, rfl⟩
      · cases hq
  intro p hp x hx
  obtain ⟨q, hq, rfl⟩ := List.mem_map.mp hx
  obtain ⟨hafter, hbefore, hoverrides⟩ := hfree p hp q hq
  exact ⟨hafter, hbefore, hoverrides⟩

/-- The implementations of one point, plugin by plugin. -/
theorem implementations_installed (h : (installAll builtin c).run.value = .ok r) (p : Point) :
    (r.entries p.name).map (·.impl) = builtin.flatMap fun q =>
      ((q.proposals c).filter fun x => x.point = p.name).map (·.impl) := by
  have hentries := entries_installAll order_builtin h
    fun q hq x hx (_ : x.point = p.name) => isFree_builtin q hq x hx
  have hregistered : ∀ q : Plugin, ((q.registered c).filter fun x => x.point = p.name).map
      (fun x => x.entry.impl) = ((q.proposals c).filter fun x => x.point = p.name).map (·.impl) := by
    intro q
    rw [registered, List.filter_map, List.map_map]
    rfl
  rw [hentries, List.map_flatMap]
  simp only [List.map_map, Function.comp_def, hregistered]

theorem filter_point_map {α : Type} {propose : α → Proposal} {q : Point}
    (h : ∀ a, (propose a).point = q.name) (xs : List α) (p : Point) :
    (xs.map propose).filter (fun x => x.point = p.name) =
      if q = p then xs.map propose else [] := by
  split
  · next hq =>
    refine List.filter_eq_self.mpr fun x hx => ?_
    obtain ⟨a, -, rfl⟩ := List.mem_map.mp hx
    exact decide_eq_true (hq ▸ h a)
  · next hq =>
    refine List.filter_eq_nil_iff.mpr fun x hx => ?_
    obtain ⟨a, -, rfl⟩ := List.mem_map.mp hx
    rw [h a, decide_eq_true_eq]
    exact fun hname => hq (Point.name_inj hname)

/-- Every point has just the implementations of the plugins of every run. -/
theorem implementations_builtin (h : (installAll builtin c).run.value = .ok r) (p : Point) :
    (r.entries p.name).map (·.impl) = (builtinFor c p).map (Extension.of p) := by
  have hname : ∀ q p : Point, q.name = p.name ↔ q = p :=
    fun q p => ⟨Point.name_inj, congrArg Point.name⟩
  have hcore : core.proposals c = [
      Point.symbolTranslator.propose "listing_symbols" Assembly.ofGroups,
      Point.fileTranslator.propose "listing_files" Assembly.ofFiles,
      Point.merger.propose "merger" mergeModules,
      Point.pageCreator.propose "page_creator" createPages] := rfl
  have hbase : (base.proposals c).filter (fun x => x.point = p.name) =
      (if Point.moduleTransformer = p then BaseTransform.all.map moduleProposal else []) ++
        if Point.pageTransformer = p then (pageTransforms c).map pageProposal else [] := by
    rw [show base.proposals c = BaseTransform.all.map moduleProposal ++
        (pageTransforms c).map pageProposal from rfl, List.filter_append]
    exact congrArg₂ _ (filter_point_map (fun _ => rfl) _ p) (filter_point_map (fun _ => rfl) _ p)
  rw [implementations_installed h, builtin, List.flatMap_cons, List.flatMap_cons, List.flatMap_cons,
    hcore, hbase, proposals_markdown]
  cases hformat : isMarkdown c.format <;> cases p <;>
    simp [builtinFor, Point.propose, moduleProposal, pageProposal, hformat, hname,
      Function.comp_def]

end Plugin

namespace Generator

variable {α β : Type} {g : Generator} {r : Registry Extension} {c : RunContext}

/-- The plugins of every run take part in the run, and no further ones do. -/
structure UsesBuiltin (g : Generator) : Prop where
  noExtra : g.extraPlugins = []
  enabled : ∀ p ∈ Plugin.builtin, g.config.isDisabled p.name = false

theorem UsesBuiltin.plugins_eq (h : g.UsesBuiltin) : g.plugins = Plugin.builtin := by
  rw [plugins, h.noExtra, List.append_nil]
  exact List.filter_eq_self.mpr fun p hp => by rw [h.enabled p hp]; rfl

theorem UsesBuiltin.not_mistypes (hg : g.UsesBuiltin) (h : g.IsReady r) (p : Point) :
    ¬ r.Mistypes p :=
  Plugin.not_mistypes_of_isTyped h.installed (hg.plugins_eq ▸ Plugin.isTyped_builtin) p

theorem UsesBuiltin.implementations (hg : g.UsesBuiltin) (h : g.IsReady r) (p : Point) :
    (r.entries p.name).map (·.impl) = (Plugin.builtinFor g.config p).map (Extension.of p) := by
  have hinstalled := h.installed
  rw [hg.plugins_eq] at hinstalled
  exact Plugin.implementations_builtin hinstalled p

/-- A run finds the implementations of the plugins of every run in the registry. -/
structure HoldsBuiltin (r : Registry Extension) (c : Config) : Prop where
  single : ∀ p ∈ Point.singles, ∀ run, Plugin.builtinFor c p = [run] →
    (single r p).run = pure (.ok run)
  chain : ∀ p, ∃ ts, (chain r p).run = pure (.ok ts) ∧ ts.map Prod.snd = Plugin.builtinFor c p

theorem UsesBuiltin.holdsBuiltin (hg : g.UsesBuiltin)
    (h : g.installPlugins.run.value = .ok r) : HoldsBuiltin r g.config := by
  have hready := isReady_of_installPlugins h
  have hinjective : ∀ p : Point, Function.Injective (Extension.of p) := by
    intro p run run' heq
    cases heq
    rfl
  constructor
  · intro p hp run hrun
    obtain ⟨run', hsingle, e, he, himpl⟩ := hready.exists_single hp
    have hmem := List.mem_map_of_mem (f := fun e : RegistryEntry Extension => e.impl) he
    rw [hg.implementations hready, hrun, himpl] at hmem
    obtain rfl := hinjective p (List.mem_singleton.mp hmem)
    exact hsingle
  · intro p
    obtain ⟨ts, hts, hmap⟩ := exists_chain hready.installed (hg.not_mistypes hready p)
    refine ⟨ts, hts, List.map_injective_iff.mpr (hinjective p) ?_⟩
    rw [← hg.implementations hready, List.map_map]
    simpa [Function.comp_def] using congrArg (List.map Prod.snd) hmap

/-- A chain over some items is their left fold. -/
theorem value_applyChain_of_map {s : Stage} {point : Point} {module : Text}
    {ts : List (Transform α)} {xs : List β}
    {run : β → α → RunContext → Traced (Except Fault α)}
    (h : ts.map Prod.snd = xs.map run) (a : α) :
    (applyChain s point module c ts a).run.value =
      xs.foldlM (fun a x => (run x a c).value.mapError (failing s)) a := by
  have hfold : (xs.map run).foldlM (fun a f => (f a c).value.mapError (failing s)) a =
      xs.foldlM (fun a x => (run x a c).value.mapError (failing s)) a := by
    rw [List.foldlM_map]
  rw [value_applyChain, ← hfold, ← h, List.foldlM_map]
  rfl

/-! ## The stages -/

theorem eq_ok_of_mapError {ε ε' : Type} {f : ε → ε'} {x : Except ε α} {a : α}
    (h : x.mapError f = .ok a) : x = .ok a := by
  cases x with
  | error e => cases h
  | ok b => exact congrArg _ (Except.ok.inj h)

theorem produces_translatePass {a : AnalyzedPass} {pair : DocModule × DocModule}
    (ha : a ∈ c.passes)
    (h : (translatePass c a Assembly.ofGroups Assembly.ofFiles).value = .ok pair) :
    (c.Produces pair.1 ∧ c.Produces pair.2) ∧ pair.1.name = a.pass.moduleName := by
  rw [value_translatePass] at h
  cases henvironment : a.environment with
  | none =>
      have hnone : (Assembly.ofGroups a c).value =
          .error (Assembly.missingEnvironment a.platform) := by
        unfold Assembly.ofGroups
        rw [henvironment]
        rfl
      rw [hnone] at h
      cases h
  | some e =>
      have hsymbols := Assembly.value_ofGroups henvironment c
      have hfiles := Assembly.value_ofFiles henvironment c
      rw [hsymbols, hfiles] at h
      cases h
      exact ⟨⟨.symbols ha hsymbols, .files ha hfiles⟩, rfl⟩

/-- The modules that are merged are those of the passes, two for each, and the first of them is
named after the first pass. -/
theorem produces_translate {ms : List DocModule} (hr : HoldsBuiltin r c.config)
    (h : (translate r c).run.value = .ok ms) :
    (∀ m ∈ ms, c.Produces m) ∧
      ∀ a rest, c.passes = a :: rest →
        ∃ m m' more, ms = m :: m' :: more ∧ m.name = a.pass.moduleName := by
  unfold translate at h
  rw [Traced.run_bind_of_pure (hr.single .symbolTranslator (by decide) _ rfl),
    Traced.run_bind_of_pure (hr.single .fileTranslator (by decide) _ rfl),
    Traced.value_run_bind, Traced.value_run_lift] at h
  dsimp only at h
  split at h
  · cases h
  · next pairs hpairs =>
    cases h
    rw [Pool.answer_run_eq_ok_iff, List.map_map] at hpairs
    have hpair : ∀ pair ∈ pairs, c.Produces pair.1 ∧ c.Produces pair.2 := by
      intro pair hpair
      have hmem := hpairs ▸ List.mem_map_of_mem (f := Except.ok) hpair
      obtain ⟨a, ha, hvalue⟩ := List.mem_map.mp hmem
      exact (produces_translatePass ha hvalue).1
    refine ⟨fun m hm => ?_, fun a rest hpasses => ?_⟩
    · rcases List.mem_append.mp hm with hm | hm
      · obtain ⟨pair, hmem, rfl⟩ := List.mem_map.mp hm
        exact (hpair pair hmem).1
      · obtain ⟨pair, hmem, rfl⟩ := List.mem_map.mp hm
        exact (hpair pair hmem).2
    · rw [hpasses, List.map_cons] at hpairs
      cases pairs with
      | nil => cases hpairs
      | cons pair more =>
          have hfirst := (List.cons.inj hpairs).1
          have hname := (produces_translatePass (hpasses ▸ List.mem_cons_self) hfirst).2
          cases more with
          | nil => exact ⟨pair.1, pair.2, [], rfl, hname⟩
          | cons next more => exact ⟨pair.1, next.1, _, rfl, hname⟩

theorem produces_merge {ms : List DocModule} {m : DocModule} (hr : HoldsBuiltin r c.config)
    (h : (merge r c ms).run.value = .ok m) (hms : ∀ n ∈ ms, c.Produces n) :
    c.Produces m ∧ (DocModule.merge ms).value = .ok m := by
  unfold merge at h
  rw [Traced.run_bind_of_pure (hr.single .merger (by decide) _ rfl), value_call] at h
  have hvalue := eq_ok_of_mapError h
  unfold Plugin.mergeModules at hvalue
  rw [Traced.value_bind] at hvalue
  split at hvalue
  · next merged hmerged =>
    cases hvalue
    exact ⟨.merged hms hmerged, hmerged⟩
  · cases hvalue

/-- A merged module is named after the first one that has a name. -/
theorem name_merge {n n' m : DocModule} {more : List DocModule}
    (h : (DocModule.merge (n :: n' :: more)).value = .ok m) (hn : n.name ≠ []) :
    m.name = n.name := by
  obtain rfl := Except.ok.inj h
  show ((n :: n' :: more).find? fun m => !m.name.isEmpty).elim [] (·.name) = n.name
  rw [List.find?_cons_of_pos (by simpa using hn)]
  rfl

theorem name_baseTransform {t : BaseTransform} {m n : DocModule}
    (h : (t.apply m c).value = .ok n) : n.name = m.name := by
  cases t with
  | moduleDocumentation =>
      refine DocModule.applyAllIncludes_induction (motive := fun n => n.name = m.name)
        (fun p n s hn => ?_) h rfl
      rw [← hn]
      unfold DocModule.applySection
      split
      · cases s.kind <;> rfl
      · rfl
  | _ =>
      obtain rfl := Except.ok.inj h
      rfl

theorem produces_transformModule {m n : DocModule} (hr : HoldsBuiltin r c.config)
    (h : (transformModule r c m).run.value = .ok n) (hm : c.Produces m) :
    c.Produces n ∧ n.name = m.name := by
  have hfold : ∀ (ts : List BaseTransform) (m : DocModule), c.Produces m →
      ts.foldlM (fun m t => (t.apply m c).value.mapError (failing .transformModule)) m = .ok n →
      c.Produces n ∧ n.name = m.name := by
    intro ts
    induction ts with
    | nil =>
        intro m hm hn
        obtain rfl := Except.ok.inj hn
        exact ⟨hm, rfl⟩
    | cons t rest ih =>
        intro m hm hn
        rw [List.foldlM_cons] at hn
        cases ht : (t.apply m c).value with
        | error f =>
            rw [ht] at hn
            cases hn
        | ok next =>
            rw [ht] at hn
            obtain ⟨hproduced, hname⟩ := ih next (.transformed t hm ht) hn
            exact ⟨hproduced, hname.trans (name_baseTransform ht)⟩
  obtain ⟨ts, hts, hmap⟩ := hr.chain .moduleTransformer
  refine hfold BaseTransform.all m hm ?_
  unfold transformModule at h
  rw [Traced.run_bind_of_pure hts, value_applyChain_of_map hmap] at h
  exact h

/-- The page tree that the page transforms leave, if nothing else has a part in it. -/
theorem value_transformPages {t : PageTree} (hr : HoldsBuiltin r c.config) :
    (transformPages r c t).run.value =
      .ok ((Plugin.pageTransforms c.config).foldlM (fun t p => p.apply t) t :
        Traced PageTree).value := by
  have hfold : ∀ (ps : List PageTransform) (t : PageTree),
      ps.foldlM (fun t p => (Plugin.applyPageTransform p t c).value.mapError
        (failing .transformPages)) t =
      .ok (ps.foldlM (fun t p => p.apply t) t : Traced PageTree).value := by
    intro ps
    induction ps with
    | nil => exact fun _ => rfl
    | cons p rest ih =>
        intro t
        rw [List.foldlM_cons, List.foldlM_cons, Traced.value_bind]
        exact ih _
  obtain ⟨ts, hts, hmap⟩ := hr.chain .pageTransformer
  unfold transformPages
  rw [← hfold, Traced.run_bind_of_pure hts]
  exact value_applyChain_of_map hmap t

/-! ## The run -/

theorem map_of_analyzeFrom {analyzer : Analyzer} {ps : List Pass} :
    ∀ {position : Nat} {passes : List AnalyzedPass},
      (analyzeFrom analyzer position ps).run.value = .ok passes →
        passes.map (fun a => (a.platform, a.pass)) = ps.map fun p => (p.platform, p) := by
  induction ps with
  | nil =>
      intro position passes h
      cases h
      rfl
  | cons p rest ih =>
      intro position passes h
      rw [analyzeFrom] at h
      obtain ⟨a, ha, h⟩ := Traced.exists_of_value_run_bind h
      obtain ⟨more, hmore, h⟩ := Traced.exists_of_value_run_bind h
      cases h
      rw [List.map_cons, ih hmore]
      congr 1
      unfold analyzePass at ha
      simp only [Traced.value_run_bind, Traced.value_run_lift, Traced.value_relay] at ha
      split at ha
      · cases ha
        rfl
      · cases ha
      · cases ha

/-- A run looks at the passes of its configuration in their order. -/
theorem hasPasses_of_setup {passes : List AnalyzedPass} (h : g.setup.run.value = .ok passes) :
    RunContext.HasPasses ⟨g.config, passes, g.disk⟩ g.config.passes := by
  unfold setup at h
  cases hroot : g.config.cacheRoot with
  | none =>
      rw [hroot] at h
      exact map_of_analyzeFrom h
  | some root =>
      rw [hroot] at h
      obtain ⟨-, -, h⟩ := Traced.exists_of_value_run_bind h
      exact map_of_analyzeFrom h

theorem isMarkdown_of_installPlugins (hg : g.UsesBuiltin)
    (h : g.installPlugins.run.value = .ok r) : Plugin.isMarkdown g.config.format = true := by
  have hready := isReady_of_installPlugins h
  obtain ⟨e, he, -⟩ := hready.filled .renderer (by decide)
  have himplementations := hg.implementations hready .renderer
  by_contra hformat
  rw [he, Plugin.builtinFor, if_neg hformat] at himplementations
  cases himplementations

theorem disk_renderMarkdown (t : PageTree) (c : RunContext) (disk : Disk) :
    (Plugin.renderMarkdown t c disk).value.2 =
      ((Disk.writer c.config.outputDir).writeTree t disk).value.2 := by
  unfold Plugin.renderMarkdown
  rw [Traced.value_bind]
  split <;> next hvalue => rw [hvalue]; rfl

/-- A run without further plugins writes its page tree below the output directory. -/
theorem disk_runStages {p : Prepared} (hg : g.UsesBuiltin) (h : g.prepare.run.value = .ok p) :
    g.runStages.value.2 = ((Disk.writer g.config.outputDir).writeTree p.tree g.disk).value.2 := by
  obtain ⟨passes, -, -, -, -, -, hinstall, -, hcontext, -⟩ := stages_of_prepare h
  have hrenderer : (single p.registry .renderer).run = pure (.ok Plugin.renderMarkdown) := by
    refine (hg.holdsBuiltin hinstall).single .renderer (by decide) _ ?_
    exact if_pos (isMarkdown_of_installPlugins hg hinstall)
  have hrender : (render p.registry p.context p.tree).value.2 =
      (Plugin.renderMarkdown p.tree p.context p.context.disk).value.2 := by
    unfold render
    rw [hrenderer, Traced.value_bind]
    dsimp only [pure]
    rw [Traced.value_bind, Point.value_call]
    split <;> next hvalue => rw [hvalue]
  have hrun : g.runStages.value.2 = (render p.registry p.context p.tree).value.2 := by
    rw [runStages, Traced.value_bind, h]
    dsimp only
    rw [Traced.value_bind, Traced.value_bind]
    split <;> next hvalue => rw [hvalue]; rfl
  rw [hrun, hrender, disk_renderMarkdown, hcontext]

/-- The run documents the module: this is what its stages come to, and it writes the page tree of
the module below the output directory. -/
structure Documents (g : Generator) (p : Prepared) (m : DocModule) : Prop where
  produced : p.context.Produces m
  /-- The first pass names the module. -/
  named : g.config.passes.head?.map (·.moduleName) = some m.name
  tree : p.tree = (PageTree.finished g.config m).value
  disk : g.runStages.value.2 = ((Disk.writer g.config.outputDir).writeTree p.tree g.disk).value.2
  ofListings : ∀ disk, g.analyzer = .ofListings disk → p.context.OfListings

/-- A run without further plugins documents a module when it comes to rendering. -/
theorem exists_documents {p : Prepared} (hg : g.UsesBuiltin) (hvalid : g.config.validate = .ok ())
    (h : g.prepare.run.value = .ok p) : ∃ m, g.Documents p m := by
  obtain ⟨passes, ms, merged, m, created, hsetup, hinstall, hpasses, hcontext, htranslate, hmerge,
    htransform, hcreate, hpages⟩ := stages_of_prepare h
  have hr : HoldsBuiltin p.registry p.context.config := hcontext ▸ hg.holdsBuiltin hinstall
  obtain ⟨hproduced, hfirst⟩ := produces_translate hr htranslate
  obtain ⟨hmerged, hvalue⟩ := produces_merge hr hmerge hproduced
  obtain ⟨hm, hname⟩ := produces_transformModule hr htransform hmerged
  have hcreated : created = (PageTree.create m).value := by
    unfold createPages at hcreate
    rw [Traced.run_bind_of_pure (hr.single .pageCreator (by decide) _ rfl), value_call] at hcreate
    exact (Except.ok.inj (eq_ok_of_mapError hcreate)).symm
  refine ⟨m, hm, ?_, ?_, disk_runStages hg h, fun disk hanalyzer => ?_⟩
  · have hmap := (hasPasses_of_setup hsetup).map_pass
    cases passes with
    | nil => exact absurd hmap.symm hpasses
    | cons a more =>
        have ha : a.pass ∈ g.config.passes := hmap ▸ List.mem_cons_self
        obtain ⟨n, n', others, rfl, hn⟩ := hfirst a more (by rw [hcontext])
        have hne := ((Config.validate_eq_ok_iff.mp hvalid).2.1 a.pass ha).moduleName
        rw [← hmap, hname, name_merge hvalue (hn ▸ hne), hn]
        rfl
  · rw [value_transformPages hr, hcontext, hcreated] at hpages
    exact (Except.ok.inj hpages).symm
  · rw [hcontext]
    exact setup_ofListings hanalyzer hsetup

end Generator

end CrossDoc
