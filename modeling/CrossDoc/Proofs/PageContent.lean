import CrossDoc.Page.Creation

/-!
# The parts of a page

A page is read in document order.  Under a heading of the second level stands a
table, and a row of it that starts with a link lists a declaration.  What a
declaration says about itself lists nothing, however its platforms differ.
-/

namespace CrossDoc

namespace Content

mutual

/-- The part and all below it, in document order. -/
def flatten : Content → List Content
  | ⟨kind, text, level, target, url, style, platforms, children⟩ =>
      ⟨kind, text, level, target, url, style, platforms, children⟩ :: flattenAll children

def flattenAll : List Content → List Content
  | [] => []
  | c :: rest => c.flatten ++ flattenAll rest

end

theorem flatten_eq (c : Content) : c.flatten = c :: flattenAll c.children := by
  cases c
  rw [flatten]

theorem flattenAll_eq_flatMap (cs : List Content) : flattenAll cs = cs.flatMap flatten := by
  induction cs with
  | nil => rfl
  | cons c rest ih => rw [flattenAll, ih, List.flatMap_cons]

/-- What is collected from a part is collected from the part itself and then
from the parts below it. -/
theorem filterMap_flatten {α : Type} (f : Content → Option α) (c : Content) :
    c.flatten.filterMap f = (f c).toList ++ c.children.flatMap fun d => d.flatten.filterMap f := by
  rw [flatten_eq, flattenAll_eq_flatMap, List.filterMap_cons, List.filterMap_flatMap]
  cases f c <;> rfl

end Content

/-! ## Pages below a page -/

namespace Page

theorem walk_eq (p : Page) (above : List Text) :
    p.walk above = (p, above) :: walkAll (above ++ [p.name]) p.children := by
  cases p
  rw [walk]

theorem walkAll_eq_flatMap (above : List Text) : ∀ ps : List Page,
    walkAll above ps = ps.flatMap (walk above)
  | [] => rfl
  | p :: rest => by rw [walkAll, walkAll_eq_flatMap above rest, List.flatMap_cons]

end Page

/-! ## Content of several platforms -/

namespace PlatformMap

variable {α : Type} {render : α → Content} {m : PlatformMap α}

theorem exists_of_mem_addVariant {p : Platform} {c : Content} {v : Content × List Platform} :
    ∀ {vs : List (Content × List Platform)}, v ∈ addVariant p c vs →
      v.1 = c ∨ ∃ w ∈ vs, w.1 = v.1
  | [], h => Or.inl (congrArg Prod.fst (List.mem_singleton.mp h))
  | (d, ps) :: rest, h => by
      rw [addVariant] at h
      split at h
      · rcases List.mem_cons.mp h with rfl | h
        · exact Or.inr ⟨(d, ps), by simp, rfl⟩
        · exact Or.inr ⟨v, List.mem_cons_of_mem _ h, rfl⟩
      · rcases List.mem_cons.mp h with rfl | h
        · exact Or.inr ⟨(d, ps), by simp, rfl⟩
        · rcases exists_of_mem_addVariant h with h | ⟨w, hw, h⟩
          · exact Or.inl h
          · exact Or.inr ⟨w, List.mem_cons_of_mem _ hw, h⟩

/-- Every variant is how some platform renders. -/
theorem exists_of_mem_variants {v : Content × List Platform} (h : v ∈ m.variants render) :
    ∃ e ∈ m.entries, v.1 = render e.2 := by
  have hfold : ∀ (es : List (Platform × α)) (vs : List (Content × List Platform)),
      v ∈ es.foldl (fun vs e => addVariant e.1 (render e.2) vs) vs →
        (∃ e ∈ es, v.1 = render e.2) ∨ ∃ w ∈ vs, w.1 = v.1 := by
    intro es
    induction es with
    | nil => exact fun vs hv => Or.inr ⟨v, hv, rfl⟩
    | cons e rest ih =>
        intro vs hv
        rcases ih _ hv with ⟨x, hx, hvx⟩ | ⟨w, hw, hwv⟩
        · exact Or.inl ⟨x, List.mem_cons_of_mem _ hx, hvx⟩
        · rcases exists_of_mem_addVariant hw with hw | ⟨u, hu, huw⟩
          · exact Or.inl ⟨e, by simp, hwv ▸ hw⟩
          · exact Or.inr ⟨u, hu, huw.trans hwv⟩
  rcases hfold m.entries [] h with h | ⟨w, hw, -⟩
  · exact h
  · cases hw

/-- What the content of several platforms is made of: the parts of how a
platform renders, some of them tagged, and what holds the variants. -/
theorem forall_mem_flatten_content {P : Content → Prop} (empty : P (.group [] []))
    (hinted : ∀ ps cs, P { kind := .hinted, platforms := ps, children := cs })
    (tagged : ∀ c ps, P c → P (c.tagged ps))
    (rendered : ∀ e ∈ m.entries, ∀ c ∈ (render e.2).flatten, P c) :
    ∀ c ∈ (m.content render).flatten, P c := by
  have hvariant : ∀ v ∈ m.variants render, ∀ c ∈ (v.1.tagged v.2).flatten, P c := by
    intro v hv c hc
    obtain ⟨e, he, hve⟩ := exists_of_mem_variants hv
    have hall := rendered e he
    rw [← hve, Content.flatten_eq] at hall
    rw [Content.flatten_eq] at hc
    rcases List.mem_cons.mp hc with rfl | hc
    · exact tagged v.1 v.2 (hall v.1 (by simp))
    · exact hall c (List.mem_cons_of_mem _ hc)
  have hempty : ∀ c ∈ (Content.group [] []).flatten, P c := by
    intro c hc
    obtain rfl := List.mem_singleton.mp hc
    exact empty
  unfold content
  split
  · exact hempty
  · next v ps hsingle =>
    split
    · exact hempty
    · exact hvariant (v, ps) (by simp [hsingle])
  · intro c hc
    rw [Content.flatten_eq] at hc
    rcases List.mem_cons.mp hc with rfl | hc
    · exact hinted _ _
    · rw [Content.flattenAll_eq_flatMap] at hc
      obtain ⟨d, hd, hc⟩ := List.mem_flatMap.mp hc
      obtain ⟨v, hv, rfl⟩ := List.mem_map.mp hd
      exact hvariant v hv c hc

end PlatformMap

end CrossDoc
