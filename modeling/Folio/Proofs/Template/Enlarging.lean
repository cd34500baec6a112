import Folio.Proofs.Template.History
/-!
# One template more

A template with a new name, put in somewhere among others, changes nothing for them. They replace one
another as before, with the same warnings, and keep their order around the new one.
-/

namespace Folio

namespace Collection

variable {collection larger : Collection} {template other : Template} {before : List Template}

theorem place_append_of_mem (h : other.name ∈ before.map Template.name) (after : List Template) :
    place other (before ++ after) = place other before ++ after := by
  induction before with
  | nil => cases h
  | cons first rest ih =>
    rw [List.cons_append, place, place]
    by_cases hf : first.name = other.name
    · rw [if_pos hf, if_pos hf, List.cons_append]
    · have hrest : other.name ∈ rest.map Template.name :=
        (List.mem_cons.mp h).resolve_left (Ne.symm hf)
      rw [if_neg hf, if_neg hf, ih hrest, List.cons_append]

theorem place_append_of_notMem (h : other.name ∉ before.map Template.name) (after : List Template) :
    place other (before ++ after) = before ++ place other after := by
  induction before with
  | nil => rfl
  | cons first rest ih =>
    obtain ⟨hf, hrest⟩ := not_or.mp (mt List.mem_cons.mpr h)
    rw [List.cons_append, place, if_neg (Ne.symm hf), ih hrest, List.cons_append]

/-- A collection with one template more, and no other warnings. -/
structure Gains (collection larger : Collection) (template : Template) : Prop where
  templates : ∃ before after, collection.templates = before ++ after ∧
    larger.templates = before ++ template :: after
  warnings : larger.warnings = collection.warnings

theorem gains_insert (h : template.name ∉ collection.templates.map Template.name) :
    Gains collection (collection.insert template) template := by
  have hplace := place_append_of_notMem h []
  have hnotice : collection.notice template = [] := by
    rw [notice, Option.toList_eq_nil_iff, Option.map_eq_none_iff, Option.eq_none_iff_forall_ne_some]
    intro found hf
    obtain ⟨hm, hname⟩ := find?_eq_some_iff.mp hf
    exact h (hname ▸ List.mem_map_of_mem hm)
  rw [List.append_nil] at hplace
  refine ⟨⟨collection.templates, [], (List.append_nil _).symm, hplace⟩, ?_⟩
  rw [insert, hnotice, List.append_nil]

theorem Gains.find? (h : Gains collection larger template) {name : String}
    (hn : name ≠ template.name) : larger.find? name = collection.find? name := by
  obtain ⟨before, after, hc, hl⟩ := h.templates
  rw [Collection.find?, Collection.find?, hc, hl, List.find?_append, List.find?_append,
    List.find?_cons_of_neg]
  simpa using Ne.symm hn

theorem Gains.insert (h : Gains collection larger template) (hn : other.name ≠ template.name) :
    Gains (collection.insert other) (larger.insert other) template := by
  obtain ⟨before, after, hc, hl⟩ := h.templates
  constructor
  · simp only [Collection.insert, hc, hl]
    by_cases hb : other.name ∈ before.map Template.name
    · exact ⟨place other before, after, place_append_of_mem hb _, place_append_of_mem hb _⟩
    · refine ⟨before, place other after, place_append_of_notMem hb _, ?_⟩
      rw [place_append_of_notMem hb, place, if_neg (Ne.symm hn)]
  · rw [Collection.insert, Collection.insert, h.warnings, notice, notice, h.find? hn]

theorem Gains.foldl_insert (h : Gains collection larger template) {more : List Template}
    (hn : template.name ∉ more.map Template.name) :
    Gains (more.foldl Collection.insert collection) (more.foldl Collection.insert larger)
      template := by
  induction more generalizing collection larger with
  | nil => exact h
  | cons first rest ih =>
    obtain ⟨hf, hrest⟩ := not_or.mp (mt List.mem_cons.mpr hn)
    exact ih (h.insert (Ne.symm hf)) hrest

/-- It does not matter where among the others the new template is put in. -/
theorem gains_ofList {after : List Template}
    (h : template.name ∉ (before ++ after).map Template.name) :
    Gains (ofList (before ++ after)) (ofList (before ++ template :: after)) template := by
  rw [List.map_append, List.mem_append, not_or] at h
  obtain ⟨hb, ha⟩ := h
  have hnew : template.name ∉ (ofList before).templates.map Template.name := by
    rw [names_ofList, List.mem_eraseDups]
    exact hb
  rw [ofList, ofList, List.foldl_append, List.foldl_append, List.foldl_cons, ← ofList]
  exact (gains_insert hnew).foldl_insert ha

end Collection

end Folio
