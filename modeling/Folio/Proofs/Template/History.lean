import Folio.Proofs.Template.Gathering
import Folio.Template.Collection
import Mathlib.Data.Finset.Card
import Mathlib.Data.List.Induction
/-!
# What a collection remembers

A collection is filled by putting templates in, one after the other. It keeps the names in the order
in which they came first and the templates that came last under them. Going through it, looking
names up and the bodies by name all show the same.
-/

namespace Folio

namespace Index

variable {κ α : Type} [LT κ] [DecidableEq κ] [KeyOrder κ]

theorem mem_keys {index : Index κ α} {key : κ} :
    key ∈ index.keys ↔ (index.get? key).isSome = true := by
  rw [keys, List.mem_map, Option.isSome_iff_exists]
  constructor
  · rintro ⟨⟨_, value⟩, hm, rfl⟩
    exact ⟨value, get?_eq_some_iff.mpr hm⟩
  · rintro ⟨value, hg⟩
    exact ⟨(key, value), get?_eq_some_iff.mp hg, rfl⟩

theorem ext_get? {a b : Index κ α} (h : ∀ key, a.get? key = b.get? key) : a = b := by
  have hnodup : ∀ index : Index κ α, index.entries.Nodup := by
    intro index
    refine index.sorted.imp fun {x y} hlt => ?_
    rintro rfl
    exact KeyOrder.irrefl x.1 hlt
  have hmem : ∀ entry, entry ∈ a.entries ↔ entry ∈ b.entries := fun entry => by
    rw [← get?_eq_some_iff, ← get?_eq_some_iff, h]
  have hperm := (List.perm_ext_iff_of_nodup (hnodup a) (hnodup b)).mpr hmem
  refine ext (hperm.eq_of_pairwise (fun x y _ _ hxy hyx => ?_) a.sorted b.sorted)
  exact absurd (KeyOrder.trans hxy hyx) (KeyOrder.irrefl _)

variable [DecidableLT κ]

theorem get?_ofList (entries : List (κ × α)) (key : κ) :
    (ofList entries).get? key = entries.reverse.lookup key := by
  induction entries using List.reverseRecOn with
  | nil => rfl
  | append_singleton before last ih =>
    obtain ⟨k, v⟩ := last
    have hstep : ofList (before ++ [(k, v)]) = (ofList before).insert k v := by
      rw [ofList, List.foldl_append]
      rfl
    rw [hstep, get?_insert, List.reverse_append, List.reverse_singleton, List.singleton_append,
      List.lookup_cons, ih]
    by_cases h : key = k
    · simp [h]
    · simp [h, beq_false_of_ne h]

end Index

namespace Collection

/-! ## Looking for a name -/

theorem find?_eq_some_iff {collection : Collection} {name : String} {template : Template} :
    collection.find? name = some template ↔
      template ∈ collection.templates ∧ template.name = name := by
  constructor
  · intro h
    exact ⟨List.mem_of_find?_eq_some h, by simpa using List.find?_some h⟩
  · rintro ⟨hm, rfl⟩
    cases h : collection.find? template.name with
    | none =>
      have hother := List.find?_eq_none.mp h template hm
      simp at hother
    | some found =>
      have hname : found.name = template.name := by simpa using List.find?_some h
      have hfound := List.mem_of_find?_eq_some h
      rw [List.inj_on_of_nodup_map collection.distinct hfound hm hname]

theorem find?_place (template : Template) (templates : List Template) (name : String) :
    (place template templates).find? (·.name = name)
      = if name = template.name then some template else templates.find? (·.name = name) := by
  induction templates with
  | nil =>
    by_cases h : template.name = name
    · simp [place, h]
    · simp [place, h, Ne.symm h]
  | cons first rest ih =>
    rw [place]
    by_cases hsame : first.name = template.name
    · rw [if_pos hsame, List.find?_cons, List.find?_cons, hsame]
      by_cases h : template.name = name
      · simp [h]
      · simp [h, Ne.symm h]
    · rw [if_neg hsame, List.find?_cons, List.find?_cons, ih]
      by_cases h : first.name = name
      · simp [h, h ▸ hsame]
      · simp [h]

theorem find?_insert (collection : Collection) (template : Template) (name : String) :
    (collection.insert template).find? name
      = if name = template.name then some template else collection.find? name :=
  find?_place template collection.templates name

def bodyOf? (collection : Collection) (name : String) : Option Body :=
  (collection.find? name).map Template.body

theorem lookup_eq_ite (collection : Collection) (name : String) :
    collection.lookup name = if name = "" then none else collection.find? name := by
  simp only [lookup, String.isEmpty_iff]

theorem get?_partials (collection : Collection) (name : String) :
    collection.partials.get? name = collection.bodyOf? name := by
  have hlookup : ∀ templates : List Template,
      (templates.map fun template => (template.name, template.body)).lookup name
        = (templates.find? (·.name = name)).map Template.body := by
    intro templates
    induction templates with
    | nil => rfl
    | cons first rest ih =>
      rw [List.map_cons, List.lookup_cons, List.find?_cons]
      by_cases h : first.name = name
      · simp [h]
      · simp [h, beq_false_of_ne (Ne.symm h), ih]
  let reversed : Collection :=
    ⟨collection.templates.reverse, [], by simpa using collection.distinct⟩
  have hreversed : reversed.find? name = collection.find? name := by
    ext template
    simp only [find?_eq_some_iff, reversed, List.mem_reverse]
  rw [partials, Index.get?_ofList, ← List.map_reverse, hlookup, bodyOf?, ← hreversed]
  rfl

/-! ## Insertions -/

/-- A collection of templates that are put in one after the other. -/
def ofList (inserted : List Template) : Collection :=
  inserted.foldl insert empty

theorem ofList_concat (before : List Template) (last : Template) :
    ofList (before ++ [last]) = (ofList before).insert last := by
  rw [ofList, List.foldl_append]
  rfl

def latest? (inserted : List Template) (name : String) : Option Template :=
  inserted.reverse.find? (·.name = name)

theorem find?_ofList (inserted : List Template) (name : String) :
    (ofList inserted).find? name = latest? inserted name := by
  induction inserted using List.reverseRecOn with
  | nil => rfl
  | append_singleton before last ih =>
    rw [ofList_concat, find?_insert, ih, latest?, latest?, List.reverse_append,
      List.reverse_singleton, List.singleton_append, List.find?_cons]
    by_cases h : last.name = name
    · simp [h]
    · simp [h, Ne.symm h]

theorem eraseDups_concat (names : List String) (name : String) :
    (names ++ [name]).eraseDups
      = if name ∈ names then names.eraseDups else names.eraseDups ++ [name] := by
  rw [List.eraseDups_append]
  by_cases h : name ∈ names
  · rw [if_pos h]
    simp [List.removeAll, h]
  · rw [if_neg h]
    simp [List.removeAll, h, List.eraseDups_cons]

theorem names_ofList (inserted : List Template) :
    (ofList inserted).templates.map Template.name = (inserted.map Template.name).eraseDups := by
  induction inserted using List.reverseRecOn with
  | nil => rfl
  | append_singleton before last ih =>
    rw [ofList_concat, insert, names_place, ih, List.map_append, List.map_singleton,
      eraseDups_concat]
    simp only [List.mem_eraseDups]

theorem size_ofList (inserted : List Template) :
    (ofList inserted).size = (inserted.map Template.name).toFinset.card := by
  have hlength : (ofList inserted).size = (inserted.map Template.name).eraseDups.length := by
    rw [← names_ofList, List.length_map, size]
  have hdistinct := (ofList inserted).distinct
  rw [names_ofList] at hdistinct
  rw [hlength, ← List.toFinset_card_of_nodup hdistinct]
  congr 1
  ext name
  simp only [List.mem_toFinset, List.mem_eraseDups]

theorem isSome_latest? {inserted : List Template} {name : String} :
    (latest? inserted name).isSome = true ↔ name ∈ inserted.map Template.name := by
  simp only [latest?, List.find?_isSome, List.mem_reverse, decide_eq_true_eq, List.mem_map]

theorem length_place (template : Template) (templates : List Template) :
    (place template templates).length = templates.length
      + (if template.name ∈ templates.map Template.name then 0 else 1) := by
  have hnames := congrArg List.length (names_place template templates)
  rw [List.length_map] at hnames
  rw [hnames]
  split <;> simp

theorem length_notice (collection : Collection) (template : Template) :
    (collection.notice template).length
      = if template.name ∈ collection.templates.map Template.name then 1 else 0 := by
  rw [notice]
  cases h : collection.find? template.name with
  | none =>
    rw [if_neg]
    · rfl
    · simpa [find?] using h
  | some found =>
    obtain ⟨hm, hname⟩ := find?_eq_some_iff.mp h
    rw [if_pos (hname ▸ List.mem_map_of_mem hm)]
    rfl

theorem size_add_warnings_insert (collection : Collection) (template : Template) :
    (collection.insert template).size + (collection.insert template).warnings.length
      = collection.size + collection.warnings.length + 1 := by
  simp only [insert, size, length_place, List.length_append, length_notice]
  split <;> omega

theorem size_add_warnings_ofList (inserted : List Template) :
    (ofList inserted).size + (ofList inserted).warnings.length = inserted.length := by
  induction inserted using List.reverseRecOn with
  | nil => rfl
  | append_singleton before last ih =>
    rw [ofList_concat, size_add_warnings_insert, ih, List.length_append, List.length_singleton]

/-- A collection that templates have been put into lists each of their names once, in the order in
which the names came first (of equal ones `eraseDups` keeps the first), with the template that came
last under it. It has as many templates as there are names. Looking up a name gives the template that
came last under it, unless the name is empty, and so do the bodies by name. -/
theorem observers_ofList (inserted : List Template) :
    (ofList inserted).templates.map Template.name = (inserted.map Template.name).eraseDups ∧
    (∀ template ∈ (ofList inserted).templates, latest? inserted template.name = some template) ∧
    (ofList inserted).size = (inserted.map Template.name).toFinset.card ∧
    (∀ name, name ≠ "" → (ofList inserted).lookup name = latest? inserted name) ∧
    (ofList inserted).lookup "" = none ∧
    (∀ name, name ∈ (ofList inserted).partials.keys ↔ name ∈ inserted.map Template.name) ∧
    (∀ name, (ofList inserted).partials.get? name = (latest? inserted name).map Template.body) ∧
    (∀ name, name ≠ "" → ((ofList inserted).lookup name).map Template.body
      = (ofList inserted).partials.get? name) := by
  have hlookup : ∀ name, name ≠ "" → (ofList inserted).lookup name = latest? inserted name := by
    intro name hn
    rw [lookup_eq_ite, if_neg hn, find?_ofList]
  have hbody : ∀ name, (ofList inserted).partials.get? name
      = (latest? inserted name).map Template.body := by
    intro name
    rw [get?_partials, bodyOf?, find?_ofList]
  refine ⟨names_ofList inserted, fun template hm => ?_, size_ofList inserted, hlookup, rfl,
    fun name => ?_, hbody, fun name hn => ?_⟩
  · rw [← find?_ofList, find?_eq_some_iff]
    exact ⟨hm, rfl⟩
  · rw [Index.mem_keys, hbody, Option.isSome_map, isSome_latest?]
  · rw [hlookup name hn, hbody]

/-- Two templates of one name with another between them, and one without a name. -/
def reinserted : List Template :=
  [⟨"a", "a.hbs", ⟨"x", [.text "x"], []⟩, none⟩, ⟨"b", "b.hbs", ⟨"y", [.text "y"], []⟩, none⟩,
    ⟨"a", "a.mustache", ⟨"z", [.text "z"], []⟩, none⟩, ⟨"", ".hbs", ⟨"w", [.text "w"], []⟩, none⟩]

theorem observers_ofList_reinserted :
    (ofList reinserted).templates.map Template.name = ["a", "b", ""] ∧
    (ofList reinserted).size = 3 ∧
    "a" ≠ "" ∧
    (ofList reinserted).lookup "a" = some ⟨"a", "a.mustache", ⟨"z", [.text "z"], []⟩, none⟩ ∧
    (ofList reinserted).partials.get? "a" = some ⟨"z", [.text "z"], []⟩ ∧
    (ofList reinserted).lookup "" = none ∧
    (ofList reinserted).partials.get? "" = some ⟨"w", [.text "w"], []⟩ := by
  obtain ⟨hnames, -, hsize, hlookup, hempty, -, hbody, hagree⟩ := observers_ofList reinserted
  have ha : "a" ≠ "" := by decide
  have hlatest : latest? reinserted "a" = some ⟨"a", "a.mustache", ⟨"z", [.text "z"], []⟩, none⟩ := rfl
  refine ⟨hnames.trans (by decide), hsize.trans (by decide), ha, (hlookup "a" ha).trans hlatest, ?_,
    hempty, (hbody "").trans rfl⟩
  rw [← hagree "a" ha, hlookup "a" ha, hlatest]
  rfl

end Collection

end Folio
