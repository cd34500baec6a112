import Folio.Proofs.Markup.Inclusion
import Folio.Proofs.Outcome
/-!
# Values that are met

A rendering that comes to an end is stopped by the values that its tags meet, and by nothing else: it
gives a text exactly if each of them can be written.
-/

namespace Folio.Markup

/-- A value that a tag cannot write. -/
inductive Unwritable : Json → Prop
  | bool (value : Bool) : Unwritable (.bool value)
  | array (items : List Json) : Unwritable (.array items)
  | object (fields : Fields) : Unwritable (.object fields)

theorem written?_eq_none_iff {value : Json} : written? value = none ↔ Unwritable value := by
  cases value with
  | null => exact ⟨nofun, nofun⟩
  | bool value => exact ⟨fun _ => .bool value, fun _ => rfl⟩
  | int number => exact ⟨nofun, nofun⟩
  | float number => exact ⟨nofun, nofun⟩
  | string text => exact ⟨nofun, nofun⟩
  | array items => exact ⟨fun _ => .array items, fun _ => rfl⟩
  | object fields => exact ⟨fun _ => .object fields, fun _ => rfl⟩

/-- A value tag that nodes come to for a scope finds a value there. Nodes come to their own tags, to
those of a section for each scope that it is written in, and to those of the partials included. -/
inductive Meets (find : String → List Node) : List Node → Scope → Json → Prop
  | value {nodes : List Node} {scope : Scope} {path : Path} {escaped : Bool} {value : Json} :
      .value path escaped ∈ nodes → scope.resolve path = some value → Meets find nodes scope value
  | block {nodes : List Node} {scope inner : Scope} {path : Path} {inverted : Bool}
      {body : List Node} {value : Json} : .block path inverted body ∈ nodes →
      inner ∈ blockScopes scope path inverted → Meets find body inner value →
      Meets find nodes scope value
  | inclusion {nodes : List Node} {scope : Scope} {name indent : String} {value : Json} :
      .inclusion name indent ∈ nodes → Meets find (find name) scope value →
      Meets find nodes scope value

namespace Meets

variable {find : String → List Node} {nodes nodes' : List Node} {scope : Scope} {value : Json}

theorem mono (h : Meets find nodes scope value) (hsub : nodes ⊆ nodes') :
    Meets find nodes' scope value := by
  cases h with
  | value hm hv => exact .value (hsub hm) hv
  | block hm hs hb => exact .block (hsub hm) hs hb
  | inclusion hm hi => exact .inclusion (hsub hm) hi

end Meets

/-! ## What stops a rendering -/

theorem foldlM_eq_error {f : Sheet → Scope → Except Halt Sheet} {halt : Halt}
    {scopes : List Scope} {sheet : Sheet} (h : scopes.foldlM f sheet = .error halt) :
    ∃ scope ∈ scopes, ∃ before, f before scope = .error halt := by
  induction scopes generalizing sheet with
  | nil => cases h
  | cons scope rest ih =>
    rw [List.foldlM_cons] at h
    rcases bind_eq_error.mp h with h | ⟨next, -, h⟩
    · exact ⟨scope, List.mem_cons_self, sheet, h⟩
    · obtain ⟨inner, hm, before, hb⟩ := ih h
      exact ⟨inner, List.mem_cons_of_mem _ hm, before, hb⟩

theorem writeValue_eq_unwritable {indent : String} {escaped : Bool} {value : Option Json}
    {sheet : Sheet} (h : writeValue indent escaped value sheet = .error .unwritable) :
    ∃ found, value = some found ∧ Unwritable found := by
  cases value with
  | none => cases h
  | some found =>
    refine ⟨found, rfl, written?_eq_none_iff.mp ?_⟩
    cases hw : written? found with
    | none => rfl
    | some text =>
      rw [writeValue, hw] at h
      cases h

/-- Where writing a partial is stopped by a value, that is met in it. -/
def Inclusion.StopsAtMet (find : String → List Node) (insert : Inclusion) : Prop :=
  ∀ name indent scope sheet, insert name indent scope sheet = .error .unwritable →
    ∃ value, Meets find (find name) scope value ∧ Unwritable value

mutual

theorem meets_of_renderNode {find : String → List Node} {insert : Inclusion}
    (hi : insert.StopsAtMet find) (indent : String) : ∀ (node : Node) (scope : Scope) (sheet : Sheet),
    renderNode insert indent node scope sheet = .error .unwritable →
      ∃ value, Meets find [node] scope value ∧ Unwritable value
  | .value path escaped, scope, sheet, h => by
    obtain ⟨value, hv, hu⟩ := writeValue_eq_unwritable h
    exact ⟨value, .value List.mem_cons_self hv, hu⟩
  | .block path inverted body, scope, sheet, h => by
    obtain ⟨inner, hs, before, hb⟩ := foldlM_eq_error h
    obtain ⟨value, hm, hu⟩ := meets_of_renderNodes hi indent body inner before hb
    exact ⟨value, .block List.mem_cons_self hs hm, hu⟩
  | .inclusion name extra, scope, sheet, h => by
    obtain ⟨value, hm, hu⟩ := hi name (indent ++ extra) scope sheet h
    exact ⟨value, .inclusion List.mem_cons_self hm, hu⟩

theorem meets_of_renderNodes {find : String → List Node} {insert : Inclusion}
    (hi : insert.StopsAtMet find) (indent : String) :
    ∀ (nodes : List Node) (scope : Scope) (sheet : Sheet),
    renderNodes insert indent nodes scope sheet = .error .unwritable →
      ∃ value, Meets find nodes scope value ∧ Unwritable value
  | node :: rest, scope, sheet, h => by
    rcases bind_eq_error.mp h with h | ⟨next, -, h⟩
    · obtain ⟨value, hm, hu⟩ := meets_of_renderNode hi indent node scope sheet h
      exact ⟨value, hm.mono (List.cons_subset_cons node (List.nil_subset rest)), hu⟩
    · obtain ⟨value, hm, hu⟩ := meets_of_renderNodes hi indent rest scope next h
      exact ⟨value, hm.mono (List.subset_cons_self node rest), hu⟩

end

theorem stopsAtMet_renderPartial (find : String → List Node) (depth : Nat) :
    (renderPartial find depth).StopsAtMet find := by
  induction depth with
  | zero => exact fun _ _ _ _ h => nomatch h
  | succ depth ih =>
    exact fun name indent scope sheet h =>
      meets_of_renderNodes ih indent (find name) scope sheet h

/-! ## What a rendering has written -/

theorem exists_ok_of_foldlM {f : Sheet → Scope → Except Halt Sheet} {scopes : List Scope}
    {sheet result : Sheet} (h : scopes.foldlM f sheet = .ok result) {scope : Scope}
    (hm : scope ∈ scopes) : ∃ before after, f before scope = .ok after := by
  induction scopes generalizing sheet with
  | nil => cases hm
  | cons first rest ih =>
    rw [List.foldlM_cons] at h
    obtain ⟨next, hf, h⟩ := bind_eq_ok.mp h
    rcases List.mem_cons.mp hm with rfl | hm
    · exact ⟨sheet, next, hf⟩
    · exact ih h hm

theorem exists_ok_of_renderNodes {insert : Inclusion} {indent : String} {nodes : List Node}
    {scope : Scope} {sheet result : Sheet}
    (h : renderNodes insert indent nodes scope sheet = .ok result) {node : Node}
    (hm : node ∈ nodes) : ∃ before after, renderNode insert indent node scope before = .ok after := by
  induction nodes generalizing sheet with
  | nil => cases hm
  | cons first rest ih =>
    obtain ⟨next, hf, h⟩ := bind_eq_ok.mp h
    rcases List.mem_cons.mp hm with rfl | hm
    · exact ⟨sheet, next, hf⟩
    · exact ih h hm

/-- What a rendering that gives a text has met can be written. -/
theorem not_unwritable_of_meets {find : String → List Node} {nodes : List Node} {scope : Scope}
    {value : Json} (hm : Meets find nodes scope value) {depth : Nat} {indent : String}
    {sheet result : Sheet}
    (h : renderNodes (renderPartial find depth) indent nodes scope sheet = .ok result) :
    ¬ Unwritable value := by
  -- the induction follows how the tag is come to: all on that way has been written
  induction hm generalizing depth indent sheet result with
  | @value nodes scope path escaped value hm hv =>
    obtain ⟨before, after, hn⟩ := exists_ok_of_renderNodes h hm
    intro hu
    rw [renderNode, hv, writeValue, written?_eq_none_iff.mpr hu] at hn
    cases hn
  | block hm hs _ ih =>
    obtain ⟨before, after, hn⟩ := exists_ok_of_renderNodes h hm
    obtain ⟨start, stop, hb⟩ := exists_ok_of_foldlM hn hs
    exact ih hb
  | inclusion hm _ ih =>
    obtain ⟨before, after, hn⟩ := exists_ok_of_renderNodes h hm
    cases depth with
    | zero => cases hn
    | succ depth => exact ih hn

/-! ## Contexts -/

/-- Rendering for a context takes a tag to a value that cannot be written. -/
def Linked.MeetsUnwritable (linked : Linked) (context : Fields) : Prop :=
  ∃ value, Meets linked.find linked.nodes [.object context] value ∧ Unwritable value

/-- Of the two ways not to give a text, running out of depth is not possible for partials that do not
include one another without end. -/
theorem Linked.render_cases {linked : Linked} (he : ¬ Endless linked.find linked.nodes)
    (context : Fields) :
    (∃ text, linked.render context = .ok text) ∧ ¬ linked.MeetsUnwritable context ∨
      linked.render context = .error .unwritable ∧ linked.MeetsUnwritable context := by
  obtain ⟨depth, hdepth⟩ := exists_depth_of_not_endless he
  rw [render_eq_of_settles linked context (hdepth context), Markup.render]
  cases hr : renderNodes (renderPartial linked.find depth) "" linked.nodes [.object context] {} with
  | ok sheet =>
    refine .inl ⟨⟨sheet.text, rfl⟩, ?_⟩
    rintro ⟨value, hm, hu⟩
    exact not_unwritable_of_meets hm hr hu
  | error halt =>
    cases halt with
    | tooDeep => exact absurd (by rw [Markup.render, hr]; rfl) (hdepth context)
    | unwritable =>
      exact .inr ⟨rfl, meets_of_renderNodes (stopsAtMet_renderPartial linked.find depth) "" _ _ _ hr⟩

end Folio.Markup
