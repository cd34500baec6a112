import Folio.Proofs.Files.Walking
import Folio.Proofs.Markup.Values
import Folio.Proofs.Site.Execution
import Folio.Proofs.Site.MissingPartials
import Folio.Proofs.Site.Obstacles
/-!
# Builds that are cut short

Loading and writing end with a result or an error to report, and so does rendering unless a value
tag comes to a boolean, an array or an object. Nothing looks at the values before, so that cuts the
build short.
-/

namespace Folio

variable {host : Host}

open Markup

variable {α : Type}

/-- A result is there, or an error to report. -/
def IsReported (outcome : Except Stop α) : Prop :=
  (∃ result, outcome = .ok result) ∨ ∃ error, outcome = .error (.error error)

theorem isReported_iff_faultOf? {outcome : Except Stop α} :
    IsReported outcome ↔ ∀ stop, faultOf? outcome = some stop → ∃ error, stop = .error error := by
  cases outcome with
  | ok result => exact ⟨fun _ => nofun, fun _ => .inl ⟨result, rfl⟩⟩
  | error stop =>
    constructor
    · rintro (⟨result, h⟩ | ⟨error, h⟩) other ho
      · cases h
      · cases h
        exact ⟨error, (Option.some.inj ho).symm⟩
    · intro h
      obtain ⟨error, rfl⟩ := h stop rfl
      exact .inr ⟨error, rfl⟩

theorem not_isReported_aborted : ¬ IsReported (.error .aborted : Except Stop α) := by
  rintro (⟨result, h⟩ | ⟨error, h⟩) <;> cases h

/-! ## Before and after rendering -/

theorem isReported_prepare (store : Files.Store host) (options : BuildOptions) :
    IsReported (prepare store options) := by
  refine isReported_iff_faultOf?.mpr fun stop h => ?_
  rw [faultOf?_eq_some_iff, prepare, mapError_matcher] at h
  cases hv : options.error? host with
  | some error =>
    simp only [hv] at h
    exact ⟨_, (Except.error.inj h).symm⟩
  | none =>
    simp only [hv, ok_bind] at h
    rcases bind_eq_error.mp h with hr | ⟨registry, -, h⟩
    · obtain ⟨error, -, rfl, -⟩ := errors_of_discover_error hv hr
      exact ⟨error, rfl⟩
    · split at h
      · exact ⟨_, (Except.error.inj h).symm⟩
      · cases h

theorem isReported_executeBuild (store : Files.Store host) (plan : BuildPlan) :
    IsReported (executeBuild store plan).1.outcome := by
  refine isReported_iff_faultOf?.mpr fun stop h => ?_
  obtain ⟨-, -, -, error, -, rfl, -⟩ :=
    writePages_eq_error (executeBuild_eq_error (faultOf?_eq_some_iff.mp h))
  exact ⟨error, rfl⟩

theorem isReported_build {store : Files.Store host} {globals : Fields} {options : BuildOptions}
    (h : IsReported (planBuild store globals options).outcome) :
    IsReported (build store globals options).1.outcome := by
  rw [build]
  split
  · rename_i stop journal hp
    rw [hp] at h
    obtain ⟨error, rfl⟩ := isReported_iff_faultOf?.mp h stop rfl
    exact .inr ⟨error, rfl⟩
  · rename_i plan journal hp
    have hexecuted := isReported_executeBuild store plan
    simp only [Logged.outcome_bind, Logged.outcome_tell, ok_bind]
    exact hexecuted

/-! ## Rendering -/

namespace Registry

variable (store : Files.Store host) (registry : Registry) (globals : Fields) (page : Template)

/-- The tree that a page is rendered from, if it comes to that. -/
def treeFor : Option Linked :=
  (registry.outerBody page).linked? store (registry.partialsFor page)

/-- In rendering a page a tag comes to a value that cannot be written. -/
def MeetsUnwritable : Prop :=
  ∃ linked, registry.treeFor store page = some linked ∧
    linked.MeetsUnwritable (registry.contextFor globals page)

/-- Without endless inclusion only a value that cannot be written cuts the rendering of a page
short. -/
theorem compose_cases
    (he : ∀ linked, registry.treeFor store page = some linked → ¬ Endless linked.find linked.nodes) :
    IsReported (compose store page registry.layouts registry.partials globals) ∧
        ¬ registry.MeetsUnwritable store globals page ∨
      compose store page registry.layouts registry.partials globals = .error .aborted ∧
        registry.MeetsUnwritable store globals page := by
  obtain ⟨name, hc⟩ := registry.compose_eq_render store globals page
  rw [hc]
  rcases Body.render_cases store name (registry.outerBody page) (registry.contextFor globals page)
    (registry.partialsFor page) with ⟨linked, hl, hr⟩ | ⟨hnone, error, hr⟩
  · rw [hr, Body.renderLinked]
    rcases Linked.render_cases (he linked hl) (registry.contextFor globals page) with
      ⟨⟨text, ht⟩, hn⟩ | ⟨hu, hm⟩
    · refine .inl ⟨.inl ⟨text, by rw [ht]⟩, ?_⟩
      rintro ⟨other, ho, hm⟩
      rw [treeFor, hl] at ho
      cases ho
      exact hn hm
    · exact .inr ⟨by rw [hu], linked, hl, hm⟩
  · refine .inl ⟨.inr ⟨error, hr⟩, ?_⟩
    rintro ⟨other, ho, -⟩
    rw [treeFor, hnone] at ho
    cases ho

end Registry

/-! ## Sites -/

/-- No page of a site is rendered from partials that include one another without end. -/
def EndsIncluding (store : Files.Store host) (options : BuildOptions) : Prop :=
  ∀ registry, prepare store options = .ok registry → ∀ page ∈ registry.pages.templates,
    ∀ linked, registry.treeFor store page = some linked → ¬ Endless linked.find linked.nodes

/-- All is loaded and the pages before one are rendered, but that page comes to a value that cannot be
written. -/
def CutShort (store : Files.Store host) (globals : Fields) (options : BuildOptions) : Prop :=
  ∃ registry before page after, prepare store options = .ok registry ∧
    registry.pages.templates = before ++ page :: after ∧
    (∀ earlier ∈ before, ∃ text,
      compose store earlier registry.layouts registry.partials globals = .ok text) ∧
    registry.MeetsUnwritable store globals page

theorem faultOf?_planBuild_eq (store : Files.Store host) (globals : Fields) (options : BuildOptions) :
    faultOf? (planBuild store globals options).outcome
      = (faultOf? (prepare store options)).or ((prepare store options).toOption.bind fun registry =>
          registry.pages.templates.findSome? fun page =>
            faultOf? (compose store page registry.layouts registry.partials globals)) := by
  rw [outcome_planBuild, faultOf?_bind]
  congr 2
  funext registry
  rw [faultOf?_bind, faultOf?_planPages, renderFaults, List.head?_filterMap]
  cases (planPages store registry globals registry.pages.templates).outcome <;> exact Option.or_none

variable {store : Files.Store host} {globals : Fields} {options : BuildOptions}

theorem aborted_iff_cutShort (he : EndsIncluding store options) :
    (planBuild store globals options).outcome = .error .aborted ↔
      CutShort store globals options := by
  rw [← faultOf?_eq_some_iff, faultOf?_planBuild_eq]
  cases hp : prepare store options with
  | error stop =>
    constructor
    · intro h
      obtain ⟨error, he⟩ := isReported_iff_faultOf?.mp (isReported_prepare store options) .aborted
        (hp ▸ h)
      cases he
    · rintro ⟨registry, -, -, -, hr, -⟩
      rw [hp] at hr
      cases hr
  | ok registry =>
    have hmeets : ∀ page ∈ registry.pages.templates,
        faultOf? (compose store page registry.layouts registry.partials globals) = some .aborted ↔
          registry.MeetsUnwritable store globals page := by
      intro page hm
      rw [faultOf?_eq_some_iff]
      rcases registry.compose_cases store globals page (he registry hp page hm) with ⟨hr, hn⟩ | ⟨ha, hu⟩
      · exact ⟨fun ha => absurd (ha ▸ hr) not_isReported_aborted, fun hu => absurd hu hn⟩
      · exact ⟨fun _ => hu, fun _ => ha⟩
    show registry.pages.templates.findSome? _ = some Stop.aborted ↔ _
    rw [List.findSome?_eq_some_iff]
    constructor
    · rintro ⟨before, page, after, hsplit, hpage, hbefore⟩
      refine ⟨registry, before, page, after, hp, hsplit, fun earlier hm => ?_, ?_⟩
      · exact faultOf?_eq_none_iff.mp (hbefore earlier hm)
      · exact (hmeets page (by simp [hsplit])).mp hpage
    · rintro ⟨found, before, page, after, hr, hsplit, hbefore, hpage⟩
      rw [hp] at hr
      cases hr
      refine ⟨before, page, after, hsplit, (hmeets page (by simp [hsplit])).mpr hpage,
        fun earlier hm => faultOf?_eq_none_iff.mpr (hbefore earlier hm)⟩

theorem isReported_or_aborted (he : EndsIncluding store options) :
    IsReported (planBuild store globals options).outcome ∨
      (planBuild store globals options).outcome = .error .aborted := by
  by_contra hn
  obtain ⟨hr, ha⟩ := not_or.mp hn
  refine hr (isReported_iff_faultOf?.mpr fun stop hs => ?_)
  have hfault := faultOf?_planBuild_eq store globals options
  rw [hs] at hfault
  rcases Option.or_eq_some_iff.mp hfault.symm with hp | ⟨-, hp⟩
  · exact isReported_iff_faultOf?.mp (isReported_prepare store options) stop hp
  · obtain ⟨registry, hp, hfound⟩ := Option.bind_eq_some_iff.mp hp
    obtain ⟨page, hm, hc⟩ := List.exists_of_findSome?_eq_some hfound
    rcases registry.compose_cases store globals page (he registry (eq_ok_of_toOption hp) page hm) with
      ⟨hreported, -⟩ | ⟨haborted, -⟩
    · exact isReported_iff_faultOf?.mp hreported stop hc
    · rw [haborted] at hc
      cases hc
      exact absurd (faultOf?_eq_some_iff.mp hs) ha

/-- A plan, and a build, ends with a result or an error to report exactly if the site is not cut
short. If it is, both are aborted, and nothing is written. -/
theorem isReported_iff_not_cutShort (store : Files.Store host) (globals : Fields)
    (options : BuildOptions) (he : EndsIncluding store options) :
    (IsReported (planBuild store globals options).outcome ↔ ¬ CutShort store globals options) ∧
    (IsReported (build store globals options).1.outcome ↔ ¬ CutShort store globals options) ∧
    (CutShort store globals options →
      (planBuild store globals options).outcome = .error .aborted ∧
      (build store globals options).1.outcome = .error .aborted ∧
      (build store globals options).2 = store) := by
  have hcut : CutShort store globals options →
      (planBuild store globals options).outcome = .error .aborted ∧
      (build store globals options).1.outcome = .error .aborted ∧
      (build store globals options).2 = store := by
    intro h
    have ha := (aborted_iff_cutShort he).mpr h
    refine ⟨ha, build_eq_of_head?_obstacles ?_⟩
    rw [← faultOf?_planBuild, faultOf?_eq_some_iff.mpr ha]
  have hreported : ¬ CutShort store globals options →
      IsReported (planBuild store globals options).outcome := fun h =>
    (isReported_or_aborted he).resolve_right fun ha => h ((aborted_iff_cutShort he).mp ha)
  refine ⟨⟨fun h hc => ?_, hreported⟩, ⟨fun h hc => ?_, fun h => isReported_build (hreported h)⟩,
    hcut⟩
  · exact not_isReported_aborted ((hcut hc).1 ▸ h)
  · exact not_isReported_aborted ((hcut hc).2.1 ▸ h)

/-! ## Two sites -/

def Markup.Linked.isShallow (linked : Linked) : Bool :=
  linked.partials.all fun entry => (Node.inclusions entry.2).isEmpty

theorem Markup.Linked.not_endless_of_isShallow {linked : Linked} (h : linked.isShallow = true) :
    ¬ Endless linked.find linked.nodes := by
  rintro ⟨chain, -, hs⟩
  have hnext := hs 0
  cases hl : linked.partials.lookup (chain 0) with
  | none => simp [find, hl, Node.inclusions] at hnext
  | some tree =>
    obtain ⟨before, after, he, -⟩ := List.lookup_eq_some_iff.mp hl
    have hnil := List.all_eq_true.mp h (chain 0, tree) (by simp [he])
    rw [find, hl, Option.getD_some, List.isEmpty_iff.mp hnil] at hnext
    cases hnext

theorem endsIncluding_of_isShallow (h : ∃ registry, prepare store options = .ok registry ∧
    (registry.pages.templates.all fun page =>
      (registry.treeFor store page).all Linked.isShallow) = true) : EndsIncluding store options := by
  obtain ⟨registry, hp, hall⟩ := h
  intro found hf page hm linked hl
  rw [hp] at hf
  cases hf
  have hpage := List.all_eq_true.mp hall page hm
  rw [hl] at hpage
  exact Linked.not_endless_of_isShallow hpage

def flaggedSite : Files.Store .process :=
  .ofTexts [("src/partials/flag.mustache", "\x7b\x7bdraft\x7d\x7d"),
    ("src/pages/a.mustache", "hi"), ("src/pages/b.mustache", "\x7b\x7b> flag\x7d\x7d")]

theorem isReported_iff_not_cutShort_flagged :
    EndsIncluding flaggedSite {} ∧
    ¬ CutShort flaggedSite [("draft", .string "yes")] {} ∧
    IsReported (build flaggedSite [("draft", .string "yes")] {}).1.outcome ∧
    CutShort flaggedSite [("draft", .bool true)] {} ∧
    (build flaggedSite [("draft", .bool true)] {}).2 = flaggedSite := by
  have he : EndsIncluding flaggedSite {} :=
    endsIncluding_of_isShallow (exists_ok (by decide +kernel))
  obtain ⟨htext, hbuilt, -⟩ := isReported_iff_not_cutShort flaggedSite [("draft", .string "yes")] {} he
  obtain ⟨hflag, -, hcut⟩ := isReported_iff_not_cutShort flaggedSite [("draft", .bool true)] {} he
  have hplan : (planBuild flaggedSite [("draft", .string "yes")] {}).outcome
      = .ok ⟨"dist", 0, 1, [⟨"a", "a.html", none, "hi"⟩, ⟨"b", "b.html", none, "yes"⟩], []⟩ :=
    eq_ok_of_toOption (by decide +kernel)
  have habort : (planBuild flaggedSite [("draft", .bool true)] {}).outcome = .error .aborted :=
    eq_error_of_faultOf? (by decide +kernel)
  have hsound := htext.mp (.inl ⟨_, hplan⟩)
  have hshort : CutShort flaggedSite [("draft", .bool true)] {} :=
    Classical.not_not.mp fun hn => not_isReported_aborted (habort ▸ hflag.mpr hn)
  exact ⟨he, hsound, hbuilt.mpr hsound, hshort, (hcut hshort).2.2⟩

/-- A page that writes a variable which its data says is true: neither a plan nor an error. -/
theorem not_isReported_draft :
    EndsIncluding (.ofTexts [("src/pages/index.mustache", "\x7b\x7bdraft\x7d\x7d"),
      ("src/pages/index.json", "\x7b\"draft\":true\x7d")]) {} ∧
    ¬ IsReported (planBuild (.ofTexts [("src/pages/index.mustache", "\x7b\x7bdraft\x7d\x7d"),
      ("src/pages/index.json", "\x7b\"draft\":true\x7d")]) [] {}).outcome ∧
    ¬ IsReported (build (.ofTexts [("src/pages/index.mustache", "\x7b\x7bdraft\x7d\x7d"),
      ("src/pages/index.json", "\x7b\"draft\":true\x7d")]) [] {}).1.outcome := by
  have hplan : (planBuild (.ofTexts [("src/pages/index.mustache", "\x7b\x7bdraft\x7d\x7d"),
      ("src/pages/index.json", "\x7b\"draft\":true\x7d")]) [] {}).outcome = .error .aborted :=
    eq_error_of_faultOf? (by decide +kernel)
  have hbuild : (build (.ofTexts [("src/pages/index.mustache", "\x7b\x7bdraft\x7d\x7d"),
      ("src/pages/index.json", "\x7b\"draft\":true\x7d")]) [] {}).1.outcome = .error .aborted :=
    eq_error_of_faultOf? (by decide +kernel)
  refine ⟨endsIncluding_of_isShallow (exists_ok (by decide +kernel)), ?_, ?_⟩
  · rw [hplan]
    exact not_isReported_aborted
  · rw [hbuild]
    exact not_isReported_aborted

end Folio
