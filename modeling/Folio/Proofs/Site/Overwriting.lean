import Folio.Proofs.Site.PagePaths
/-!
# Pages that overwrite one another

Names of pages are unique, but a path is a name with an extension, and an extension may hold dots.
So two pages go to one path when the extension of one spells out the rest of the other's name. In
every other case each page keeps its file.
-/

namespace Folio

variable {host : Host}

open Files

/-- Two pages go to one path: with what the extension of the first begins with, its name is that of
the other. -/
def PlannedPage.Clash (page other : PlannedPage) : Prop :=
  ∃ middle extension, other.name = page.name ++ "." ++ middle ∧
    page.path = page.name ++ "." ++ (middle ++ "." ++ extension) ∧
    other.path = other.name ++ "." ++ extension

namespace PlannedPage

variable {page other : PlannedPage}

theorem Clash.path_eq (h : page.Clash other) : page.path = other.path := by
  obtain ⟨middle, extension, hname, hpage, hother⟩ := h
  rw [hpage, hother, hname]
  simp only [String.append_assoc]

theorem Clash.name_ne (h : page.Clash other) : page.name ≠ other.name := by
  obtain ⟨middle, -, hname, -⟩ := h
  intro he
  have hlen := congrArg (fun text => text.toList.length) (he.trans hname)
  simp at hlen

theorem clash_of_path_eq {extension extension' : String}
    (hp : page.path = page.name ++ "." ++ extension)
    (ho : other.path = other.name ++ "." ++ extension') (hne : page.name ≠ other.name)
    (he : page.path = other.path) : page.Clash other ∨ other.Clash page := by
  have hlist : page.name.toList ++ '.' :: extension.toList
      = other.name.toList ++ '.' :: extension'.toList := by
    have h := congrArg String.toList (hp.symm.trans (he.trans ho))
    simpa using h
  -- one name is the longer by some characters, which begin with the dot of the other
  have hsplit : ∀ (page other : PlannedPage) (extension extension' : String) (more : List Char),
      page.path = page.name ++ "." ++ extension → other.path = other.name ++ "." ++ extension' →
      page.name ≠ other.name → other.name.toList = page.name.toList ++ more →
      '.' :: extension.toList = more ++ '.' :: extension'.toList → page.Clash other := by
    intro page other extension extension' more hp ho hne hname hrest
    cases more with
    | nil => exact absurd (String.toList_injective (by simpa using hname.symm)) hne
    | cons c middle =>
      obtain ⟨rfl, hext⟩ := List.cons.inj hrest
      have hextension : extension = String.ofList middle ++ "." ++ extension' := by
        apply String.toList_injective
        simpa using hext
      refine ⟨String.ofList middle, extension', ?_, hextension ▸ hp, ho⟩
      apply String.toList_injective
      simpa using hname
  rcases List.append_eq_append_iff.mp hlist with ⟨more, hname, hrest⟩ | ⟨more, hname, hrest⟩
  · exact .inl (hsplit page other extension extension' more hp ho hne hname hrest)
  · exact .inr (hsplit other page extension' extension more ho hp (Ne.symm hne) hname hrest)

/-- Without a dot in its extension a page clashes with none whose name is longer. -/
theorem not_clash_of_dotless {extension : String} (hp : page.path = page.name ++ "." ++ extension)
    (hd : '.' ∉ extension.toList) : ¬ page.Clash other := by
  rintro ⟨middle, extension', -, hpage, -⟩
  have he := congrArg String.toList (hp.symm.trans hpage)
  simp only [String.toList_append, List.append_right_inj] at he
  apply hd
  rw [he]
  simp

end PlannedPage

/-! ## Plans -/

section Plan

variable {store : Store host} {globals : Fields} {options : BuildOptions} {plan : BuildPlan}

theorem nodup_names_of_planBuild (h : (planBuild store globals options).outcome = .ok plan) :
    (plan.pages.map PlannedPage.name).Nodup := by
  obtain ⟨-, registry, pages, -, -, hp, rfl⟩ := planBuild_eq_ok h
  rw [names_of_planPages hp]
  exact registry.pages.distinct

theorem path_eq_of_location_eq (hn : store.Named)
    (h : (planBuild store globals options).outcome = .ok plan) {page other : PlannedPage}
    (hp : page ∈ plan.pages) (ho : other ∈ plan.pages)
    (he : Route.location host (Path.join plan.dist page.path)
      = Route.location host (Path.join plan.dist other.path)) : page.path = other.path := by
  obtain ⟨_, hl⟩ := comesFrom_of_planBuild h page hp
  obtain ⟨_, hl'⟩ := comesFrom_of_planBuild h other ho
  obtain ⟨pieces, hpath, hd, -, hne⟩ := hl.path_eq hn
  obtain ⟨pieces', hpath', hd', -, hne'⟩ := hl'.path_eq hn
  rw [hpath, hpath', hd.location_join hne, hd'.location_join hne'] at he
  rw [hpath, hpath', (List.map_inj_right fun _ _ => Name.ofText_injective).mp
    (List.append_cancel_left he)]

theorem nodup_paths_iff (h : (planBuild store globals options).outcome = .ok plan) :
    (plan.pages.map PlannedPage.path).Nodup ↔
      ∀ page ∈ plan.pages, ∀ other ∈ plan.pages, ¬ page.Clash other := by
  constructor
  · intro hd page hp other ho hc
    have hsame := List.inj_on_of_nodup_map hd hp ho hc.path_eq
    exact hc.name_ne (by rw [hsame])
  · intro hc
    have hnames := List.pairwise_map.mp (nodup_names_of_planBuild h)
    refine List.pairwise_map.mpr (hnames.imp_of_mem ?_)
    intro page other hp ho hne he
    obtain ⟨_, hl⟩ := comesFrom_of_planBuild h page hp
    obtain ⟨_, hl'⟩ := comesFrom_of_planBuild h other ho
    obtain ⟨_, -, hpath⟩ := hl.exists_extension
    obtain ⟨_, -, hpath'⟩ := hl'.exists_extension
    rcases PlannedPage.clash_of_path_eq hpath hpath' hne he with hclash | hclash
    · exact hc page hp other ho hclash
    · exact hc other ho page hp hclash

/-- What a build writes, page by page: the last page with a path has the file. -/
theorem readText_of_build {report : BuildReport} (hn : store.Named)
    (hb : (build store globals options).1.outcome = .ok report)
    (h : (planBuild store globals options).outcome = .ok plan)
    {before after : List PlannedPage} {page : PlannedPage}
    (hp : plan.pages = before ++ page :: after) (hlast : page.path ∉ after.map PlannedPage.path) :
    (build store globals options).2.readText (Path.join plan.dist page.path)
      = .ok page.content := by
  obtain ⟨built, hplan, hw, hstore⟩ := build_eq_ok hb
  rw [h] at hplan
  cases hplan
  rw [hstore]
  apply Store.Holds.readText
  refine (writePages_eq_ok hw).2 before page after hp ?_
  rintro ⟨other, ho, hl⟩
  have hpage : page ∈ plan.pages := by simp [hp]
  have hother : other ∈ plan.pages := by simp [hp, ho]
  have he := path_eq_of_location_eq hn h hpage hother hl
  exact hlast (he ▸ List.mem_map_of_mem ho)

theorem nodup_written_iff {report : BuildReport} (hn : store.Named)
    (hb : (build store globals options).1.outcome = .ok report)
    (h : (planBuild store globals options).outcome = .ok plan) :
    report.written = plan.pages.map (fun page => Path.join plan.dist page.path) ∧
      (report.written.Nodup ↔ (plan.pages.map PlannedPage.path).Nodup) := by
  obtain ⟨built, hplan, hw, -⟩ := build_eq_ok hb
  rw [h] at hplan
  cases hplan
  have hwritten := (writePages_eq_ok hw).1
  have hmap : report.written
      = (plan.pages.map PlannedPage.path).map (Path.join plan.dist) := by
    rw [hwritten, List.map_map]
    rfl
  refine ⟨hwritten, ?_⟩
  rw [hmap]
  refine ⟨List.Nodup.of_map _, List.Nodup.map_on ?_⟩
  rintro path hp path' hp' he
  obtain ⟨page, hm, rfl⟩ := List.mem_map.mp hp
  obtain ⟨other, ho, rfl⟩ := List.mem_map.mp hp'
  exact path_eq_of_location_eq hn h hm ho (congrArg (Route.location host) he)

end Plan

/-- A build writes every page of its plan, and of the pages with one path the last has the file. So
all files are different and each holds its own page exactly if no two pages clash, as is the case
if no extension holds a dot. -/
theorem files_of_build {store : Store host} {globals : Fields} {options : BuildOptions}
    {report : BuildReport} (hn : store.Named)
    (hb : (build store globals options).1.outcome = .ok report) :
    ∃ plan, (planBuild store globals options).outcome = .ok plan ∧
      report.written = plan.pages.map (fun page => Path.join plan.dist page.path) ∧
      (∀ before page after, plan.pages = before ++ page :: after →
        page.path ∉ after.map PlannedPage.path →
        (build store globals options).2.readText (Path.join plan.dist page.path)
          = .ok page.content) ∧
      ((report.written.Nodup ∧ ∀ page ∈ plan.pages,
          (build store globals options).2.readText (Path.join plan.dist page.path)
            = .ok page.content) ↔
        ∀ page ∈ plan.pages, ∀ other ∈ plan.pages, ¬ page.Clash other) ∧
      ((∀ page ∈ plan.pages, ∃ extension, page.path = page.name ++ "." ++ extension ∧
          '.' ∉ extension.toList) →
        ∀ page ∈ plan.pages, ∀ other ∈ plan.pages, ¬ page.Clash other) := by
  obtain ⟨plan, h, -, -⟩ := build_eq_ok hb
  obtain ⟨hwritten, hnodup⟩ := nodup_written_iff hn hb h
  have hlast : ∀ before page after, plan.pages = before ++ page :: after →
      page.path ∉ after.map PlannedPage.path →
      (build store globals options).2.readText (Path.join plan.dist page.path)
        = .ok page.content :=
    fun before page after hsplit hne => readText_of_build hn hb h hsplit hne
  rw [nodup_paths_iff h] at hnodup
  refine ⟨plan, h, hwritten, hlast, ⟨fun hc => hnodup.mp hc.1, fun hc => ⟨hnodup.mpr hc, ?_⟩⟩, ?_⟩
  · intro page hp
    obtain ⟨before, after, hsplit⟩ := List.append_of_mem hp
    have hd := (nodup_paths_iff h).mpr hc
    rw [hsplit, List.map_append, List.map_cons] at hd
    exact hlast before page after hsplit
      (List.nodup_cons.mp (List.nodup_append.mp hd).2.1).1
  · intro hd page hp other _
    obtain ⟨extension, he, hdot⟩ := hd page hp
    exact PlannedPage.not_clash_of_dotless he hdot

theorem files_of_build_dotted : ∃ report plan,
    (build (.ofTexts [("src/pages/a.mustache", "x"), ("src/pages/a.b.mustache", "y")]) [] {}).1.outcome
        = .ok report ∧
    (planBuild (.ofTexts [("src/pages/a.mustache", "x"), ("src/pages/a.b.mustache", "y")]) []
      {}).outcome = .ok plan ∧
    plan.pages = [⟨"a.b", "a.b.html", none, "y"⟩, ⟨"a", "a.html", none, "x"⟩] ∧
    report.written.Nodup ∧ ∀ page ∈ plan.pages,
      (build (.ofTexts [("src/pages/a.mustache", "x"), ("src/pages/a.b.mustache", "y")])
          [] {}).2.readText
        (Path.join plan.dist page.path) = .ok page.content := by
  have hp : (planBuild (.ofTexts [("src/pages/a.mustache", "x"), ("src/pages/a.b.mustache", "y")]) []
      {}).outcome = .ok ⟨"dist", 0, 0,
        [⟨"a.b", "a.b.html", none, "y"⟩, ⟨"a", "a.html", none, "x"⟩], []⟩ :=
    eq_ok_of_toOption (by decide +kernel)
  obtain ⟨report, hb⟩ : ∃ report,
      (build (.ofTexts [("src/pages/a.mustache", "x"), ("src/pages/a.b.mustache", "y")]) []
        {}).1.outcome = .ok report := exists_of_isOk (by decide +kernel)
  obtain ⟨plan, h, -, -, hiff, hdotless⟩ := files_of_build (Store.named_ofTexts _) hb
  rw [hp] at h
  cases h
  have hext : ∀ page ∈ [(⟨"a.b", "a.b.html", none, "y"⟩ : PlannedPage), ⟨"a", "a.html", none, "x"⟩],
      page.path = page.name ++ "." ++ "html" := by decide
  have hc := hdotless fun page hm => ⟨"html", hext page hm, by decide⟩
  exact ⟨report, _, hb, hp, rfl, hiff.mpr hc⟩

/-- Pages `a.b` and `a`, the second with an extension that goes on with the name of the first. -/
def clashingSite : Store .process :=
  .ofTexts [("src/pages/a.b.mustache", "x"), ("src/pages/a.mustache", "y"),
    ("src/pages/a.json", "\x7b\"render\":\x7b\"extension\":\"b.html\"\x7d\x7d")]

theorem build_overwrites : ∃ report plan,
    (build clashingSite [] {}).1.outcome = .ok report ∧
    (planBuild clashingSite [] {}).outcome = .ok plan ∧
    ¬ (report.written.Nodup ∧ ∀ page ∈ plan.pages,
      (build clashingSite [] {}).2.readText (Path.join plan.dist page.path) = .ok page.content) ∧
    report.written = ["dist/a.b.html", "dist/a.b.html"] ∧
    plan.pages.map PlannedPage.content = ["x", "y"] ∧
    (build clashingSite [] {}).2.readText "dist/a.b.html" = .ok "y" := by
  obtain ⟨report, hb, hw⟩ : ∃ report, (build clashingSite [] {}).1.outcome = .ok report ∧
      decide (report.written = ["dist/a.b.html", "dist/a.b.html"]) = true :=
    exists_ok (by decide +kernel)
  obtain ⟨plan, hp, hc⟩ : ∃ plan, (planBuild clashingSite [] {}).outcome = .ok plan ∧
      decide (plan.pages.map PlannedPage.content = ["x", "y"]) = true :=
    exists_ok (by decide +kernel)
  have hw := of_decide_eq_true hw
  refine ⟨report, plan, hb, hp, fun hkept => ?_, hw, of_decide_eq_true hc,
    eq_ok_of_toOption (by decide +kernel)⟩
  rw [hw] at hkept
  exact absurd hkept.1 (by decide)

end Folio
