import Folio.Proofs.Files.Parents
import Folio.Proofs.Site.Writing
/-!
# Carrying out a plan

A plan is carried out page by page. When a page cannot be written, the pages before it have been
written as if the plan ended there, and no more than folders around the page have been made.
-/

namespace Folio

variable {host : Host}

open Files

variable {store : Store host} {dist : String} {pages : List PlannedPage}

/-! ## Up to a failure -/

/-- Where writing pages ends: at one that cannot be written, with all those before it written. -/
theorem writePages_eq_error {stop : Stop}
    (h : (writePages dist store pages).1.outcome = .error stop) :
    ∃ before page after error, pages = before ++ page :: after ∧ stop = .error error ∧
      (writePages dist store before).1.outcome
        = .ok (before.map fun page => Path.join dist page.path) ∧
      writePage (writePages dist store before).2 (Path.join dist page.path) page.content
        = (.error error, (writePages dist store pages).2) := by
  induction pages generalizing store with
  | nil => cases h
  | cons page rest ih =>
    rw [writePages] at h ⊢
    dsimp only at h ⊢
    cases hw : writePage store (Path.join dist page.path) page.content with
    | mk outcome made =>
      rw [hw] at h
      cases outcome with
      | error error =>
        cases h
        exact ⟨[], page, rest, error, rfl, rfl, rfl, hw⟩
      | ok _ =>
        have hrest : (writePages dist made rest).1.outcome = .error stop := by
          simp only [Logged.outcome_bind, Logged.outcome_tell, ok_bind, Logged.outcome_pure] at h
          refine (bind_eq_error.mp h).resolve_right ?_
          rintro ⟨_, -, h⟩
          cases h
        obtain ⟨before, other, after, error, rfl, rfl, hok, hpage⟩ := ih hrest
        have hcut : writePages dist store (page :: before)
            = (do
                .tell (.debug ("wrote " ++ Path.join dist page.path))
                return Path.join dist page.path :: (← (writePages dist made before).1),
              (writePages dist made before).2) := by
          rw [writePages]
          dsimp only
          rw [hw]
        refine ⟨page :: before, other, after, error, rfl, rfl, ?_, ?_⟩
        · rw [hcut]
          simp only [Logged.outcome_bind, Logged.outcome_tell, ok_bind, hok, Logged.outcome_pure,
            List.map_cons]
        · rw [hcut]
          exact hpage

theorem makes_of_writePage_error {made : Store host} {path content : String} {error : SiteError}
    (h : writePage store path content = (.error error, made)) :
    Store.Makes (FolderOf host path) store made := by
  obtain ⟨made', hm, ⟨other, he⟩ | ⟨written, -, he⟩⟩ := writePage_cases store path content
  · rw [h] at he
    cases he
    exact hm
  · rw [h] at he
    cases he

theorem executeBuild_eq_error {plan : BuildPlan} {stop : Stop}
    (h : (executeBuild store plan).1.outcome = .error stop) :
    (writePages plan.dist store plan.pages).1.outcome = .error stop := by
  simp only [executeBuild, Logged.outcome_bind, Logged.outcome_tell, ok_bind,
    Logged.outcome_pure] at h
  refine (bind_eq_error.mp h).resolve_right ?_
  rintro ⟨_, -, h⟩
  cases h

theorem executeBuild_of_writePages {plan : BuildPlan} {written : List String}
    (h : (writePages plan.dist store plan.pages).1.outcome = .ok written) :
    (executeBuild store plan).1.outcome
      = .ok ⟨plan.layouts, plan.partials, plan.pages.length, written, plan.warnings⟩ := by
  simp only [executeBuild, Logged.outcome_bind, Logged.outcome_tell, ok_bind, h,
    Logged.outcome_pure]

theorem build_of_planBuild {globals : Fields} {options : BuildOptions} {plan : BuildPlan}
    {journal : Journal} (h : planBuild store globals options = ⟨.ok plan, journal⟩) :
    build store globals options
      = (do
          .tell journal
          (executeBuild store plan).1, (executeBuild store plan).2) := by
  rw [build, h]

theorem outcome_build {globals : Fields} {options : BuildOptions} {plan : BuildPlan}
    (h : (planBuild store globals options).outcome = .ok plan) :
    (build store globals options).1.outcome = (executeBuild store plan).1.outcome ∧
      (build store globals options).2 = (executeBuild store plan).2 := by
  cases hl : planBuild store globals options with
  | mk outcome journal =>
    rw [hl] at h
    obtain rfl : outcome = .ok plan := h
    rw [build_of_planBuild hl]
    exact ⟨by rw [Logged.outcome_bind, Logged.outcome_tell, ok_bind], rfl⟩

/-! ## What is left alone -/

/-- The folders around where pages go. -/
def AroundPages (host : Host) (dist : String) (pages : List PlannedPage) (location : Location) : Prop :=
  ∃ page ∈ pages, Ancestor host (Path.join dist page.path) location

theorem FolderOf.ancestor {page : PlannedPage} {location : Location} (hb : Path.Relative page.path)
    (h : FolderOf host (Path.join dist page.path) location) :
    Ancestor host (Path.join dist page.path) location := by
  obtain ⟨folder, hp, hl⟩ := h
  exact .of_parent? hp (hb.named_join_ne_nil dist) hl

theorem touches_pages (hb : ∀ page ∈ pages, Path.Relative page.path) (store : Store host) :
    Store.Touches (PlacesOf host dist pages) (AroundPages host dist pages) store
      (writePages dist store pages).2 := by
  refine (touches_writePages dist store pages).1.mono (fun l hl => hl) ?_
  rintro l ⟨page, hp, hl⟩
  exact ⟨page, hp, hl.ancestor (hb page hp)⟩

/-! ## The whole of a plan or a first part of it -/

/-- Carrying out a plan whose pages have relative paths, those that stay below the output folder among
them. If it succeeds, the paths written are those of the pages in order, and each has the content of
the last page that goes there. If it fails, it does so at a page before which the plan, cut there,
succeeds, and to what that leaves it adds at most folders around the page. Either way all is as it
was but where pages were written and, if there was nothing, around there. Pages whose paths never
lead up go to one place just if the paths have the same names. -/
theorem executeBuild_writes_in_order (store : Store host) {plan : BuildPlan}
    (hb : ∀ page ∈ plan.pages, Path.Relative page.path) :
    (∀ report, (executeBuild store plan).1.outcome = .ok report →
      report.written = plan.pages.map (fun page => Path.join plan.dist page.path) ∧
      (∀ before page after, plan.pages = before ++ page :: after →
        (∀ other ∈ after, Route.location host (Path.join plan.dist other.path)
          ≠ Route.location host (Path.join plan.dist page.path)) →
        (executeBuild store plan).2.readText (Path.join plan.dist page.path)
          = .ok page.content) ∧
      Store.Touches (PlacesOf host plan.dist plan.pages) (AroundPages host plan.dist plan.pages) store
        (executeBuild store plan).2) ∧
    (∀ stop, (executeBuild store plan).1.outcome = .error stop →
      ∃ before page after error, plan.pages = before ++ page :: after ∧ stop = .error error ∧
        (∃ report, (executeBuild store { plan with pages := before }).1.outcome = .ok report) ∧
        writePage (executeBuild store { plan with pages := before }).2
            (Path.join plan.dist page.path) page.content
          = (.error error, (executeBuild store plan).2) ∧
        Store.Makes (Ancestor host (Path.join plan.dist page.path))
          (executeBuild store { plan with pages := before }).2 (executeBuild store plan).2 ∧
        Store.Touches (PlacesOf host plan.dist before)
            (AroundPages host plan.dist (before ++ [page])) store
          (executeBuild store plan).2) ∧
    ∀ page ∈ plan.pages, ∀ other ∈ plan.pages,
      ".." ∉ Path.segments page.path → ".." ∉ Path.segments other.path →
      (Route.location host (Path.join plan.dist page.path)
          = Route.location host (Path.join plan.dist other.path) ↔
        Path.named page.path = Path.named other.path) := by
  refine ⟨fun report hr => ?_, fun stop hs => ?_, fun page hp other ho hup houp =>
    (hb page hp).location_join_eq_iff (hb other ho) hup houp⟩
  · obtain ⟨hwritten, hholds⟩ := writePages_eq_ok (executeBuild_eq_ok hr)
    refine ⟨hwritten, fun before page after hsplit hlast => ?_, touches_pages hb store⟩
    apply Store.Holds.readText
    refine hholds before page after hsplit ?_
    rintro ⟨other, ho, hl⟩
    exact hlast other ho hl.symm
  · obtain ⟨before, page, after, error, hsplit, rfl, hok, hpage⟩ :=
      writePages_eq_error (executeBuild_eq_error hs)
    have hmakes : Store.Makes (Ancestor host (Path.join plan.dist page.path))
        (writePages plan.dist store before).2 (writePages plan.dist store plan.pages).2 :=
      (makes_of_writePage_error hpage).mono fun l hl => hl.ancestor (hb page (by simp [hsplit]))
    refine ⟨before, page, after, error, hsplit, rfl, ⟨_, executeBuild_of_writePages hok⟩, hpage,
      hmakes, ?_⟩
    have hbefore : Store.Touches (PlacesOf host plan.dist before)
        (AroundPages host plan.dist (before ++ [page])) store
            (writePages plan.dist store before).2 := by
      refine (touches_pages (fun other ho => hb other (by simp [hsplit, ho])) store).mono
        (fun l hl => hl) ?_
      rintro l ⟨other, ho, hl⟩
      exact ⟨other, List.mem_append_left _ ho, hl⟩
    refine hbefore.trans ((hmakes.touches _).mono (fun l hl => hl) fun l hl => ?_)
    exact ⟨page, by simp, hl⟩

/-- Two pages that go to one file, one in a folder, and one that wants a folder in place of that
file. -/
def blockedPlan : BuildPlan where
  dist := "out"
  layouts := 0
  partials := 0
  pages := [⟨"a", "a.html", none, "1"⟩, ⟨"b/c", "b/c.html", none, "2"⟩, ⟨"a", "a.html", none, "3"⟩,
    ⟨"a/d", "a.html/d.html", none, "4"⟩]
  warnings := []

theorem executeBuild_writes_in_order_blocked :
    (∀ page ∈ blockedPlan.pages, Path.Relative page.path) ∧
    (∃ report,
      (executeBuild Store.empty { blockedPlan with pages := blockedPlan.pages.take 3 }).1.outcome
          = .ok report ∧
      report.written = ["out/a.html", "out/b/c.html", "out/a.html"] ∧
      (executeBuild Store.empty { blockedPlan with pages := blockedPlan.pages.take 3 }).2.readText
        "out/a.html" = .ok "3") ∧
    (executeBuild Store.empty blockedPlan).1.outcome
      = .error (.error (.io (.creatingFolder "out/a.html") .exists)) ∧
    ∃ before page after, blockedPlan.pages = before ++ page :: after ∧
      (∃ report, (executeBuild Store.empty { blockedPlan with pages := before }).1.outcome
        = .ok report) ∧
      writePage (executeBuild Store.empty { blockedPlan with pages := before }).2
          (Path.join "out" page.path) page.content
        = (.error (.io (.creatingFolder "out/a.html") .exists),
          (executeBuild Store.empty blockedPlan).2) := by
  have hrelative : ∀ page ∈ blockedPlan.pages, Path.Relative page.path := by decide +kernel
  obtain ⟨report, hr⟩ : ∃ report,
      (executeBuild Store.empty { blockedPlan with pages := blockedPlan.pages.take 3 }).1.outcome
        = .ok report := exists_of_isOk (by decide +kernel)
  obtain ⟨hok, -, -⟩ := @executeBuild_writes_in_order _ Store.empty
    { blockedPlan with pages := blockedPlan.pages.take 3 }
    fun page hp => hrelative page (List.mem_of_mem_take hp)
  obtain ⟨hwritten, hholds, -⟩ := hok report hr
  have hfault : (executeBuild Store.empty blockedPlan).1.outcome
      = .error (.error (.io (.creatingFolder "out/a.html") .exists)) :=
    eq_error_of_faultOf? (by decide +kernel)
  obtain ⟨-, hfails, -⟩ := executeBuild_writes_in_order Store.empty hrelative
  obtain ⟨before, page, after, error, hsplit, he, hbefore, hpage, -⟩ := hfails _ hfault
  cases he
  have hlast := hholds (blockedPlan.pages.take 2) ⟨"a", "a.html", none, "3"⟩ [] rfl (by simp)
  have hjoin : Path.join blockedPlan.dist "a.html" = "out/a.html" := by decide +kernel
  rw [hjoin] at hlast
  exact ⟨hrelative, ⟨report, hr, hwritten.trans (by decide +kernel), hlast⟩, hfault, before, page,
    after, hsplit, hbefore, hpage⟩

end Folio
