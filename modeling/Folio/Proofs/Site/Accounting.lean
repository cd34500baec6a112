import Folio.Proofs.Site.MissingPartials
import Folio.Proofs.Site.Obstacles
import Folio.Proofs.Template.History
/-!
# Accounting for files

A check takes each file that is searched out in one of three ways: as a new template, as one that
replaces another, with a warning, or not at all, with an error. A folder that cannot be looked into
is an error too. So what is searched out and what is counted and reported comes to the same number.
-/

namespace Folio

variable {host : Host}

/-- What a search has for the loader: a file, or why a folder cannot be looked into. -/
def Found.item? (found : Found) : Option (Except SiteError TemplateFile) :=
  match found.file? with
  | .error error => some (.error error)
  | .ok file? => file?.map .ok

def yielded (store : Files.Store host) (matcher : Matcher) (folder : String) :
    List (Except SiteError TemplateFile) :=
  (discover store folder matcher).filterMap Found.item?

def loadItem (store : Files.Store host) : Except SiteError TemplateFile → Except Stop Template
  | .ok file => (Template.load store file).outcome
  | .error error => .error (.error error)

def lineOf? : Except Stop Template → Option String
  | .error (.error error) => some error.describe
  | _ => none

theorem loadItem_cases (store : Files.Store host) (item : Except SiteError TemplateFile) :
    (∃ template, loadItem store item = .ok template) ∨
      ∃ error, loadItem store item = .error (.error error) := by
  cases item with
  | error error => exact .inr ⟨error, rfl⟩
  | ok file =>
    cases hl : (Template.load store file).outcome with
    | ok template => exact .inl ⟨template, hl⟩
    | error stop =>
      obtain ⟨error, rfl⟩ := Template.load_eq_error hl
      exact .inr ⟨error, hl⟩

namespace Survey

theorem add_cases (store : Files.Store host) (survey : Survey) (found : Found) :
    match found.item? with
    | none => (survey.add store found).collection = survey.collection ∧
        (survey.add store found).errors = survey.errors
    | some item =>
      (survey.add store found).collection
          = (loadItem store item).toOption.elim survey.collection survey.collection.insert ∧
        (survey.add store found).errors
          = survey.errors ++ (lineOf? (loadItem store item)).toList := by
  cases hf : found.file? with
  | error error => simp [add, Found.item?, loadItem, lineOf?, Except.toOption, hf]
  | ok file =>
    cases file with
    | none => simp [add, Found.item?, hf]
    | some file =>
      cases hl : (Template.load store file).outcome with
      | ok template => simp [add, Found.item?, loadItem, lineOf?, Except.toOption, hf, hl]
      | error stop =>
        obtain ⟨error, rfl⟩ := Template.load_eq_error hl
        simp [add, Found.item?, loadItem, lineOf?, Except.toOption, hf, hl]

theorem foldl_add (store : Files.Store host) (founds : List Found) (survey : Survey) :
    let items := founds.filterMap Found.item?
    (founds.foldl (add store) survey).collection
        = (items.filterMap fun item => (loadItem store item).toOption).foldl .insert
            survey.collection ∧
      (founds.foldl (add store) survey).errors
        = survey.errors ++ items.filterMap fun item => lineOf? (loadItem store item) := by
  induction founds generalizing survey with
  | nil => simp
  | cons found rest ih =>
    obtain ⟨hcollection, herrors⟩ := ih (survey.add store found)
    have hadd := add_cases store survey found
    simp only [List.foldl_cons, List.filterMap_cons] at hcollection herrors ⊢
    rw [hcollection, herrors]
    cases hi : found.item? with
    | none =>
      simp only [hi] at hadd
      rw [hadd.1, hadd.2]
      exact ⟨rfl, rfl⟩
    | some item =>
      simp only [hi] at hadd
      rw [hadd.1, hadd.2, List.filterMap_cons, List.filterMap_cons, List.append_assoc]
      constructor
      · cases (loadItem store item).toOption <;> rfl
      · cases lineOf? (loadItem store item) <;> rfl

variable {store : Files.Store host} {matcher : Matcher} {folder : String}

theorem collection_ofFolder : (ofFolder store folder matcher).collection
    = .ofList ((yielded store matcher folder).filterMap fun item =>
        (loadItem store item).toOption) :=
  (foldl_add store (discover store folder matcher) {}).1

theorem errors_ofFolder : (ofFolder store folder matcher).errors
    = (yielded store matcher folder).filterMap fun item => lineOf? (loadItem store item) :=
  (foldl_add store (discover store folder matcher) {}).2.trans (List.nil_append _)

/-- Each item becomes a template, replaces one or cannot be loaded. -/
theorem length_yielded : (yielded store matcher folder).length
    = (ofFolder store folder matcher).collection.size
      + (ofFolder store folder matcher).collection.warnings.length
      + (ofFolder store folder matcher).errors.length := by
  rw [collection_ofFolder, errors_ofFolder, Collection.size_add_warnings_ofList]
  induction yielded store matcher folder with
  | nil => rfl
  | cons item rest ih =>
    rw [List.length_cons, ih, List.filterMap_cons, List.filterMap_cons]
    rcases loadItem_cases store item with ⟨template, hl⟩ | ⟨error, hl⟩ <;>
      simp [hl, lineOf?, Except.toOption] <;> omega

/-- Of the files alone, each becomes a template, replaces one or cannot be loaded. -/
theorem countP_isOk_yielded : (yielded store matcher folder).countP (·.isOk)
    = (ofFolder store folder matcher).collection.size
      + (ofFolder store folder matcher).collection.warnings.length
      + (yielded store matcher folder).countP fun item =>
          item.isOk && !(loadItem store item).isOk := by
  rw [collection_ofFolder, Collection.size_add_warnings_ofList]
  induction yielded store matcher folder with
  | nil => rfl
  | cons item rest ih =>
    rw [List.countP_cons, List.countP_cons, ih, List.filterMap_cons]
    cases item with
    | error error => simp [loadItem, Except.toOption, Except.isOk, Except.toBool]
    | ok file =>
      cases hl : loadItem store (.ok file) <;>
        simp [Except.toOption, Except.isOk, Except.toBool] <;> omega

end Survey

/-! ## Lines of a check -/

/-- Whether an error is that of a file or a folder. -/
def SiteError.isOfFile : SiteError → Bool
  | templateCompile _ _ | dataParse _ _ | dataNotObject _ | io _ _ => true
  | _ => false

theorem RenderData.isOfFile_of_load {store : Files.Store host} {path : String} {error : SiteError}
    (h : (load store path).outcome = .error (.error error)) : error.isOfFile = true := by
  unfold load at h
  split at h
  · split at h
    · cases h
      rfl
    · split at h <;> cases h <;> rfl
  · cases h

theorem Template.isOfFile_of_load {store : Files.Store host} {file : TemplateFile} {error : SiteError}
    (h : (load store file).outcome = .error (.error error)) : error.isOfFile = true := by
  rw [outcome_load] at h
  split at h
  · cases h
    rfl
  · split at h
    · cases h
      rfl
    · rcases bind_eq_error.mp h with hd | ⟨_, -, h⟩
      · exact RenderData.isOfFile_of_load hd
      · cases h

theorem isOfFile_of_mem_yielded {store : Files.Store host} {matcher : Matcher} {folder : String}
    {item : Except SiteError TemplateFile} {error : SiteError}
    (hm : item ∈ yielded store matcher folder)
    (h : loadItem store item = .error (.error error)) : error.isOfFile = true := by
  cases item with
  | ok file => exact Template.isOfFile_of_load h
  | error cause =>
    cases h
    obtain ⟨found, -, hfound⟩ := List.mem_filterMap.mp hm
    cases found <;> cases hfound
    rfl

theorem SiteError.head?_message {error : SiteError} (h : error.isOfFile = true) :
    ∃ first, error.message.toList.head? = some first ∧ first ≠ 'N' := by
  -- the texts are given in full, since unfolding `message` takes long
  cases error with
  | templateCompile path cause =>
    change ∃ first, ("Failed to compile template " ++ path).toList.head? = _ ∧ _
    simp
  | dataParse path cause =>
    change ∃ first, ("Failed to parse render data " ++ path).toList.head? = _ ∧ _
    simp
  | dataNotObject path =>
    change ∃ first, ("Render data in " ++ path ++ " must be a JSON object").toList.head? = _ ∧ _
    simp
  | io task cause =>
    change ∃ first, ("IO error: " ++ task.message).toList.head? = _ ∧ _
    simp
  | noPages path => cases h
  | render name cause => cases h
  | configNotFound path => cases h
  | configParse => cases h
  | configInvalid reason => cases h
  | unknownTarget name => cases h
  | invalidMatcher cause => cases h

theorem SiteError.message_prefix (error : SiteError) :
    error.message.toList <+: error.describe.toList := by
  have hall : ∀ (causes : List String) (line : String), line.toList
      <+: (causes.foldl (fun line cause => line ++ ": " ++ cause) line).toList := by
    intro causes
    induction causes with
    | nil => exact fun line => List.prefix_rfl
    | cons cause rest ih =>
      intro line
      refine List.IsPrefix.trans ?_ (ih (line ++ ": " ++ cause))
      rw [String.append_assoc, String.toList_append]
      exact List.prefix_append _ _
  rw [describe_eq_foldl]
  exact hall error.causes error.message

def noPagesLine (options : BuildOptions) : String :=
  (SiteError.noPages (Files.Path.join options.src Registry.pagesFolder)).message

theorem noPagesLine_notMem (store : Files.Store host) (options : BuildOptions) (folder : String) :
    noPagesLine options ∉ (Survey.ofFolder store folder ⟨options.types⟩).errors := by
  rw [Survey.errors_ofFolder, List.mem_filterMap]
  rintro ⟨item, hm, hline⟩
  rcases loadItem_cases store item with ⟨template, hl⟩ | ⟨error, hl⟩
  · rw [hl] at hline
    cases hline
  · obtain ⟨first, hfirst, hne⟩ := SiteError.head?_message (isOfFile_of_mem_yielded hm hl)
    obtain ⟨more, hmore⟩ := error.message_prefix
    have hhead : error.describe.toList.head? = some first := by
      rw [← hmore, List.head?_append, hfirst, Option.some_or]
    have hnone : (noPagesLine options).toList.head? = some 'N' := by
      change ("No page found in folder: " ++ _).toList.head? = _
      simp
    rw [hl] at hline
    rw [Option.some.inj hline, hnone] at hhead
    exact hne (Option.some.inj hhead).symm

def IsReplacement (line : String) : Prop :=
  ∃ rest, line = "duplicate template name '" ++ rest

theorem not_isReplacement {start : String} (rest : String)
    (h : start.toList.head?.any (· ≠ 'd') = true) : ¬ IsReplacement (start ++ rest) := by
  rintro ⟨more, he⟩
  have hhead := congrArg (fun line => line.toList.head?) he
  simp only [String.toList_append, List.head?_append] at hhead
  cases hs : start.toList.head? with
  | none => simp [hs] at h
  | some first =>
    rw [hs] at h hhead
    have hd : first = 'd' := Option.some.inj hhead
    simp [hd] at h

theorem Collection.isReplacement_replacement (old new : Template) :
    IsReplacement (replacement old new) := by
  change IsReplacement ("duplicate template name '" ++ new.name ++ "': " ++ new.path
    ++ " replaces " ++ old.path)
  simp only [String.append_assoc]
  exact ⟨_, rfl⟩

theorem Collection.isReplacement_of_mem_warnings {inserted : List Template} {line : String}
    (h : line ∈ (ofList inserted).warnings) : IsReplacement line := by
  induction inserted using List.reverseRecOn with
  | nil => cases h
  | append_singleton before last ih =>
    rw [ofList_concat, insert, List.mem_append] at h
    rcases h with h | h
    · exact ih h
    · obtain ⟨old, -, rfl⟩ := Option.map_eq_some_iff.mp (Option.mem_toList.mp h)
      exact isReplacement_replacement old last

theorem not_isReplacement_of_mem_relationWarnings {layouts partials pages : Collection}
    {line : String} (h : line ∈ relationWarnings layouts partials pages) : ¬ IsReplacement line := by
  have hmissed : ∀ kind bound templates, kind.toList.head?.any (· ≠ 'd') = true →
      line ∈ missingPartials kind bound partials templates → ¬ IsReplacement line := by
    intro kind bound templates hkind hm
    obtain ⟨template, -, reference, -, -, -, rfl⟩ := mem_missingPartials.mp hm
    simp only [missedLine, String.append_assoc]
    exact not_isReplacement _ hkind
  simp only [relationWarnings, List.mem_append] at h
  rcases h with ((((h | h) | h) | h) | h) | h
  · split at h
    · rw [List.mem_singleton.mp h]
      simp only [String.append_assoc]
      exact not_isReplacement _ (by simp)
    · cases h
  · obtain ⟨layout, -, hl⟩ := List.mem_filterMap.mp h
    obtain ⟨nested, -, rfl⟩ := Option.map_eq_some_iff.mp hl
    simp only [String.append_assoc]
    exact not_isReplacement _ (by simp)
  · obtain ⟨page, -, hp⟩ := List.mem_filterMap.mp h
    split at hp
    · cases hp
      simp only [String.append_assoc]
      exact not_isReplacement _ (by simp)
    · cases hp
  · exact hmissed _ _ _ (by simp) h
  · exact hmissed _ _ _ (by simp) h
  · exact hmissed _ _ _ (by simp) h

/-! ## Sites -/

def surveyOf (store : Files.Store host) (options : BuildOptions) (folder : String) : Survey :=
  Survey.ofFolder store folder ⟨options.types⟩

theorem checkSite_eq_ok (store : Files.Store host) {options : BuildOptions}
    (hv : options.error? host = none) {layouts partials pages : Survey}
    (hs : (Registry.folders options.src).map (surveyOf store options) = [layouts, partials, pages]) :
    (checkSite store options).outcome = .ok {
      layouts := layouts.collection.size
      partials := partials.collection.size
      pages := pages.collection.size
      warnings := layouts.collection.warnings ++ partials.collection.warnings
        ++ pages.collection.warnings
        ++ relationWarnings layouts.collection partials.collection pages.collection
      errors := layouts.errors ++ partials.errors ++ pages.errors
        ++ (if pages.collection.isEmpty then [noPagesLine options] else []) } := by
  cases hs
  simp only [checkSite, mapError_matcher, hv, Logged.outcome_bind, Logged.outcome_lift,
    Logged.outcome_tell, Logged.outcome_pure]
  rfl

/-- A check loses nothing of what is searched out below the folders of a site. -/
structure CheckResult.Accounts (store : Files.Store host) (options : BuildOptions)
    (result : CheckResult) : Prop where
  /-- Each item that is searched out is a template, replaces one or has an error. -/
  items : ∀ folder ∈ Registry.folders options.src,
    (yielded store ⟨options.types⟩ folder).length
      = (surveyOf store options folder).collection.size
        + (surveyOf store options folder).collection.warnings.length
        + (surveyOf store options folder).errors.length
  /-- It is put in as a template or else has an error of its own, in the order of the search. -/
  templates : ∀ folder ∈ Registry.folders options.src, (surveyOf store options folder).collection
    = .ofList ((yielded store ⟨options.types⟩ folder).filterMap fun item =>
        (loadItem store item).toOption)
  lines : ∀ folder ∈ Registry.folders options.src, (surveyOf store options folder).errors
    = (yielded store ⟨options.types⟩ folder).filterMap fun item => lineOf? (loadItem store item)
  /-- So it is with the files among the items, and those of them that cannot be loaded. -/
  files : ∀ folder ∈ Registry.folders options.src,
    (yielded store ⟨options.types⟩ folder).countP (·.isOk)
      = (surveyOf store options folder).collection.size
        + (surveyOf store options folder).collection.warnings.length
        + (yielded store ⟨options.types⟩ folder).countP fun item =>
            item.isOk && !(loadItem store item).isOk
  counts : [result.layouts, result.partials, result.pages]
    = (Registry.folders options.src).map fun folder =>
      (surveyOf store options folder).collection.size
  /-- The warnings of replacement come first, and no other warning reads like one. -/
  warnings : ∃ others, result.warnings = (Registry.folders options.src).flatMap (fun folder =>
      (surveyOf store options folder).collection.warnings) ++ others ∧
    (∀ folder ∈ Registry.folders options.src,
      ∀ line ∈ (surveyOf store options folder).collection.warnings, IsReplacement line) ∧
    ∀ line ∈ others, ¬ IsReplacement line
  /-- The lack of a page is the last error, just if no page is counted. -/
  errors : result.errors = (Registry.folders options.src).flatMap (fun folder =>
      (surveyOf store options folder).errors)
        ++ (if result.pages = 0 then [noPagesLine options] else []) ∧
    ∀ folder ∈ Registry.folders options.src,
      noPagesLine options ∉ (surveyOf store options folder).errors
  /-- In sum, the items are as many as templates, warnings of replacement and errors, but for the
  lack of a page. -/
  total : ((Registry.folders options.src).flatMap (yielded store ⟨options.types⟩)).length
      + (if result.pages = 0 then 1 else 0)
    = result.layouts + result.partials + result.pages
      + ((Registry.folders options.src).flatMap fun folder =>
          (surveyOf store options folder).collection.warnings).length
      + result.errors.length
  /-- So it is in sum with the files alone. -/
  filesTotal : ((Registry.folders options.src).flatMap (yielded store ⟨options.types⟩)).countP (·.isOk)
    = result.layouts + result.partials + result.pages
      + ((Registry.folders options.src).flatMap fun folder =>
          (surveyOf store options folder).collection.warnings).length
      + ((Registry.folders options.src).flatMap (yielded store ⟨options.types⟩)).countP fun item =>
          item.isOk && !(loadItem store item).isOk

theorem Collection.isEmpty_iff_size {collection : Collection} :
    collection.isEmpty = true ↔ collection.size = 0 := by
  rw [isEmpty, size, List.isEmpty_iff, List.length_eq_zero_iff]

/-- With valid options a check gives a result, and that accounts for all files, unless the engine
refuses the pattern of the extensions: then that is the error. -/
theorem checkSite_accounts (store : Files.Store host) (options : BuildOptions)
    (hv : options.validate = .ok ()) :
    match host.refusal? options.types with
    | some cause => (checkSite store options).outcome = .error (.error (.invalidMatcher cause))
    | none => ∃ result, (checkSite store options).outcome = .ok result ∧
        result.Accounts store options := by
  have hfault : options.fault? = none := by
    rw [BuildOptions.validate] at hv
    cases hf : options.fault? with
    | none => rfl
    | some fault => simp [hf] at hv
  cases hrefusal : host.refusal? options.types with
  | some cause =>
    simp only [checkSite, mapError_matcher, BuildOptions.error?, hfault, hrefusal, Option.map_some,
      Logged.outcome_bind, Logged.outcome_lift, error_bind]
  | none =>
    have hnone : options.error? host = none := by
      rw [BuildOptions.error?, hfault, hrefusal]
      rfl
    obtain ⟨layouts, partials, pages, hfolders⟩ :
        ∃ layouts partials pages, Registry.folders options.src = [layouts, partials, pages] :=
      ⟨_, _, _, rfl⟩
    refine ⟨_, checkSite_eq_ok store hnone (by rw [hfolders]; rfl), ?_⟩
    have hitems : ∀ folder, (yielded store ⟨options.types⟩ folder).length
        = (surveyOf store options folder).collection.size
          + (surveyOf store options folder).collection.warnings.length
          + (surveyOf store options folder).errors.length := fun _ => Survey.length_yielded
    have hfiles : ∀ folder, (yielded store ⟨options.types⟩ folder).countP (·.isOk)
        = (surveyOf store options folder).collection.size
          + (surveyOf store options folder).collection.warnings.length
          + (yielded store ⟨options.types⟩ folder).countP fun item =>
              item.isOk && !(loadItem store item).isOk := fun _ => Survey.countP_isOk_yielded
    simp only [Collection.isEmpty_iff_size]
    refine ⟨fun folder _ => hitems folder, fun _ _ => Survey.collection_ofFolder,
      fun _ _ => Survey.errors_ofFolder, fun folder _ => hfiles folder, by rw [hfolders]; rfl,
      ⟨relationWarnings (surveyOf store options layouts).collection
        (surveyOf store options partials).collection (surveyOf store options pages).collection,
        ?_, fun folder _ line hm => ?_, fun line => not_isReplacement_of_mem_relationWarnings⟩,
      ⟨?_, fun folder _ => noPagesLine_notMem store options folder⟩, ?_, ?_⟩
    · simp only [hfolders, List.flatMap_cons, List.flatMap_nil, List.append_nil, List.append_assoc]
    · rw [surveyOf, Survey.collection_ofFolder] at hm
      exact Collection.isReplacement_of_mem_warnings hm
    · simp only [hfolders, List.flatMap_cons, List.flatMap_nil, List.append_nil, List.append_assoc]
    · have hl := hitems layouts
      have hp := hitems partials
      have hg := hitems pages
      simp only [hfolders, List.flatMap_cons, List.flatMap_nil, List.append_nil, List.length_append]
      split
      · rw [List.length_singleton]
        omega
      · rw [List.length_nil]
        omega
    · have hl := hfiles layouts
      have hp := hfiles partials
      have hg := hfiles pages
      simp only [hfolders, List.flatMap_cons, List.flatMap_nil, List.append_nil, List.length_append,
        List.countP_append]
      omega

/-- A page that replaces another and a partial that cannot be compiled: one page of three files. -/
def lossySite : Files.Store .process :=
  .ofTexts [("src/partials/nav.mustache", "\x7b\x7b#x\x7d\x7d"), ("src/pages/a.hbs", "old"),
    ("src/pages/a.mustache", "new")]

theorem checkSite_accounts_lossySite : ∃ result,
    (checkSite lossySite { types := ["mustache", "hbs"] }).outcome = .ok result ∧
    result.Accounts lossySite { types := ["mustache", "hbs"] } ∧
    result.pages = 1 ∧ result.warnings.length = 1 ∧ result.errors.length = 1 := by
  obtain ⟨result, hr, hall⟩ :=
    checkSite_accounts lossySite { types := ["mustache", "hbs"] } (eq_ok_of_toOption (by decide))
  obtain ⟨found, hf, hc⟩ : ∃ found,
      (checkSite lossySite { types := ["mustache", "hbs"] }).outcome = .ok found ∧
        decide (found.pages = 1 ∧ found.warnings.length = 1 ∧ found.errors.length = 1) = true :=
    exists_ok (by decide +kernel)
  rw [hr] at hf
  cases hf
  exact ⟨result, hr, hall, of_decide_eq_true hc⟩

end Folio
