import Folio.Proofs.Site.Searching
/-!
# Names that files share

Two files that a search finds are called the same only if they lie in one folder and differ in their
extensions alone. So the search comes to them in the order of their file names, and the last of them
is the one that is kept.
-/

namespace Folio

variable {host : Host}

open Files

theorem exists_last_of_find? {α β : Type} {items : List α} {f : α → Option β} {test : β → Bool}
    {result : β} (h : (items.filterMap f).reverse.find? test = some result) :
    ∃ before item after, items = before ++ item :: after ∧ f item = some result ∧
      test result = true ∧ ∀ later ∈ after, ∀ value, f later = some value → test value = false := by
  induction items using List.reverseRecOn with
  | nil => cases h
  | append_singleton before last ih =>
    have hrest : (∀ value, f last = some value → test value = false) →
        (before.filterMap f).reverse.find? test = some result →
        ∃ earlier item after, before ++ [last] = earlier ++ item :: after ∧ f item = some result ∧
          test result = true ∧
          ∀ later ∈ after, ∀ value, f later = some value → test value = false := by
      intro hlast hb
      obtain ⟨earlier, item, after, rfl, hi, ht, ha⟩ := ih hb
      refine ⟨earlier, item, after ++ [last], by simp, hi, ht, ?_⟩
      rw [List.forall_mem_append, List.forall_mem_singleton]
      exact ⟨ha, hlast⟩
    rw [List.filterMap_append, List.reverse_append] at h
    cases hl : f last with
    | none =>
      rw [List.filterMap_cons_none hl] at h
      exact hrest (by simp [hl]) h
    | some value =>
      rw [List.filterMap_cons_some hl] at h
      by_cases ht : test value = true
      · obtain rfl : value = result := by simpa [ht] using h
        exact ⟨before, last, [], rfl, hl, ht, List.forall_mem_nil _⟩
      · exact hrest (by simpa [hl] using ht) (by simpa [ht] using h)

section

variable {store : Store host} {matcher other : Matcher} {folder : String}
    {location location' : Location}
  {file file' : TemplateFile} {collection : Collection}

/-- Files with one name lie in one folder and have one stem. -/
theorem sharedStem_of_name_eq (hn : store.Named) (hne : matcher.extensions ≠ [])
    (hm : (location, .ok file) ∈ searched store matcher folder)
    (hm' : (location', .ok file') ∈ searched store matcher folder) (h : file.name = file'.name) :
    ∃ (folders : List String) (stem : String), ∃ extension ∈ matcher.extensions,
      ∃ extension' ∈ matcher.extensions,
      location = folders.map Name.ofText ++ [Name.ofText (stem ++ "." ++ extension)] ∧
      location' = folders.map Name.ofText ++ [Name.ofText (stem ++ "." ++ extension')] := by
  have hf := hasFolder_of_mem_searched hm
  obtain ⟨folders, fileName, stem, rfl, hr, hs, rfl⟩ := (file_mem_searched_iff hne hf).mp hm
  obtain ⟨folders', fileName', stem', rfl, hr', hs', rfl⟩ := (file_mem_searched_iff hne hf).mp hm'
  obtain ⟨rfl, hstem⟩ := List.append_inj' ((Path.ofSegments_inj (by simp) (by simp)
    (hr.slash_notMem_stem hn hs) (hr'.slash_notMem_stem hn hs')).mp h) rfl
  obtain rfl := List.singleton_inj.mp hstem
  obtain ⟨extension, hx, rfl⟩ := hs.ends
  obtain ⟨extension', hx', rfl⟩ := hs'.ends
  exact ⟨folders, stem, extension, hx, extension', hx', rfl, rfl⟩

/-! ## What is gathered -/

theorem toOption_loadItem_eq_some {item : Except SiteError TemplateFile} {template : Template} :
    (loadItem store item).toOption = some template ↔
      ∃ file, item = .ok file ∧ (Template.load store file).outcome = .ok template := by
  cases item with
  | error error => simp [loadItem, Except.toOption]
  | ok file =>
    cases h : (Template.load store file).outcome <;> simp [loadItem, Except.toOption, h]

def gathered (store : Store host) (matcher : Matcher) (folder : String) : List Template :=
  (searched store matcher folder).filterMap fun found => (loadItem store found.2).toOption

theorem gathered_of_populate
    (h : (Collection.populate store folder matcher).outcome = .ok collection) :
    collection = .ofList (gathered store matcher folder) ∧
      ∀ found ∈ searched store matcher folder, ∃ file template, found.2 = .ok file ∧
        (Template.load store file).outcome = .ok template := by
  obtain ⟨rfl, herrors⟩ := Survey.ofFolder_of_populate h
  constructor
  · rw [Survey.collection_ofFolder, ← map_snd_searched, List.filterMap_map]
    rfl
  · rw [Survey.errors_ofFolder, ← map_snd_searched, List.filterMap_eq_nil_iff] at herrors
    intro found hm
    have hline := herrors found.2 (List.mem_map_of_mem hm)
    rcases loadItem_cases store found.2 with ⟨template, hl⟩ | ⟨error, hl⟩
    · obtain ⟨file, hf, hl⟩ := toOption_loadItem_eq_some.mp (by rw [hl]; rfl)
      exact ⟨file, template, hf, hl⟩
    · rw [hl] at hline
      cases hline

theorem nodup_names_gathered (hn : store.Named) (hne : matcher.extensions ≠ [])
    (hone : ∀ extension ∈ matcher.extensions, ∀ extension' ∈ matcher.extensions,
      extension = extension') : ((gathered store matcher folder).map Template.name).Nodup := by
  have hbefore := List.pairwise_map.mp (before_searched store matcher folder)
  have hdistinct : (searched store matcher folder).Pairwise fun found found' =>
      ∀ file file', found.2 = .ok file → found'.2 = .ok file' → file.name ≠ file'.name := by
    refine hbefore.imp_of_mem fun {found found'} hm hm' hb file file' hf hf' hname => ?_
    obtain ⟨location, item⟩ := found
    obtain ⟨location', item'⟩ := found'
    cases hf
    cases hf'
    obtain ⟨folders, stem, extension, hx, extension', hx', rfl, rfl⟩ :=
      sharedStem_of_name_eq hn hne hm hm' hname
    rw [hone extension hx extension' hx'] at hb
    exact hb.ne rfl
  rw [List.Nodup, List.pairwise_map]
  refine List.Pairwise.filterMap _ ?_ hdistinct
  intro found found' hd template ht template' ht'
  obtain ⟨file, hf, hl⟩ := toOption_loadItem_eq_some.mp ht
  obtain ⟨file', hf', hl'⟩ := toOption_loadItem_eq_some.mp ht'
  rw [(Template.load_eq_ok hl).1, (Template.load_eq_ok hl').1]
  exact hd file file' hf hf'

theorem size_of_populate (h : (Collection.populate store folder matcher).outcome = .ok collection)
    (hd : ((gathered store matcher folder).map Template.name).Nodup) :
    collection.warnings = [] ∧ collection.size = (yielded store matcher folder).length := by
  obtain ⟨rfl, hloaded⟩ := gathered_of_populate h
  have hlength : (gathered store matcher folder).length = (yielded store matcher folder).length := by
    rw [gathered, List.length_filterMap_eq_countP, List.countP_eq_length.mpr, ← map_snd_searched,
      List.length_map]
    intro found hm
    obtain ⟨file, template, hf, hl⟩ := hloaded found hm
    rw [toOption_loadItem_eq_some.mpr ⟨file, hf, hl⟩]
    rfl
  have hsize : (Collection.ofList (gathered store matcher folder)).size
      = (gathered store matcher folder).length := by
    rw [Collection.size_ofList, List.toFinset_card_of_nodup hd, List.length_map]
  have hboth := Collection.size_add_warnings_ofList (gathered store matcher folder)
  refine ⟨List.eq_nil_of_length_eq_zero (by omega), hsize.trans hlength⟩

/-- A file that is found has a name, and none that is found with that name has a file name that comes
later in byte order. -/
structure LastNamed (store : Store host) (matcher : Matcher) (folder name : String)
    (folders : List String) (fileName : String) (file : TemplateFile) : Prop where
  isFound : (folders.map Name.ofText ++ [Name.ofText fileName], .ok file)
    ∈ searched store matcher folder
  hasName : file.name = name
  isLast : ∀ location other, (location, .ok other) ∈ searched store matcher folder →
    other.name = name → ∃ otherName, location = folders.map Name.ofText ++ [Name.ofText otherName] ∧
      (otherName = fileName ∨ Name.ofText otherName < Name.ofText fileName)

/-- What is kept under a name comes from the file that the search comes to last. -/
theorem lastFound_of_populate {name : String} {template : Template}
    (h : (Collection.populate store folder matcher).outcome = .ok collection)
    (hk : collection.find? name = some template) :
    ∃ location file, (location, .ok file) ∈ searched store matcher folder ∧ file.name = name ∧
      (Template.load store file).outcome = .ok template ∧
      ∀ location' other, (location', .ok other) ∈ searched store matcher folder →
        other.name = name → location' = location ∨ location'.Before location := by
  obtain ⟨rfl, hloaded⟩ := gathered_of_populate h
  rw [Collection.find?_ofList] at hk
  obtain ⟨before, ⟨location, item⟩, after, hsplit, hg, ht, hafter⟩ := exists_last_of_find? hk
  obtain ⟨file, rfl, hl⟩ := toOption_loadItem_eq_some.mp hg
  have hname : file.name = name := by
    rw [← (Template.load_eq_ok hl).1]
    simpa using ht
  refine ⟨location, file, by simp [hsplit], hname, hl, fun location' other ho hother => ?_⟩
  obtain ⟨other', template', hf, hl'⟩ := hloaded _ ho
  cases hf
  have hbefore := List.pairwise_map.mp (before_searched store matcher folder)
  rw [hsplit] at ho hbefore
  rcases List.mem_append.mp ho with ho | ho
  · exact .inr ((List.pairwise_append.mp hbefore).2.2 _ ho _ List.mem_cons_self)
  · rcases List.mem_cons.mp ho with ho | ho
    · exact .inl (Prod.mk.inj ho).1
    · have hlate := hafter _ ho template' (toOption_loadItem_eq_some.mpr ⟨other, rfl, hl'⟩)
      rw [(Template.load_eq_ok hl').1, hother] at hlate
      simp at hlate

theorem lastNamed_of_populate (hn : store.Named) (hne : matcher.extensions ≠ []) {name : String}
    {template : Template} (h : (Collection.populate store folder matcher).outcome = .ok collection)
    (hk : collection.find? name = some template) :
    ∃ folders fileName file, LastNamed store matcher folder name folders fileName file ∧
      (Template.load store file).outcome = .ok template := by
  obtain ⟨location, file, hm, hname, hl, hlast⟩ := lastFound_of_populate h hk
  obtain ⟨folders, fileName, stem, rfl, -⟩ :=
    (file_mem_searched_iff hne (hasFolder_of_mem_searched hm)).mp hm
  refine ⟨folders, fileName, file, ⟨hm, hname, fun location other ho hother => ?_⟩, hl⟩
  obtain ⟨folders', stem', extension, -, extension', -, hl', rfl⟩ :=
    sharedStem_of_name_eq hn hne hm ho (hname.trans hother.symm)
  obtain ⟨rfl, rfl⟩ := Name.map_concat_inj.mp hl'
  refine ⟨stem' ++ "." ++ extension', rfl, ?_⟩
  rcases hlast _ other ho hother with hsame | hb
  · exact .inl (Name.map_concat_inj.mp hsame).2
  · exact .inr hb.lt_of_concat

theorem exists_kept_of_populate
    (h : (Collection.populate store folder matcher).outcome = .ok collection)
    (hm : (location, .ok file) ∈ searched store matcher folder) :
    ∃ template, collection.find? file.name = some template := by
  obtain ⟨rfl, hloaded⟩ := gathered_of_populate h
  obtain ⟨file', template, hf, hl⟩ := hloaded _ hm
  cases hf
  rw [Collection.find?_ofList, ← Option.isSome_iff_exists, Collection.isSome_latest?,
    ← (Template.load_eq_ok hl).1]
  refine List.mem_map_of_mem (List.mem_filterMap.mpr ⟨_, hm, ?_⟩)
  exact toOption_loadItem_eq_some.mpr ⟨_, rfl, hl⟩

theorem populate_congr (hne : matcher.extensions ≠ [])
    (h : ∀ extension, extension ∈ matcher.extensions ↔ extension ∈ other.extensions) :
    Collection.populate store folder matcher = Collection.populate store folder other := by
  have hvisit : visit host folder matcher = visit host folder other := by
    funext item
    rw [visit, visit, classify, classify, Matcher.strip?_congr hne h]
  have hfound : discover store folder matcher = discover store folder other := by
    rw [discover, discover, hvisit]
  rw [Collection.populate, Collection.populate, hfound]

/-- Of the files that a folder is populated from, two have one name only if they lie in one folder and
have one stem with different extensions. So with one extension nothing is replaced, and there are as
many templates as files. Under each name is kept what was loaded from the file with the last file name
of those that have it, in byte order. The order of the extensions does not matter. -/
theorem names_clash_in_folders (hn : store.Named) (hne : matcher.extensions ≠ [])
    (h : (Collection.populate store folder matcher).outcome = .ok collection) :
    (∀ location location' file file', (location, .ok file) ∈ searched store matcher folder →
      (location', .ok file') ∈ searched store matcher folder → location ≠ location' →
      file.name = file'.name →
      ∃ (folders : List String) (stem : String), ∃ extension ∈ matcher.extensions,
        ∃ extension' ∈ matcher.extensions, extension ≠ extension' ∧
        location = folders.map Name.ofText ++ [Name.ofText (stem ++ "." ++ extension)] ∧
        location' = folders.map Name.ofText ++ [Name.ofText (stem ++ "." ++ extension')]) ∧
    ((∀ extension ∈ matcher.extensions, ∀ extension' ∈ matcher.extensions, extension = extension') →
      collection.warnings = [] ∧ collection.size = (yielded store matcher folder).length) ∧
    (∀ location file, (location, .ok file) ∈ searched store matcher folder →
      ∃ template, collection.find? file.name = some template) ∧
    (∀ name template, collection.find? name = some template →
      ∃ folders fileName file, LastNamed store matcher folder name folders fileName file ∧
        (Template.load store file).outcome = .ok template) ∧
    (∀ item ∈ yielded store matcher folder, ∃ file, item = .ok file) ∧
    ∀ other : Matcher, (∀ extension, extension ∈ matcher.extensions ↔ extension ∈ other.extensions) →
      Collection.populate store folder other = Collection.populate store folder matcher := by
  refine ⟨fun location location' file file' hm hm' hl hname => ?_,
    fun hone => size_of_populate h (nodup_names_gathered hn hne hone),
    fun location file => exists_kept_of_populate h,
    fun name template => lastNamed_of_populate hn hne h, ?_,
    fun other hsame => (populate_congr hne hsame).symm⟩
  · obtain ⟨folders, stem, extension, hx, extension', hx', rfl, rfl⟩ :=
      sharedStem_of_name_eq hn hne hm hm' hname
    exact ⟨folders, stem, extension, hx, extension', hx', fun he => hl (by rw [he]), rfl, rfl⟩
  · rw [← map_snd_searched, List.forall_mem_map]
    intro found hm
    obtain ⟨file, _, hf, -⟩ := (gathered_of_populate h).2 found hm
    exact ⟨file, hf⟩

end

def sharedNames : Store .process :=
  .ofTexts [("src/a.mustache", "x"), ("src/a.hbs", "y"), ("src/b/a.hbs", "z")]

theorem names_clash_in_folders_shared : ∃ collection single,
    (Collection.populate sharedNames "src" ⟨["mustache", "hbs"]⟩).outcome = .ok collection ∧
    (Collection.populate sharedNames "src" ⟨["hbs", "mustache", "hbs"]⟩).outcome = .ok collection ∧
    (collection.find? "a").map Template.path = some "src/a.mustache" ∧
    (Collection.populate sharedNames "src" ⟨["hbs"]⟩).outcome = .ok single ∧
    single.warnings = [] ∧ single.size = 2 := by
  have hn : sharedNames.Named := Store.named_ofTexts _
  have hne : (Matcher.mk ["mustache", "hbs"]).extensions ≠ [] := by decide
  have hne' : (Matcher.mk ["hbs"]).extensions ≠ [] := by decide
  obtain ⟨collection, hc, hk⟩ : ∃ collection,
      (Collection.populate sharedNames "src" ⟨["mustache", "hbs"]⟩).outcome = .ok collection ∧
      decide ((collection.find? "a").map Template.path = some "src/a.mustache") = true :=
    exists_ok (by decide +kernel)
  obtain ⟨single, hs⟩ : ∃ single,
      (Collection.populate sharedNames "src" ⟨["hbs"]⟩).outcome = .ok single :=
    exists_of_isOk (by decide +kernel)
  obtain ⟨-, -, -, -, -, horder⟩ := names_clash_in_folders hn hne hc
  obtain ⟨-, hone, -⟩ := names_clash_in_folders hn hne' hs
  obtain ⟨hwarnings, hsize⟩ := hone (by simp)
  refine ⟨collection, single, hc, ?_, of_decide_eq_true hk, hs, hwarnings, ?_⟩
  · rw [horder ⟨["hbs", "mustache", "hbs"]⟩ (by simp), hc]
  · rw [hsize]
    decide +kernel

end Folio
