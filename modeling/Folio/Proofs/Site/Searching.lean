import Folio.Proofs.Site.Accounting
import Folio.Proofs.Site.Rediscovery
/-!
# What a search yields

A search comes to each file below a folder once, depth first and in byte order. It yields those whose
names are text and end in an extension, and also the folders that it cannot look into because their
paths are too long.
-/

namespace Folio

variable {host : Host}

open Files

/-- What a search yields, with the location below the folder that each item is of. -/
def searched (store : Store host) (matcher : Matcher) (folder : String) :
    List (Location × Except SiteError TemplateFile) :=
  if store.hasFolder folder then
    (store.below (Route.location host folder)).filterMap fun entry =>
      ((visit host folder matcher entry).bind Found.item?).map (entry.1, ·)
  else []

/-- A file below a folder that a search comes to. All names on the way are text, and the folder that
it lies in can be looked into. -/
structure Reached (store : Store host) (folder : String) (folders : List String) (fileName : String) :
    Prop where
  isFile : ∃ content, store.get? (Route.location host folder
    ++ (folders.map Name.ofText ++ [Name.ofText fileName])) = some (.file content)
  canOpen : canOpen host folder (folders.map Name.ofText) = true

section

variable {store : Store host} {matcher : Matcher} {folder : String} {location : Location}

theorem map_snd_searched (store : Store host) (matcher : Matcher) (folder : String) :
    (searched store matcher folder).map Prod.snd = yielded store matcher folder := by
  rw [searched, yielded]
  cases hf : store.hasFolder folder with
  | false =>
    rw [discover_eq_nil hf]
    rfl
  | true =>
    rw [discover_eq hf, if_pos rfl, List.map_filterMap, List.filterMap_filterMap]
    congr 1
    funext entry
    cases (visit host folder matcher entry).bind Found.item? <;> rfl

theorem hasFolder_of_mem_searched {item : Except SiteError TemplateFile}
    (h : (location, item) ∈ searched store matcher folder) : store.hasFolder folder = true := by
  rw [searched] at h
  split at h
  · assumption
  · cases h

theorem mem_searched_iff {item : Except SiteError TemplateFile} (hf : store.hasFolder folder = true) :
    (location, item) ∈ searched store matcher folder ↔ ∃ entry, location ≠ [] ∧
      store.get? (Route.location host folder ++ location) = some entry ∧
      (visit host folder matcher (location, entry)).bind Found.item? = some item := by
  rw [searched, if_pos hf, List.mem_filterMap]
  constructor
  · rintro ⟨⟨found, entry⟩, hm, hs⟩
    obtain ⟨shown, hs, he⟩ := Option.map_eq_some_iff.mp hs
    cases he
    obtain ⟨hne, hg⟩ := Store.mem_below_iff.mp hm
    exact ⟨entry, hne, hg, hs⟩
  · rintro ⟨entry, hne, hg, hs⟩
    exact ⟨(location, entry), Store.mem_below_iff.mpr ⟨hne, hg⟩, by rw [hs]; rfl⟩

/-! ## Files and folders -/

theorem classify_ne_unopened {path : String} :
    classify folder matcher location ≠ some (.unopened path) := by
  rw [classify]
  intro h
  split at h
  · cases h
  · obtain ⟨stem, -, h⟩ := Option.map_eq_some_iff.mp h
    split at h <;> cases h

theorem item?_visit_file {content : ByteArray} {item : Except SiteError TemplateFile} :
    (visit host folder matcher (location, .file content)).bind Found.item? = some item ↔
      canOpen host folder location.dropLast = true ∧
        ∃ file, classify folder matcher location = some (.template file) ∧ item = .ok file := by
  rw [visit]
  cases canOpen host folder location.dropLast with
  | false => simp
  | true =>
    cases hc : classify folder matcher location with
    | none => simp
    | some found =>
      cases found with
      | template file => simp [Found.item?, Found.file?, eq_comm]
      | unnamed path => simp [Found.item?, Found.file?]
      | misplaced path => simp [Found.item?, Found.file?]
      | unopened path => exact absurd hc classify_ne_unopened

theorem item?_visit_folder {item : Except SiteError TemplateFile} :
    (visit host folder matcher (location, .folder)).bind Found.item? = some item ↔
      canOpen host folder location.dropLast = true ∧ canOpen host folder location = false ∧
        item = .error (.io (.walking (pathBelow folder location)) .nameTooLong) := by
  rw [visit]
  cases canOpen host folder location.dropLast with
  | false => simp
  | true =>
    cases canOpen host folder location with
    | false => simp [Found.item?, Found.file?, eq_comm]
    | true => simp

/-- The files that are yielded, and what is said of each. -/
theorem file_mem_searched_iff {file : TemplateFile} (hne : matcher.extensions ≠ [])
    (hf : store.hasFolder folder = true) :
    (location, .ok file) ∈ searched store matcher folder ↔ ∃ folders fileName stem,
      location = folders.map Name.ofText ++ [Name.ofText fileName] ∧
      Reached store folder folders fileName ∧ matcher.Strips fileName stem ∧
      file = templateFile folder folders fileName stem := by
  rw [mem_searched_iff hf]
  constructor
  · rintro ⟨entry, -, hg, hs⟩
    cases entry with
    | folder =>
      obtain ⟨-, -, he⟩ := item?_visit_folder.mp hs
      cases he
    | file content =>
      obtain ⟨hopen, file, hk, he⟩ := item?_visit_file.mp hs
      cases he
      obtain ⟨folders, fileName, stem, rfl, hstrip, rfl⟩ := classify_eq_template_iff.mp hk
      rw [List.dropLast_concat] at hopen
      exact ⟨folders, fileName, stem, rfl, ⟨⟨content, hg⟩, hopen⟩,
        (Matcher.strip?_eq_some_iff hne).mp hstrip, rfl⟩
  · rintro ⟨folders, fileName, stem, rfl, ⟨⟨content, hg⟩, hopen⟩, hs, rfl⟩
    refine ⟨.file content, by simp, hg, item?_visit_file.mpr ⟨?_, _, ?_, rfl⟩⟩
    · rw [List.dropLast_concat]
      exact hopen
    · exact classify_eq_template_iff.mpr
        ⟨folders, fileName, stem, rfl, (Matcher.strip?_eq_some_iff hne).mpr hs, rfl⟩

theorem error_mem_searched_iff {error : SiteError} (hf : store.hasFolder folder = true) :
    (location, .error error) ∈ searched store matcher folder ↔ location ≠ [] ∧
      store.get? (Route.location host folder ++ location) = some .folder ∧
      canOpen host folder location.dropLast = true ∧ canOpen host folder location = false ∧
      error = .io (.walking (pathBelow folder location)) .nameTooLong := by
  rw [mem_searched_iff hf]
  constructor
  · rintro ⟨entry, hne, hg, hs⟩
    cases entry with
    | folder =>
      obtain ⟨hopen, hlong, he⟩ := item?_visit_folder.mp hs
      exact ⟨hne, hg, hopen, hlong, Except.error.inj he⟩
    | file content =>
      obtain ⟨-, file, -, he⟩ := item?_visit_file.mp hs
      cases he
  · rintro ⟨hne, hg, hopen, hlong, rfl⟩
    exact ⟨.folder, hne, hg, item?_visit_folder.mpr ⟨hopen, hlong, rfl⟩⟩

/-! ## Order -/

theorem canOpen_of_isPrefix {other : Location} (hp : location <+: other)
    (h : canOpen host folder other = true) : canOpen host folder location = true := by
  have hgrow : ∀ (rest : Location) (size : Nat),
      size ≤ rest.foldl (fun size name => size + name.length + 1) size := by
    intro rest
    induction rest with
    | nil => exact fun size => Nat.le_refl size
    | cons name more ih =>
      intro size
      have hmore := ih (size + name.length + 1)
      rw [List.foldl_cons]
      omega
  obtain ⟨rest, rfl⟩ := hp
  have hlong := of_decide_eq_true h
  rw [pathSize, List.foldl_append] at hlong
  have hle := hgrow rest
    (location.foldl (fun size name => size + name.length + 1)
      (Route.size host (Path.join folder "")))
  rw [canOpen, pathSize]
  exact decide_eq_true (by omega)

variable {other : Location} {item item' : Except SiteError TemplateFile}

/-- Nothing that is yielded lies below something else that is: a folder is yielded only if nothing in
it can be. -/
theorem eq_of_prefix_of_mem_searched (hf : store.hasFolder folder = true)
    (hm : (location, item) ∈ searched store matcher folder)
    (hm' : (other, item') ∈ searched store matcher folder) (hp : location <+: other) :
    location = other := by
  obtain ⟨entry, hne, hg, hs⟩ := (mem_searched_iff hf).mp hm
  obtain ⟨entry', -, hg', hs'⟩ := (mem_searched_iff hf).mp hm'
  obtain ⟨rest, rfl⟩ := hp
  by_contra hrest
  have hrest : rest ≠ [] := fun he => hrest (by rw [he, List.append_nil])
  have hfolder : store.get? (Route.location host folder ++ location) = some .folder := by
    rw [← List.append_assoc] at hg'
    exact (Store.isFolder_of_below hrest hg').resolve_left (by simp [hne])
  rw [hfolder] at hg
  cases hg
  obtain ⟨-, hlong, -⟩ := item?_visit_folder.mp hs
  have hopen : canOpen host folder (location ++ rest).dropLast = true := by
    cases entry' with
    | folder => exact (item?_visit_folder.mp hs').1
    | file content => exact (item?_visit_file.mp hs').1
  rw [List.dropLast_append_of_ne_nil hrest] at hopen
  rw [canOpen_of_isPrefix (List.prefix_append location _) hopen] at hlong
  cases hlong

theorem sorted_searched (store : Store host) (matcher : Matcher) (folder : String) :
    (searched store matcher folder).Pairwise fun found found' => found.1 < found'.1 := by
  rw [searched]
  split
  · refine List.Pairwise.filterMap _ ?_ (store.sorted_below (Route.location host folder))
    intro entry entry' hlt shown hs shown' hs'
    obtain ⟨item, -, rfl⟩ := Option.map_eq_some_iff.mp hs
    obtain ⟨item', -, rfl⟩ := Option.map_eq_some_iff.mp hs'
    exact hlt
  · exact List.Pairwise.nil

theorem before_searched (store : Store host) (matcher : Matcher) (folder : String) :
    ((searched store matcher folder).map Prod.fst).Pairwise Location.Before := by
  rw [List.pairwise_map]
  refine (sorted_searched store matcher folder).imp_of_mem fun {found found'} hm hm' hlt => ?_
  refine (Location.prefix_or_before_of_lt hlt).resolve_left fun hp => ?_
  have he := eq_of_prefix_of_mem_searched (hasFolder_of_mem_searched hm) hm hm' hp
  rw [he] at hlt
  exact List.lt_irrefl _ hlt

/-! ## Names and paths -/

variable {folders : List String} {fileName stem : String}

theorem Reached.slash_notMem (h : Reached store folder folders fileName) (hn : store.Named) :
    ∀ name ∈ folders ++ [fileName], '/' ∉ name.toList := by
  obtain ⟨content, hg⟩ := h.isFile
  intro name hm
  refine hn.slash_notMem hg (List.mem_append_right _ ?_)
  have hmap := List.mem_map_of_mem hm (f := Name.ofText)
  rwa [List.map_append] at hmap

theorem Reached.slash_notMem_stem (h : Reached store folder folders fileName) (hn : store.Named)
    (hs : matcher.Strips fileName stem) : ∀ name ∈ folders ++ [stem], '/' ∉ name.toList := by
  have hslash := h.slash_notMem hn
  rw [List.forall_mem_append, List.forall_mem_singleton] at hslash ⊢
  exact ⟨hslash.1, hs.notMem hslash.2⟩

theorem Reached.route_dataPath (h : Reached store folder folders fileName) (hn : store.Named)
    (hs : matcher.Strips fileName stem) :
    Route.ofPath host (templateFile folder folders fileName stem).dataPath
      = Route.ofPath host (Path.join folder (Path.ofSegments (folders ++ [stem ++ ".json"]))) := by
  have hslash := h.slash_notMem hn
  obtain ⟨content, hg⟩ := h.isFile
  rw [← List.append_assoc] at hg
  obtain ⟨hempty, hdot, -, hname⟩ := hn.real_of_file hg fileName (Name.text?_ofText fileName)
  have hstem := hs.notMem hname
  have hlong : ∀ text : String, text.length < 5 → stem ++ ".json" ≠ text := by
    rintro text hlen rfl
    have hjson : ".json".length = 5 := by decide
    rw [String.length_append] at hlen
    omega
  exact Route.ofPath_sibling (fun piece hp => hslash piece (List.mem_append_left _ hp))
    (Path.isIdle_eq_false_iff.mpr ⟨hempty, hdot⟩) hname
    (Path.isIdle_eq_false_iff.mpr ⟨hlong "" (by decide), hlong "." (by decide)⟩)
    (by simp [hstem]) folder

/-- A search yields nothing if there is no such folder. Else it yields each file below the folder just
once, depth first with the names of each folder in byte order, if the file's name ends in an extension,
all names on the way are text and the folder that the file lies in can be looked into. Its path and
name are those of the segments on the way, the name without the longest extension, and its data file
lies beside it. All else that is yielded is an error for each folder whose path is too long to look
into it. -/
theorem searched_exactly (hn : store.Named) (hne : matcher.extensions ≠ []) (folder : String) :
    (store.hasFolder folder = false → yielded store matcher folder = []) ∧
    (searched store matcher folder).map Prod.snd = yielded store matcher folder ∧
    ((searched store matcher folder).map Prod.fst).Pairwise Location.Before ∧
    ((searched store matcher folder).map Prod.fst).Nodup ∧
    (store.hasFolder folder = true →
      (∀ location, (∃ file, (location, .ok file) ∈ searched store matcher folder) ↔
        ∃ folders fileName, location = folders.map Name.ofText ++ [Name.ofText fileName] ∧
          Reached store folder folders fileName ∧
          ∃ before, ∃ extension ∈ matcher.extensions, fileName = before ++ "." ++ extension) ∧
      (∀ folders fileName file,
        (folders.map Name.ofText ++ [Name.ofText fileName], .ok file)
          ∈ searched store matcher folder →
        ∃ stem, matcher.Strips fileName stem ∧ file = templateFile folder folders fileName stem ∧
          Route.ofPath host file.dataPath
            = Route.ofPath host (Path.join folder (Path.ofSegments (folders ++ [stem ++ ".json"])))) ∧
      ∀ location error, (location, .error error) ∈ searched store matcher folder ↔
        location ≠ [] ∧ store.get? (Route.location host folder ++ location) = some .folder ∧
        canOpen host folder location.dropLast = true ∧ canOpen host folder location = false ∧
        error = .io (.walking (pathBelow folder location)) .nameTooLong) := by
  have hbefore := before_searched store matcher folder
  refine ⟨fun hf => ?_, map_snd_searched store matcher folder, hbefore, hbefore.imp fun h => h.ne,
    fun hf => ⟨fun location => ?_, fun folders fileName file hm => ?_,
      fun location error => error_mem_searched_iff hf⟩⟩
  · rw [yielded, discover_eq_nil hf, List.filterMap_nil]
  · constructor
    · rintro ⟨file, hm⟩
      obtain ⟨folders, fileName, stem, hl, hr, hs, -⟩ := (file_mem_searched_iff hne hf).mp hm
      exact ⟨folders, fileName, hl, hr, stem, hs.ends⟩
    · rintro ⟨folders, fileName, hl, hr, before, extension, hx, rfl⟩
      obtain ⟨stem, hs⟩ := Matcher.exists_strips hx
      exact ⟨_, (file_mem_searched_iff hne hf).mpr ⟨folders, _, stem, hl, hr, hs, rfl⟩⟩
  · obtain ⟨folders', fileName', stem, hl, hr, hs, rfl⟩ := (file_mem_searched_iff hne hf).mp hm
    obtain ⟨rfl, rfl⟩ := Name.map_concat_inj.mp hl
    exact ⟨stem, hs, rfl, hr.route_dataPath hn hs⟩

end

/-- Files with odd names: nothing before the extension, dots in a folder and in a stem. -/
def oddSite : Store .process := .ofTexts [("src/a.mustache/.b.mustache", "x"),
    ("src/a.mustache.md", "y"),
  ("src/a/.mustache", "z")]

theorem searched_exactly_odd : ∃ file,
    ([Name.ofText "a", Name.ofText ".mustache"], .ok file)
      ∈ searched oddSite ⟨["mustache", "b.mustache"]⟩ "src" ∧
    file.name = "a/" ∧ Route.ofPath .process file.dataPath = Route.ofPath .process "src/a/.json" ∧
    ((searched oddSite ⟨["mustache", "b.mustache"]⟩ "src").map Prod.fst).Pairwise Location.Before ∧
    (yielded oddSite ⟨["mustache", "b.mustache"]⟩ "src").map
      (fun item => item.toOption.map TemplateFile.name) = [some "a/", some "a.mustache/"] := by
  have hnamed : oddSite.Named := Store.named_ofTexts _
  have hne : (Matcher.mk ["mustache", "b.mustache"]).extensions ≠ [] := by decide
  obtain ⟨-, -, hbefore, -, hall⟩ := searched_exactly hnamed hne "src"
  obtain ⟨hfound, hsaid, -⟩ := hall (by decide +kernel)
  obtain ⟨file, hm⟩ := (hfound [Name.ofText "a", Name.ofText ".mustache"]).mpr
    ⟨["a"], ".mustache", rfl, ⟨⟨"z".toUTF8, by decide +kernel⟩, by decide +kernel⟩,
      "", "mustache", by decide, by decide⟩
  obtain ⟨stem, hs, rfl, hroute⟩ := hsaid ["a"] ".mustache" file hm
  obtain rfl : stem = "" :=
    String.length_eq_zero_iff.mp (Nat.le_zero.mp (hs.least "mustache" (by decide) "" (by decide)))
  refine ⟨_, hm, by decide +kernel, ?_, hbefore, by decide +kernel⟩
  rw [hroute]
  decide +kernel

/-! ## Out of reach -/

def deepSite : Store .process := .ofTexts [("src/sub/a.mustache", "x")]

/-- A path to the folder around that, so long that it has no room for another name. -/
def remoteFolder : String := Path.slashed "src" 4090

/-- A file is not yielded if the path of its folder is too long. -/
theorem searched_out_of_reach :
    deepSite.hasFolder remoteFolder = true ∧
    deepSite.get? (Route.location .process remoteFolder ++
        [Name.ofText "sub", Name.ofText "a.mustache"])
      = some (.file "x".toUTF8) ∧
    yielded deepSite ⟨["mustache"]⟩ remoteFolder
      = [.error (.io (.walking (pathBelow remoteFolder [Name.ofText "sub"])) .nameTooLong)] := by
  have hlocation : Route.location .process remoteFolder = Host.process.here ++ [Name.ofText "src"] := by
    rw [remoteFolder, Route.location_slashed (by decide)]
    decide +kernel
  have hcheck : Route.check .process remoteFolder = .ok () :=
    Route.check_slashed (Route.check_eq_ok_iff.mpr (by decide +kernel)) (by decide +kernel)
  have hfolder : deepSite.hasFolder remoteFolder = true :=
    Store.hasFolder_slashed (by decide +kernel) (by decide +kernel)
  have hbelow : deepSite.below (Host.process.here ++ [Name.ofText "src"])
      = [([Name.ofText "sub"], .folder),
        ([Name.ofText "sub", Name.ofText "a.mustache"], .file "x".toUTF8)] := by decide +kernel
  have hfile : deepSite.get? (Host.process.here ++ [Name.ofText "src"]
      ++ [Name.ofText "sub", Name.ofText "a.mustache"]) = some (.file "x".toUTF8) := by
    decide +kernel
  have hlong : canOpen .process remoteFolder [Name.ofText "sub"] = false := by
    have hsize : remoteFolder.utf8ByteSize = 4093 := by
      rw [remoteFolder, Path.size_slashed]
      decide
    have hprocess := Route.size_process (Path.join remoteFolder "")
    have hjoin := (Path.size_join remoteFolder (show "".startsWith "/" = false by decide +kernel)).1
    have hsub : (Name.ofText "sub").length = 3 := by decide
    have hmax : maxPath = 4095 := rfl
    rw [canOpen, pathSize, List.foldl_cons, List.foldl_nil, hsub]
    exact decide_eq_false (by omega)
  refine ⟨hfolder, by rw [hlocation]; exact hfile, ?_⟩
  rw [yielded, discover_eq hfolder, hlocation, hbelow]
  simp [visit, canOpen_nil hcheck, hlong, Found.item?, Found.file?]

end Folio
