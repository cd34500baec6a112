import Folio.Proofs.Files.Walking
import Folio.Site.Build
/-!
# Writing pages

Writing a plan puts files where its paths lead, makes the folders these lie in, and leaves the rest
of the store alone. Each path then leads to the content that was written there last.
-/

namespace Folio

variable {host : Host}

namespace Files.Store

/-- What happens to a store where files are written at some locations and folders are made at
others: everything else stays as it is. -/
def Touches (files folders : Location → Prop) (store store' : Store host) : Prop :=
  ∀ l, store'.get? l = store.get? l ∨
    (∃ content, store'.get? l = some (.file content) ∧ files l) ∨
    store.get? l = none ∧ store'.get? l = some .folder ∧ folders l

variable {files folders : Location → Prop} {store middle store' : Store host}

theorem Touches.refl (files folders : Location → Prop) (store : Store host) :
    Touches files folders store store :=
  fun _ => .inl rfl

theorem Touches.trans (h : Touches files folders store middle)
    (h' : Touches files folders middle store') : Touches files folders store store' := by
  intro l
  rcases h' l with he | hf | ⟨hn, hd, hl⟩
  · rw [he]
    exact h l
  · exact .inr (.inl hf)
  · rcases h l with he | ⟨content, hc, -⟩ | ⟨-, hd', -⟩
    · rw [← he]
      exact .inr (.inr ⟨hn, hd, hl⟩)
    · rw [hc] at hn
      cases hn
    · rw [hd'] at hn
      cases hn

theorem Touches.mono {files' folders' : Location → Prop} (h : Touches files folders store store')
    (hf : ∀ l, files l → files' l) (hd : ∀ l, folders l → folders' l) :
    Touches files' folders' store store' := by
  intro l
  rcases h l with he | ⟨content, hc, hl⟩ | ⟨hn, hc, hl⟩
  · exact .inl he
  · exact .inr (.inl ⟨content, hc, hf l hl⟩)
  · exact .inr (.inr ⟨hn, hc, hd l hl⟩)

theorem Makes.touches (h : Makes folders store store') (files : Location → Prop) :
    Touches files folders store store' :=
  fun l => (h l).imp_right .inr

theorem Written.touches {location : Location} {content : ByteArray}
    (h : Written location content store store') (folders : Location → Prop) :
    Touches (· = location) folders store store' := by
  intro l
  by_cases hl : l = location
  · subst hl
    exact .inr (.inl ⟨content, h.here, rfl⟩)
  · exact .inl (h.elsewhere l hl)

theorem Touches.file {l : Location} {content : ByteArray} (h : Touches files folders store store')
    (hc : store'.get? l = some (.file content)) : store.get? l = some (.file content) ∨ files l := by
  rcases h l with he | ⟨_, -, hl⟩ | ⟨-, hd, -⟩
  · exact .inl (he ▸ hc)
  · exact .inr hl
  · rw [hd] at hc
    cases hc

structure Holds (store : Store host) (path text : String) : Prop where
  sound : Route.check host path = .ok ()
  toFile : (Route.ofPath host path).toFolder = false
  follows : store.walk (Route.ofPath host path).start (Route.ofPath host path).names
    = .ok (Route.location host path)
  file : store.get? (Route.location host path) = some (.file text.toUTF8)

theorem Holds.readText {path text : String} (h : store.Holds path text) :
    store.readText path = .ok text :=
  readText_of_walk h.sound h.toFile h.follows h.file

theorem Holds.touches {path text : String} (h : store.Holds path text)
    (ht : Touches files folders store store') (hg : Grows store store')
    (hn : ¬ files (Route.location host path)) : store'.Holds path text := by
  refine ⟨h.sound, h.toFile, hg.walk h.follows, ?_⟩
  rcases ht (Route.location host path) with he | ⟨_, -, hl⟩ | ⟨he, -, -⟩
  · rw [he, h.file]
  · exact absurd hl hn
  · rw [h.file] at he
    cases he

end Files.Store

open Files

/-! ## One page -/

/-- The folders that a file at a path lies in, and those on the way to them. -/
def FolderOf (host : Host) (path : String) (location : Location) : Prop :=
  ∃ folder, Path.parent? path = some folder ∧
    Store.OnTheWay (Route.ofPath host folder).start (Route.ofPath host folder).names location

variable {store store' : Store host} {path content : String}

theorem writePage_cases (store : Store host) (path content : String) :
    ∃ made, Store.Makes (FolderOf host path) store made ∧
      ((∃ error, writePage store path content = (.error error, made)) ∨
        ∃ written, made.write path content.toUTF8 = .ok written ∧
          writePage store path content = (.ok (), written)) := by
  have hmade : Store.Makes (FolderOf host path) store
      ((Path.parent? path).elim (Except.ok (), store) store.makeFolders).2 := by
    cases hp : Path.parent? path with
    | none => exact .refl _ store
    | some folder => exact (Store.makes_makeFolders store folder).mono fun l hl => ⟨folder, hp, hl⟩
  refine ⟨_, hmade, ?_⟩
  rw [writePage]
  generalize (Path.parent? path).elim (Except.ok (), store) store.makeFolders = outcome
  rcases outcome with ⟨_ | _, made⟩
  · exact .inl ⟨_, rfl⟩
  · dsimp only
    cases hw : made.write path content.toUTF8 with
    | error fault => exact .inl ⟨_, rfl⟩
    | ok written => exact .inr ⟨written, rfl, rfl⟩

theorem touches_writePage (store : Store host) (path content : String) :
    Store.Touches (· = Route.location host path) (FolderOf host path) store
        (writePage store path content).2 ∧
      Store.Grows store (writePage store path content).2 := by
  obtain ⟨made, hm, ⟨error, he⟩ | ⟨written, hw, he⟩⟩ := writePage_cases store path content
  · rw [he]
    exact ⟨hm.touches _, hm.grows⟩
  · obtain ⟨-, -, hwritten, -⟩ := Store.write_eq_ok hw
    rw [he]
    exact ⟨(hm.touches _).trans (hwritten.touches _), hm.grows.trans hwritten.grows⟩

theorem holds_of_writePage (h : writePage store path content = (.ok (), store')) :
    store'.Holds path content := by
  obtain ⟨made, -, ⟨error, he⟩ | ⟨written, hw, he⟩⟩ := writePage_cases store path content
  · rw [h] at he
    cases he
  · rw [h] at he
    cases he
    obtain ⟨hc, ht, hwritten, hwalk⟩ := Store.write_eq_ok hw
    exact ⟨hc, ht, hwalk, hwritten.here⟩

/-! ## All pages -/

def PlacesOf (host : Host) (dist : String) (pages : List PlannedPage) (location : Location) : Prop :=
  ∃ page ∈ pages, location = Route.location host (Path.join dist page.path)

def FoldersOf (host : Host) (dist : String) (pages : List PlannedPage) (location : Location) : Prop :=
  ∃ page ∈ pages, FolderOf host (Path.join dist page.path) location

theorem touches_writePages (dist : String) (store : Store host) (pages : List PlannedPage) :
    Store.Touches (PlacesOf host dist pages) (FoldersOf host dist pages) store
        (writePages dist store pages).2 ∧
      Store.Grows store (writePages dist store pages).2 := by
  induction pages generalizing store with
  | nil => exact ⟨.refl _ _ store, .refl store⟩
  | cons page rest ih =>
    obtain ⟨ht, hg⟩ := touches_writePage store (Path.join dist page.path) page.content
    have hfirst : Store.Touches (PlacesOf host dist (page :: rest))
        (FoldersOf host dist (page :: rest)) store
        (writePage store (Path.join dist page.path) page.content).2 :=
      ht.mono (fun l hl => ⟨page, List.mem_cons_self, hl⟩)
        fun l hl => ⟨page, List.mem_cons_self, hl⟩
    rw [writePages]
    dsimp only
    split
    · rename_i error made hw
      rw [hw] at hfirst hg
      exact ⟨hfirst, hg⟩
    · rename_i made hw
      rw [hw] at hfirst hg
      obtain ⟨htail, hgtail⟩ := ih made
      have hrest : Store.Touches (PlacesOf host dist (page :: rest))
          (FoldersOf host dist (page :: rest)) made
          (writePages dist made rest).2 :=
        htail.mono (fun l ⟨other, ho, hl⟩ => ⟨other, List.mem_cons_of_mem _ ho, hl⟩)
          fun l ⟨other, ho, hl⟩ => ⟨other, List.mem_cons_of_mem _ ho, hl⟩
      exact ⟨hfirst.trans hrest, hg.trans hgtail⟩

/-- Once all pages are written, a path leads to the content of the last page that goes there. -/
theorem writePages_eq_ok {dist : String} {pages : List PlannedPage} {written : List String}
    (h : (writePages dist store pages).1.outcome = .ok written) :
    written = pages.map (fun page => Path.join dist page.path) ∧
      ∀ before page after, pages = before ++ page :: after →
        ¬ PlacesOf host dist after (Route.location host (Path.join dist page.path)) →
        (writePages dist store pages).2.Holds (Path.join dist page.path) page.content := by
  induction pages generalizing store written with
  | nil =>
    cases h
    exact ⟨rfl, fun before page after he => by simp at he⟩
  | cons page rest ih =>
    rw [writePages] at h ⊢
    dsimp only at h ⊢
    split at h
    · cases h
    · rename_i made hw
      simp only [Logged.outcome_bind_eq_ok, Logged.outcome_tell, Logged.outcome_pure,
        Except.ok.injEq] at h
      obtain ⟨_, -, more, hm, rfl⟩ := h
      obtain ⟨rfl, hholds⟩ := ih hm
      refine ⟨rfl, fun before other after he hn => ?_⟩
      cases before with
      | nil =>
        cases he
        obtain ⟨ht, hg⟩ := touches_writePages dist made rest
        exact (holds_of_writePage hw).touches ht hg hn
      | cons first before =>
        cases he
        exact hholds before other after rfl hn

/-! ## Builds -/

theorem executeBuild_eq_ok {plan : BuildPlan} {report : BuildReport}
    (h : (executeBuild store plan).1.outcome = .ok report) :
    (writePages plan.dist store plan.pages).1.outcome = .ok report.written := by
  simp only [executeBuild, Logged.outcome_bind_eq_ok, Logged.outcome_tell, Logged.outcome_pure,
    Except.ok.injEq] at h
  obtain ⟨written, hw, _, -, rfl⟩ := h
  exact hw

/-- A build that succeeds has written the whole of its plan. -/
theorem build_eq_ok {globals : Fields} {options : BuildOptions} {report : BuildReport}
    (h : (build store globals options).1.outcome = .ok report) :
    ∃ plan, (planBuild store globals options).outcome = .ok plan ∧
      (writePages plan.dist store plan.pages).1.outcome = .ok report.written ∧
      (build store globals options).2 = (writePages plan.dist store plan.pages).2 := by
  rw [build] at h ⊢
  split at h
  · cases h
  · rename_i plan journal hp
    simp only [Logged.outcome_bind_eq_ok] at h
    obtain ⟨_, -, h⟩ := h
    exact ⟨plan, by rw [hp], executeBuild_eq_ok h, rfl⟩

end Folio
