import Folio.Proofs.Files.Making
import Folio.Proofs.Files.Parents
/-!
# Spared folders

A folder is spared if no file inside it is written, though folders may be made there. Whatever path
goes into such a folder leads to a file just if it did before, and to the same content. Adding a file
spares every folder that the file is not inside.
-/

namespace Folio.Files

variable {host : Host}

/-! ## Paths into a folder -/

namespace Path

theorem exists_parent? {path : String} (h : named path ≠ []) :
    ∃ folder, parent? path = some folder := by
  rcases dropIdle_cases (segments path) with ⟨before, last, idle, -, hl, -, hd⟩ | ⟨hidle, -⟩
  · rw [parent?, hd, List.reverse_append, List.reverse_singleton, List.singleton_append]
    split
    · rename_i hc
      cases hc
    · rename_i hc
      exact absurd (List.cons.inj hc).1 (isIdle_eq_false_iff.mp hl).1
    · split <;> exact ⟨_, rfl⟩
  · exact absurd (filter_of_idle hidle) h

/-- A path that goes on from a folder, down by these names. -/
structure Into (host : Host) (folder path : String) (rest : List Name) : Prop where
  ne_nil : rest ≠ []
  noAbove : above ∉ rest
  route : Route.ofPath host path = ⟨(Route.ofPath host folder).start,
      (Route.ofPath host folder).names ++ rest, false⟩

variable {folder path : String} {rest : List Name}

theorem Into.location (h : Into host folder path rest) :
    Route.location host path = Route.location host folder ++ rest := by
  rw [Route.location, h.route]
  dsimp only
  rw [Route.follow_append, ← Route.location, Route.follow_of_notMem h.noAbove]

theorem Into.inside (h : Into host folder path rest) :
    (Route.location host folder).Inside (Route.location host path) := by
  obtain ⟨name, more, hr⟩ := List.exists_cons_of_ne_nil h.ne_nil
  exact ⟨name, more, by rw [h.location, hr]⟩

theorem Into.named_ne_nil (h : Into host folder path rest) : named path ≠ [] := by
  intro he
  have hnames := Route.names_ofPath host path
  rw [he, h.route] at hnames
  exact h.ne_nil (List.append_eq_nil_iff.mp hnames).2

theorem Descending.above_notMem {pieces : List String} (h : Descending pieces) :
    above ∉ pieces.map Name.ofText := by
  intro hm
  obtain ⟨piece, hp, he⟩ := List.mem_map.mp hm
  exact h.noAbove (Name.ofText_injective he ▸ hp)

theorem Descending.into {pieces : List String} (h : Descending pieces) (hne : pieces ≠ [])
    (folder : String) :
    Into host folder (join folder (ofSegments pieces)) (pieces.map Name.ofText) where
  ne_nil := by simpa using hne
  noAbove := h.above_notMem
  route := by rw [Route.ofPath_join (h.ne_empty hne) h.toProper.startsWith, h.toProper.ofPath]

theorem Descending.into_sibling {before : List String} {last other : String}
    (h : Descending (before ++ [last])) (ho : Descending (before ++ [other])) (folder : String) :
    Into host folder (sibling (join folder (ofSegments (before ++ [last]))) other)
      ((before ++ [other]).map Name.ofText) := by
  have hlast : Into host folder _ _ := h.into (by simp) folder
  have hone : Descending [other] :=
    ⟨⟨fun piece hp => ho.notIdle piece (List.mem_append_right _ hp),
      fun piece hp => ho.noSlash piece (List.mem_append_right _ hp)⟩,
      fun hp => ho.noAbove (List.mem_append_right _ hp)⟩
  obtain ⟨parent, hp⟩ := exists_parent? hlast.named_ne_nil
  have hup : (Route.ofPath host parent).start = _ ∧ (Route.ofPath host parent).names = _ :=
    Route.ofPath_parent hp
  have hroute : Route.ofPath host (ofSegments [other]) = _ := hone.toProper.ofPath
  have hne := hone.ne_empty (by simp)
  have hs := hone.toProper.startsWith
  rw [ofSegments_singleton] at hroute hne hs
  refine ⟨by simp, ho.above_notMem, ?_⟩
  rw [sibling, hp, Option.getD_some, Route.ofPath_join hne hs, hup.1, hup.2, hlast.route, hroute,
    List.map_append, List.map_append, ← List.append_assoc]
  simp

end Path

namespace Store

variable {store later : Store host} {here location : Location} {rest : List Name} {folder path : String}

/-! ## Following names down -/

theorem present_of_walk (ha : above ∉ rest) (h : store.walk here rest = .ok location) :
    (∀ name ∈ rest, name.length ≤ maxName) ∧
      (rest = [] ∨ (store.get? (here ++ rest)).isSome = true) := by
  induction rest generalizing here with
  | nil => exact ⟨List.forall_mem_nil _, .inl rfl⟩
  | cons name more ih =>
    obtain ⟨hname, hmore⟩ := not_or.mp (mt List.mem_cons.mpr ha)
    rw [walk] at h
    split at h
    · cases h
    rw [if_neg (Ne.symm hname)] at h
    split at h
    · cases h
    rename_i hlong
    split at h
    · rename_i hthere
      obtain ⟨hshort, hlast⟩ := ih hmore h
      refine ⟨List.forall_mem_cons.mpr ⟨Nat.le_of_not_lt hlong, hshort⟩, .inr ?_⟩
      rw [List.append_cons]
      rcases hlast with rfl | hlast
      · rw [List.append_nil]
        exact hthere
      · exact hlast
    · cases h

/-- Names that only go down can be followed just if they are short and what they lead to is there. -/
theorem walk_down_iff (ha : above ∉ rest) (hne : rest ≠ []) :
    store.walk here rest = .ok location ↔ location = here ++ rest ∧
      (∀ name ∈ rest, name.length ≤ maxName) ∧ (store.get? (here ++ rest)).isSome = true := by
  constructor
  · intro h
    obtain ⟨hshort, hthere⟩ := present_of_walk ha h
    exact ⟨(follow_of_walk h).trans (Route.follow_of_notMem ha here), hshort,
      hthere.resolve_left hne⟩
  · rintro ⟨rfl, hshort, hthere⟩
    exact walk_of_present ⟨ha, hshort⟩ (.inr hthere)

section

variable (hi : Path.Into host folder path rest)
  (hw : store.walk (Route.ofPath host folder).start (Route.ofPath host folder).names
    = .ok (Route.location host folder))

include hi hw

theorem locate_into_iff : store.locate path = .ok location ↔
    location = Route.location host path ∧ Route.check host path = .ok () ∧
      (∀ name ∈ rest, name.length ≤ maxName) ∧
      (store.get? (Route.location host path)).isSome = true := by
  have hwalk : ∀ found, store.walk (Route.ofPath host path).start (Route.ofPath host path).names
      = .ok found ↔
      found = Route.location host path ∧ (∀ name ∈ rest, name.length ≤ maxName) ∧
        (store.get? (Route.location host path)).isSome = true := by
    intro found
    rw [hi.location, ← walk_down_iff hi.noAbove hi.ne_nil, hi.route]
    dsimp only
    rw [walk_append, hw, ok_bind]
  have hfile : (Route.ofPath host path).toFolder = false := by rw [hi.route]
  constructor
  · intro h
    obtain ⟨_, hc, h⟩ := bind_eq_ok.mp h
    obtain ⟨found, hf, h⟩ := bind_eq_ok.mp h
    obtain ⟨rfl, hshort, hthere⟩ := (hwalk found).mp hf
    rw [if_neg (by simp [hfile])] at h
    cases h
    exact ⟨rfl, hc, hshort, hthere⟩
  · rintro ⟨rfl, hc, hshort, hthere⟩
    rw [locate, hc, ok_bind]
    dsimp only
    rw [(hwalk _).mpr ⟨rfl, hshort, hthere⟩, ok_bind, if_neg (by simp [hfile])]
    rfl

theorem hasFile_into_iff : store.hasFile path = true ↔
    store.locate path = .ok (Route.location host path) ∧
      ∃ content, store.get? (Route.location host path) = some (.file content) := by
  have hne : Route.location host path ≠ [] := by
    rw [hi.location]
    exact List.append_ne_nil_of_right_ne_nil _ hi.ne_nil
  rw [hasFile]
  cases hl : store.locate path with
  | error fault => simp
  | ok found =>
    obtain ⟨rfl, -, -, hthere⟩ := (locate_into_iff hi hw).mp hl
    obtain ⟨entry, he⟩ := Option.isSome_iff_exists.mp hthere
    cases entry <;> simp [IsFolder, he, hne]

end

theorem walk_of_locate (h : store.locate path = .ok location) :
    store.walk (Route.ofPath host path).start (Route.ofPath host path).names = .ok location := by
  obtain ⟨_, -, h⟩ := bind_eq_ok.mp h
  obtain ⟨found, hw, h⟩ := bind_eq_ok.mp h
  split at h
  · cases h
  · cases h
    exact hw

theorem hasFile_of_readText {text : String} (h : store.readText path = .ok text) :
    store.hasFile path = true := by
  obtain ⟨found, content, hl, hf, -⟩ := readText_eq_ok.mp h
  have hne : ¬ store.IsFolder found := by
    rintro (rfl | he)
    · exact absurd rfl (isFolder_dropLast hf).1
    · rw [hf] at he
      cases he
  rw [hasFile, hl]
  simpa using hne

/-! ## Spared folders -/

/-- A location is left as it was, or a folder has been made there. -/
def Keeps (store later : Store host) (location : Location) : Prop :=
  later.get? location = store.get? location ∨
    store.get? location = none ∧ later.get? location = some .folder

theorem Keeps.file_iff {content : ByteArray} (h : Keeps store later location) :
    later.get? location = some (.file content) ↔ store.get? location = some (.file content) := by
  rcases h with he | ⟨hn, hd⟩
  · rw [he]
  · rw [hn, hd]
    simp

/-- A file at a location that is kept is found and read as before. -/
theorem Keeps.reads (h : Keeps store later (Route.location host path)) (hg : Grows store later)
    (hi : Path.Into host folder path rest)
    (hw : store.walk (Route.ofPath host folder).start (Route.ofPath host folder).names
      = .ok (Route.location host folder)) :
    later.hasFile path = store.hasFile path ∧
      (store.hasFile path = true → later.readText path = store.readText path) := by
  have hlocate : ∀ content, store.get? (Route.location host path) = some (.file content) →
      (later.locate path = .ok (Route.location host path) ↔
        store.locate path = .ok (Route.location host path)) := by
    intro content hf
    rw [locate_into_iff hi hw, locate_into_iff hi (hg.walk hw), hf, h.file_iff.mpr hf]
  have hsame : later.hasFile path = true ↔ store.hasFile path = true := by
    rw [hasFile_into_iff hi hw, hasFile_into_iff hi (hg.walk hw)]
    constructor
    · rintro ⟨hl, content, hf⟩
      have hf := h.file_iff.mp hf
      exact ⟨(hlocate content hf).mp hl, content, hf⟩
    · rintro ⟨hl, content, hf⟩
      exact ⟨(hlocate content hf).mpr hl, content, h.file_iff.mpr hf⟩
  refine ⟨Bool.eq_iff_iff.mpr hsame, fun hthere => ?_⟩
  obtain ⟨hl, content, hf⟩ := (hasFile_into_iff hi hw).mp hthere
  rw [readText, readText, read, read, hl, (hlocate content hf).mpr hl, ok_bind, ok_bind, hf,
    h.file_iff.mpr hf]

/-- Each location inside a folder is left as it was, or a folder has been made there. -/
def Spares (folder : Location) (store later : Store host) : Prop :=
  ∀ location, folder.Inside location →
    later.get? location = store.get? location ∨
      store.get? location = none ∧ later.get? location = some .folder

theorem Spares.keeps {inside : Location} (h : Spares location store later)
    (hl : location.Inside inside) : Keeps store later inside :=
  h inside hl

theorem Spares.file_iff {inside : Location} {content : ByteArray} (h : Spares location store later)
    (hl : location.Inside inside) :
    later.get? inside = some (.file content) ↔ store.get? inside = some (.file content) :=
  (h.keeps hl).file_iff

/-! ## Files added -/

/-- There is one more file, perhaps in folders that have been made for it. -/
structure Adds (store later : Store host) (location : Location) : Prop where
  isFree : store.get? location = none
  isFile : ∃ content, later.get? location = some (.file content)
  elsewhere : ∀ other, other ≠ location → Keeps store later other

theorem Adds.grows (h : Adds store later location) : Grows store later := by
  have hkeep : ∀ {other entry}, store.get? other = some entry → later.get? other = some entry := by
    intro other entry he
    have hne : other ≠ location := by
      rintro rfl
      rw [h.isFree] at he
      cases he
    rcases h.elsewhere other hne with hsame | ⟨hn, -⟩
    · rw [hsame, he]
    · rw [hn] at he
      cases he
  refine ⟨hkeep, fun {other} hp => ?_⟩
  obtain ⟨entry, he⟩ := Option.isSome_iff_exists.mp hp
  rw [hkeep he]
  rfl

theorem Adds.spares {inside : Location} (h : Adds store later location)
    (hn : ¬ inside.Inside location) : Spares inside store later :=
  fun other ho => h.elsewhere other fun he => hn (he ▸ ho)

end Store

end Folio.Files
