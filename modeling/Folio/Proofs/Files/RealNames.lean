import Folio.Proofs.Files.Joining
/-!
# Real names

A file or folder is never called by nothing, a dot or two dots, and there is no slash in its name.
Making folders and writing files brings in no other names.
-/

namespace Folio.Files

variable {host : Host}

/-- A name that something in a folder can have. One that is no text has no say here. -/
def Name.Real (name : Name) : Prop :=
  ∀ text, name.text? = some text → text ≠ "" ∧ text ≠ "." ∧ text ≠ ".." ∧ '/' ∉ text.toList

theorem Name.real_ofText {text : String} (hi : Path.isIdle text = false) (ha : ofText text ≠ above)
    (hs : '/' ∉ text.toList) : (ofText text).Real := by
  intro found hf
  rw [text?_ofText] at hf
  cases hf
  obtain ⟨hempty, hdot⟩ := Path.isIdle_eq_false_iff.mp hi
  refine ⟨hempty, hdot, ?_, hs⟩
  rintro rfl
  exact ha rfl

theorem Path.descending_of_real {pieces : List String}
    (h : ∀ name ∈ pieces.map Name.ofText, name.Real) : Descending pieces := by
  have hpiece : ∀ piece ∈ pieces, piece ≠ "" ∧ piece ≠ "." ∧ piece ≠ ".." ∧ '/' ∉ piece.toList :=
    fun piece hp => h _ (List.mem_map_of_mem hp) piece (Name.text?_ofText piece)
  refine ⟨⟨fun piece hp => ?_, fun piece hp => (hpiece piece hp).2.2.2⟩, fun hm => ?_⟩
  · exact isIdle_eq_false_iff.mpr ⟨(hpiece piece hp).1, (hpiece piece hp).2.1⟩
  · exact (hpiece ".." hm).2.2.1 rfl

theorem Route.real_of_mem_names {path : String} {name : Name} (hm : name ∈ (ofPath host path).names)
    (ha : name ≠ above) : name.Real := by
  rw [names_ofPath] at hm
  obtain ⟨text, ht, rfl⟩ := List.mem_map.mp hm
  obtain ⟨hs, hi⟩ := List.mem_filter.mp ht
  exact Name.real_ofText (by simpa using hi) ha (Path.slash_notMem_segments hs)

def RealLocation (location : Location) : Prop :=
  ∀ name ∈ location, name.Real

namespace RealLocation

theorem nil : RealLocation [] :=
  List.forall_mem_nil _

theorem dropLast {location : Location} (h : RealLocation location) :
    RealLocation location.dropLast :=
  fun name hm => h name (List.dropLast_subset location hm)

theorem concat {location : Location} {name : Name} (h : RealLocation location) (hn : name.Real) :
    RealLocation (location ++ [name]) := by
  intro other hm
  rcases List.mem_append.mp hm with hm | hm
  · exact h other hm
  · rw [List.mem_singleton.mp hm]
    exact hn

theorem follow {here : Location} {names : List Name} (h : RealLocation here)
    (hn : ∀ name ∈ names, name ≠ above → name.Real) : RealLocation (Route.follow here names) := by
  induction names generalizing here with
  | nil => exact h
  | cons name rest ih =>
    have hrest := fun other hm => hn other (List.mem_cons_of_mem name hm)
    rw [Route.follow]
    by_cases ha : name = above
    · rw [if_pos ha]
      exact ih h.dropLast hrest
    · rw [if_neg ha]
      exact ih (h.concat (hn name List.mem_cons_self ha)) hrest

/-- Where a path leads, and every folder on the way. -/
theorem of_path {path : String} {names : List Name} (hh : RealLocation host.here)
    (hp : names <+: (Route.ofPath host path).names) :
    RealLocation (Route.follow (Route.ofPath host path).start names) := by
  have hstart : RealLocation (Route.ofPath host path).start := by
    rw [Route.ofPath]
    dsimp only
    split
    · exact nil
    · exact hh
  exact hstart.follow fun name hm ha => Route.real_of_mem_names (hp.subset hm) ha

end RealLocation

namespace Store

/-- Everything in the store has a real name. That is so of every store that is made by writing files
and making folders. -/
def Named (store : Store host) : Prop :=
  ∀ location, (store.get? location).isSome → RealLocation location

theorem named_empty : Named empty := by
  intro location h
  obtain ⟨entry, he⟩ := Option.isSome_iff_exists.mp h
  have hm : location ∈ empty.entries.map Prod.fst :=
    List.mem_map_of_mem (get?_eq_some_iff.mp he)
  have hall : ∀ location ∈ empty.entries.map Prod.fst, ∀ name ∈ location,
      name ∈ ["proc", "self", "cwd", "tmp"].map Name.ofText := by decide
  intro name hn
  obtain ⟨text, ht, rfl⟩ := List.mem_map.mp (hall location hm name hn)
  have htexts : ∀ text ∈ ["proc", "self", "cwd", "tmp"],
      Path.isIdle text = false ∧ text ≠ ".." ∧ '/' ∉ text.toList := by decide
  obtain ⟨hidle, hup, hslash⟩ := htexts text ht
  exact Name.real_ofText hidle (fun he => hup (Name.ofText_injective he)) hslash

variable {store store' : Store host}

theorem Named.here (h : store.Named) : RealLocation host.here := by
  rcases store.isFolder_here with he | he
  · rw [he]
    exact .nil
  · exact h _ (by rw [he]; rfl)

theorem Named.makes {among : Location → Prop} (h : store.Named) (hm : Makes among store store')
    (ha : ∀ location, among location → RealLocation location) : store'.Named := by
  intro location hp
  rcases hm location with he | ⟨-, -, hl⟩
  · rw [he] at hp
    exact h location hp
  · exact ha location hl

theorem Named.makeFolders (h : store.Named) (path : String) : (store.makeFolders path).2.Named := by
  refine h.makes (makes_makeFolders store path) ?_
  rintro location ⟨before, hp, rfl⟩
  exact RealLocation.of_path h.here hp

theorem Named.write {path : String} {content : ByteArray} (h : store.Named)
    (hw : store.write path content = .ok store') : store'.Named := by
  obtain ⟨-, -, hwritten, -⟩ := write_eq_ok hw
  intro location hp
  by_cases hl : location = Route.location host path
  · rw [hl]
    exact RealLocation.of_path h.here List.prefix_rfl
  · rw [hwritten.elsewhere location hl] at hp
    exact h location hp

theorem named_ofTexts (files : List (String × String)) : (ofTexts files).Named := by
  have hall : ∀ (files : List (String × String)) (store : Store .process), store.Named →
      (files.foldl (fun store file =>
        let made := (store.makeFolders ((Path.parent? file.1).getD "")).2
        (made.write file.1 file.2.toUTF8).toOption.getD made) store).Named := by
    intro files
    induction files with
    | nil => exact fun store h => h
    | cons file rest ih =>
      intro store h
      rw [List.foldl_cons]
      apply ih
      have hmade := h.makeFolders ((Path.parent? file.1).getD "")
      dsimp only
      cases hw : (store.makeFolders ((Path.parent? file.1).getD "")).2.write file.1 file.2.toUTF8 with
      | error fault => exact hmade
      | ok written => exact hmade.write hw
  exact hall files empty named_empty

/-- Below a folder all names are real. -/
theorem Named.real_of_mem_below {location rest : Location} {entry : Entry} (h : store.Named)
    (hm : (rest, entry) ∈ store.below location) : rest ≠ [] ∧ ∀ name ∈ rest, name.Real := by
  obtain ⟨item, hi, hs⟩ := List.mem_filterMap.mp hm
  split at hs
  · rename_i hb
    obtain ⟨⟨tail, ht⟩, hne⟩ := hb
    have hrest : tail = rest := by
      have he := (Prod.mk.inj (Option.some.inj hs)).1
      rw [← ht, List.drop_left] at he
      exact he
    subst hrest
    constructor
    · rintro rfl
      exact hne (by simpa using ht)
    · intro name hn
      have hsome : (store.get? item.1).isSome := by
        rw [get?_eq_some_iff.mpr (show (item.1, item.2) ∈ store.entries from hi)]
        rfl
      exact h item.1 hsome name (ht ▸ List.mem_append_right location hn)
  · cases hs

end Store

end Folio.Files
