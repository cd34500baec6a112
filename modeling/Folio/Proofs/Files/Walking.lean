import Folio.Files.Access
import Folio.Proofs.Outcome
/-!
# Following paths

A path that can be followed leads where its names alone say. Making folders and writing files take
nothing away, so a path that could be followed before can be followed after, and a file that was
written is read back through the same path until something is written over it.
-/

namespace Folio.Files

variable {host : Host}

namespace Route

/-- Where names lead from a location, whatever is there. -/
def follow (here : Location) : List Name → Location
  | [] => here
  | name :: rest => follow (if name = above then here.dropLast else here ++ [name]) rest

theorem follow_append (here : Location) (names more : List Name) :
    follow here (names ++ more) = follow (follow here names) more := by
  induction names generalizing here with
  | nil => rfl
  | cons name rest ih => exact ih _

theorem follow_of_notMem {names : List Name} (h : above ∉ names) (here : Location) :
    follow here names = here ++ names := by
  induction names generalizing here with
  | nil => simp [follow]
  | cons name rest ih =>
    obtain ⟨hn, hr⟩ := not_or.mp (mt List.mem_cons.mpr h)
    rw [follow, if_neg (Ne.symm hn), ih hr]
    simp

def location (host : Host) (path : String) : Location :=
  follow (ofPath host path).start (ofPath host path).names

end Route

namespace Store

def ofTexts (files : List (String × String)) : Store .process :=
  files.foldl (fun store file =>
    let made := (store.makeFolders ((Path.parent? file.1).getD "")).2
    (made.write file.1 file.2.toUTF8).toOption.getD made) .empty

/-! ## Following names -/

theorem walk_append (store : Store host) (here : Location) (names more : List Name) :
    store.walk here (names ++ more) = store.walk here names >>= (store.walk · more) := by
  induction names generalizing here with
  | nil => rfl
  | cons name rest ih =>
    simp only [List.cons_append, walk]
    split
    · rfl
    split
    · exact ih _
    split
    · rfl
    split
    · exact ih _
    · rfl

theorem follow_of_walk {store : Store host} {here location : Location} {names : List Name}
    (h : store.walk here names = .ok location) : location = Route.follow here names := by
  induction names generalizing here with
  | nil => exact (Except.ok.inj h).symm
  | cons name rest ih =>
    rw [walk] at h
    rw [Route.follow]
    split at h
    · cases h
    split at h
    · rename_i ha
      rw [if_pos ha]
      exact ih h
    split at h
    · cases h
    split at h
    · rename_i ha _ _
      rw [if_neg ha]
      exact ih h
    · cases h

/-- Folders stay folders, and what is there stays there. -/
structure Grows (store store' : Store host) : Prop where
  folder : ∀ {location}, store.get? location = some .folder → store'.get? location = some .folder
  present : ∀ {location}, (store.get? location).isSome → (store'.get? location).isSome

theorem Grows.refl (store : Store host) : Grows store store := ⟨id, id⟩

theorem Grows.trans {store middle store' : Store host} (h : Grows store middle)
    (h' : Grows middle store') :
    Grows store store' :=
  ⟨fun hf => h'.folder (h.folder hf), fun hp => h'.present (h.present hp)⟩

theorem Grows.isFolder {store store' : Store host} (h : Grows store store') {location : Location}
    (hf : store.IsFolder location) : store'.IsFolder location :=
  hf.imp_right h.folder

theorem Grows.walk {store store' : Store host} (h : Grows store store') {here location : Location}
    {names : List Name} (hw : store.walk here names = .ok location) :
    store'.walk here names = .ok location := by
  induction names generalizing here with
  | nil => exact hw
  | cons name rest ih =>
    rw [Store.walk] at hw ⊢
    split at hw
    · cases hw
    rename_i hf
    rw [if_neg (not_not_intro (h.isFolder (Decidable.not_not.mp hf)))]
    split at hw
    · rename_i ha
      rw [if_pos ha]
      exact ih hw
    split at hw
    · cases hw
    split at hw
    · rename_i ha hl hp
      rw [if_neg ha, if_neg hl, if_pos (h.present hp)]
      exact ih hw
    · cases hw

theorem grows_put (store : Store host) (location : Location) (entry : Entry) (hne hp hk) :
    Grows store (store.put location entry hne hp hk) := by
  constructor
  · intro l hl
    rw [get?_put]
    split
    · rename_i he
      subst he
      rw [hk hl]
    · exact hl
  · intro l hl
    rw [get?_put]
    split
    · rfl
    · exact hl

/-! ## Spots -/

def Spot.location {store : Store host} : Spot store → Location
  | .taken location => location
  | .free folder name _ _ => folder ++ [name]

/-- What a spot says about the names that lead to it. -/
theorem spot_eq_ok {store : Store host} {start : Location} {names : List Name} {found : Spot store}
    (h : store.spot start names = .ok found) :
    (names = [] ∧ found = .taken start) ∨
      ∃ before last folder, names = before ++ [last] ∧ store.walk start before = .ok folder ∧
        store.IsFolder folder ∧
        ((last = above ∧ found = .taken folder.dropLast) ∨
          last ≠ above ∧ last.length ≤ maxName ∧ found.location = folder ++ [last]) := by
  rcases List.eq_nil_or_concat names with rfl | ⟨before, last, rfl⟩
  · exact .inl ⟨rfl, (Except.ok.inj h).symm⟩
  · right
    rw [List.concat_eq_append] at h ⊢
    rw [Store.spot, List.getLast?_concat, List.dropLast_concat] at h
    obtain ⟨folder, hw, h⟩ := bind_eq_ok.mp h
    split at h
    · rename_i hf
      refine ⟨before, last, folder, rfl, hw, hf, ?_⟩
      split at h
      · rename_i ha
        exact .inl ⟨ha, (Except.ok.inj h).symm⟩
      · rename_i ha
        right
        split at h
        · cases h
        · rename_i hl
          split at h <;> cases h <;> exact ⟨ha, Nat.le_of_not_lt hl, rfl⟩
    · cases h

theorem location_of_spot {store : Store host} {start : Location} {names : List Name}
    {found : Spot store}
    (h : store.spot start names = .ok found) : found.location = Route.follow start names := by
  rcases spot_eq_ok h with ⟨rfl, rfl⟩ | ⟨before, last, folder, rfl, hw, -, hs⟩
  · rfl
  · rw [Route.follow_append, ← follow_of_walk hw]
    rcases hs with ⟨rfl, rfl⟩ | ⟨ha, -, hl⟩
    · simp [Route.follow, Spot.location]
    · rw [hl, Route.follow, if_neg ha, Route.follow]

theorem walk_of_spot {store store' : Store host} {start : Location} {names : List Name}
    {found : Spot store} (h : store.spot start names = .ok found) (hg : Grows store store')
    (hp : (store'.get? found.location).isSome) :
    store'.walk start names = .ok (Route.follow start names) := by
  have hloc := location_of_spot h
  rcases spot_eq_ok h with ⟨rfl, rfl⟩ | ⟨before, last, folder, rfl, hw, hf, hs⟩
  · rfl
  · rw [walk_append, hg.walk hw]
    have hfol := hg.isFolder hf
    show store'.walk folder [last] = _
    rw [Store.walk, if_neg (not_not_intro hfol), ← hloc]
    rcases hs with ⟨rfl, rfl⟩ | ⟨ha, hl, hs⟩
    · rw [if_pos rfl]
      rfl
    · rw [hs] at hp ⊢
      rw [if_neg ha, if_neg (Nat.not_lt.mpr hl), if_pos hp]
      rfl

/-! ## Writing -/

/-- What writing a file does to a store. -/
structure Written (location : Location) (content : ByteArray) (store store' : Store host) : Prop where
  here : store'.get? location = some (.file content)
  elsewhere : ∀ l, l ≠ location → store'.get? l = store.get? l
  grows : Grows store store'

theorem writeAt_eq_ok {store store' : Store host} {start : Location} {names : List Name}
    {content : ByteArray} (h : store.writeAt start names content = .ok store') :
    Written (Route.follow start names) content store store' ∧
      store'.walk start names = .ok (Route.follow start names) := by
  obtain ⟨found, hs, h⟩ := bind_eq_ok.mp h
  have hloc := location_of_spot hs
  have hput : ∀ hne hp hk,
      store' = store.put (Route.follow start names) (.file content) hne hp hk →
      Written (Route.follow start names) content store store' ∧
        store'.walk start names = .ok (Route.follow start names) := by
    rintro hne hp hk rfl
    have hg := grows_put store (Route.follow start names) (.file content) hne hp hk
    refine ⟨⟨?_, ?_, hg⟩, walk_of_spot hs hg ?_⟩
    · rw [get?_put, if_pos rfl]
    · intro l hl
      rw [get?_put, if_neg hl]
    · rw [hloc, get?_put, if_pos rfl]
      rfl
  cases found with
  | free folder name hf hn =>
    rw [Spot.location] at hloc
    have he := (Except.ok.inj h).symm
    rw [add] at he
    simp only [hloc] at he
    exact hput _ _ _ he
  | taken location =>
    rw [Spot.location] at hloc
    subst hloc
    simp only at h
    split at h
    · exact hput _ _ _ (Except.ok.inj h).symm
    · cases h

theorem write_eq_ok {store store' : Store host} {path : String} {content : ByteArray}
    (h : store.write path content = .ok store') :
    Route.check host path = .ok () ∧ (Route.ofPath host path).toFolder = false ∧
      Written (Route.location host path) content store store' ∧
      store'.walk (Route.ofPath host path).start (Route.ofPath host path).names =
          .ok (Route.location host path) := by
  obtain ⟨_, hc, h⟩ := bind_eq_ok.mp h
  simp only at h
  split at h
  · obtain ⟨_, -, h⟩ := bind_eq_ok.mp h
    cases h
  · rename_i ht
    exact ⟨hc, Bool.eq_false_iff.mpr ht, writeAt_eq_ok h⟩

/-! ## Making folders -/

/-- Nothing is done to a store but that folders are made, all of them at certain locations. -/
def Makes (among : Location → Prop) (store store' : Store host) : Prop :=
  ∀ l, store'.get? l = store.get? l ∨
    store.get? l = none ∧ store'.get? l = some .folder ∧ among l

variable {among : Location → Prop} {store middle store' : Store host}

theorem Makes.refl (among : Location → Prop) (store : Store host) : Makes among store store :=
  fun _ => .inl rfl

theorem Makes.trans (h : Makes among store middle) (h' : Makes among middle store') :
    Makes among store store' := by
  intro l
  rcases h l with he | ⟨hn, hf, ha⟩
  · rw [← he]
    exact h' l
  · rcases h' l with he' | ⟨hn', -, -⟩
    · exact .inr ⟨hn, he'.trans hf, ha⟩
    · rw [hf] at hn'
      cases hn'

theorem Makes.mono {among' : Location → Prop} (h : Makes among store store')
    (hs : ∀ l, among l → among' l) : Makes among' store store' :=
  fun l => (h l).imp_right fun ⟨hn, hf, ha⟩ => ⟨hn, hf, hs l ha⟩

theorem Makes.keeps (h : Makes among store store') {location : Location} {entry : Entry}
    (he : store.get? location = some entry) : store'.get? location = some entry := by
  rcases h location with hs | ⟨hn, -, -⟩
  · rw [hs, he]
  · rw [he] at hn
    cases hn

theorem Makes.grows (h : Makes among store store') : Grows store store' := by
  refine ⟨h.keeps, fun {location} hp => ?_⟩
  obtain ⟨entry, he⟩ := Option.isSome_iff_exists.mp hp
  rw [h.keeps he]
  rfl

/-- The folders on the way that names lead. -/
def OnTheWay (start : Location) (names : List Name) (l : Location) : Prop :=
  ∃ before, before <+: names ∧ l = Route.follow start before

theorem makeFolder_eq_ok {start : Location} {names : List Name}
    (h : store.makeFolder start names = .ok store') :
    Makes (OnTheWay start names) store store' ∧
      store'.get? (Route.follow start names) = some .folder := by
  obtain ⟨found, hs, h⟩ := bind_eq_ok.mp h
  have hloc := location_of_spot hs
  cases found with
  | taken location => cases h
  | free folder name hf hn =>
    rw [Spot.location] at hloc
    cases h
    constructor
    · intro l
      rw [add, get?_put]
      split
      · rename_i hl
        subst hl
        exact .inr ⟨hn, rfl, names, List.prefix_rfl, hloc⟩
      · exact .inl rfl
    · rw [add, get?_put, if_pos hloc.symm]

theorem makes_makeFoldersAt (start : Location) (names : List Name) (store : Store host) :
    Makes (OnTheWay start names.reverse) store (store.makeFoldersAt start names).2 := by
  induction names with
  | nil => exact .refl _ store
  | cons last before ih =>
    have hb : ∀ l, OnTheWay start before.reverse l → OnTheWay start (last :: before).reverse l := by
      rintro l ⟨names, hp, rfl⟩
      exact ⟨names, hp.trans (by simp), rfl⟩
    have ih := ih.mono hb
    rw [makeFoldersAt]
    split
    · rename_i made hm
      exact (makeFolder_eq_ok hm).1
    · split
      · rename_i made hm
        rw [hm] at ih
        exact ih
      · rename_i made hm
        rw [hm] at ih
        split
        · rename_i made' hm'
          exact ih.trans (makeFolder_eq_ok hm').1
        · split <;> exact ih
    · split <;> exact .refl _ store

theorem makes_makeFolders (store : Store host) (path : String) :
    Makes (OnTheWay (Route.ofPath host path).start (Route.ofPath host path).names) store
      (store.makeFolders path).2 := by
  rw [makeFolders]
  split
  · exact .refl _ store
  split
  · exact .refl _ store
  · have h := makes_makeFoldersAt (Route.ofPath host path).start
      (Route.ofPath host path).names.reverse store
    rw [List.reverse_reverse] at h
    exact h

/-! ## Reading -/

theorem location_of_locate {path : String} {location : Location}
    (h : store.locate path = .ok location) : location = Route.location host path := by
  obtain ⟨_, -, h⟩ := bind_eq_ok.mp h
  obtain ⟨found, hw, h⟩ := bind_eq_ok.mp h
  have hl := follow_of_walk hw
  split at h
  · cases h
  · cases h
    exact hl

theorem hasFolder_iff {store : Store host} {path : String} : store.hasFolder path = true ↔
    store.locate path = .ok (Route.location host path) ∧ store.IsFolder (Route.location host path) := by
  rw [hasFolder]
  cases hl : store.locate path with
  | error fault => simp
  | ok location =>
    obtain rfl := location_of_locate hl
    simp

theorem read_of_walk {path : String} {content : ByteArray} (hc : Route.check host path = .ok ())
    (ht : (Route.ofPath host path).toFolder = false)
    (hw : store.walk (Route.ofPath host path).start (Route.ofPath host path).names =
        .ok (Route.location host path))
    (hg : store.get? (Route.location host path) = some (.file content)) :
    store.read path = .ok content := by
  have hl : store.locate path = .ok (Route.location host path) := by
    simp [locate, hc, hw, ht, bind, Except.bind, pure, Except.pure]
  simp [read, hl, hg, bind, Except.bind, pure, Except.pure]

theorem readText_eq_ok {path text : String} :
    store.readText path = .ok text ↔ ∃ location content, store.locate path = .ok location ∧
      store.get? location = some (.file content) ∧ String.fromUTF8? content = some text := by
  simp only [readText, read]
  cases hl : store.locate path with
  | error fault => simp [bind, Except.bind]
  | ok location =>
    cases hg : store.get? location with
    | none => simp [hg, bind, Except.bind]
    | some entry =>
      cases entry with
      | folder => simp [hg, bind, Except.bind]
      | file content =>
        cases hu : String.fromUTF8? content with
        | none => simp [hg, hu, bind, Except.bind, pure, Except.pure]
        | some found => simp [hg, hu, bind, Except.bind, pure, Except.pure]

theorem fromUTF8?_toUTF8 (text : String) : String.fromUTF8? text.toUTF8 = some text := by
  simp [String.fromUTF8?, String.fromUTF8, String.toUTF8, text.isValidUTF8]

theorem readText_of_walk {path text : String} (hc : Route.check host path = .ok ())
    (ht : (Route.ofPath host path).toFolder = false)
    (hw : store.walk (Route.ofPath host path).start (Route.ofPath host path).names =
        .ok (Route.location host path))
    (hg : store.get? (Route.location host path) = some (.file text.toUTF8)) :
    store.readText path = .ok text := by
  rw [readText, read_of_walk hc ht hw hg]
  simp only [bind, Except.bind, fromUTF8?_toUTF8]
  rfl

end Store

end Folio.Files
