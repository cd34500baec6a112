import Folio.Host
import Folio.Index
/-!
# File stores

Files and folders by location, from a root down. Everything but the root lies in a folder of the
store, and the host's working folder and its folder for temporary files are always there; no
operation changes that.
-/

namespace Folio.Files

/-- Locations are ordered depth first, with the names of a folder in byte order. -/
instance : KeyOrder Location where
  irrefl := List.lt_irrefl
  trans := List.lt_trans
  eq_of_not_lt hab hba := List.le_antisymm (List.not_lt.mp hba) (List.not_lt.mp hab)

inductive Entry where
  | folder
  | file (content : ByteArray)

instance : DecidableEq Entry
  | .folder, .folder => .isTrue rfl
  | .folder, .file _ => .isFalse nofun
  | .file _, .folder => .isFalse nofun
  | .file a, .file b =>
    decidable_of_iff (a.data = b.data)
      ⟨fun h => congrArg Entry.file (ByteArray.ext h),
        fun h => congrArg ByteArray.data (Entry.file.inj h)⟩

/-- A tree of files and folders on a host. -/
structure Store (host : Host) where
  index : Index Location Entry
  /-- Each entry lies at the root or in a folder. -/
  rooted : ∀ item ∈ index.entries, item.1 ≠ [] ∧
    (item.1.dropLast = [] ∨ (item.1.dropLast, Entry.folder) ∈ index.entries)
  /-- The folders that the host needs are there. -/
  standing : ∀ location ∈ [host.here, host.scratch],
    location = [] ∨ (location, Entry.folder) ∈ index.entries

namespace Store

variable {host : Host}

/-- The store of a process with nothing in it but the folders that are always there. -/
def empty : Store .process where
  index := .ofList ([["proc"], ["proc", "self"], ["proc", "self", "cwd"], ["tmp"]].map
    fun names => (names.map Name.ofText, .folder))
  rooted := by decide
  standing := by decide

instance : Inhabited (Store .process) := ⟨empty⟩

@[ext] theorem ext {s t : Store host} (h : s.index = t.index) : s = t := by
  cases s
  cases t
  simp_all

def entries (store : Store host) : List (Location × Entry) :=
  store.index.entries

def get? (store : Store host) (location : Location) : Option Entry :=
  store.index.get? location

theorem get?_eq_some_iff {store : Store host} {location : Location} {entry : Entry} :
    store.get? location = some entry ↔ (location, entry) ∈ store.entries :=
  Index.get?_eq_some_iff

def IsFolder (store : Store host) (location : Location) : Prop :=
  location = [] ∨ store.get? location = some .folder

instance (store : Store host) (location : Location) : Decidable (store.IsFolder location) :=
  inferInstanceAs (Decidable (_ ∨ _))

theorem isFolder_here (store : Store host) : store.IsFolder host.here :=
  (store.standing _ (by simp)).imp_right get?_eq_some_iff.mpr

theorem isFolder_scratch (store : Store host) : store.IsFolder host.scratch :=
  (store.standing _ (by simp)).imp_right get?_eq_some_iff.mpr

theorem isFolder_dropLast {store : Store host} {location : Location} {entry : Entry}
    (h : store.get? location = some entry) : location ≠ [] ∧ store.IsFolder location.dropLast := by
  have ⟨hne, hp⟩ := store.rooted _ (get?_eq_some_iff.mp h)
  exact ⟨hne, hp.imp_right get?_eq_some_iff.mpr⟩

/-- Binds a location inside a folder. What was a folder stays one. -/
def put (store : Store host) (location : Location) (entry : Entry) (hne : location ≠ [])
    (hp : store.IsFolder location.dropLast)
    (hk : store.get? location = some .folder → entry = .folder) : Store host :=
  have keep : ∀ l, (l, Entry.folder) ∈ store.index.entries →
      (l, Entry.folder) ∈ (store.index.insert location entry).entries := by
    intro l hl
    refine Index.mem_insert.mpr ?_
    by_cases heq : l = location
    · subst heq
      exact .inl (by rw [hk (get?_eq_some_iff.mpr hl)])
    · exact .inr ⟨heq, hl⟩
  { index := store.index.insert location entry
    rooted := by
      intro item hm
      rcases Index.mem_insert.mp hm with rfl | ⟨-, hm⟩
      · exact ⟨hne, hp.imp_right fun h => keep _ (get?_eq_some_iff.mp h)⟩
      · have ⟨hne', hp'⟩ := store.rooted item hm
        exact ⟨hne', hp'.imp_right (keep _)⟩
    standing := fun l hl => (store.standing l hl).imp_right (keep l) }

theorem get?_put (store : Store host) (location : Location) (entry : Entry) (hne hp hk) (l : Location) :
    (store.put location entry hne hp hk).get? l =
      if l = location then some entry else store.get? l :=
  Index.get?_insert store.index location entry l

/-- The store without a location and everything below it. The folders that are always there stay,
and so do those around them. -/
def remove (store : Store host) (location : Location) : Store host where
  index := store.index.filter fun item =>
    (item.1 <+: host.here ∨ item.1 <+: host.scratch) ∨ ¬ location <+: item.1
  rooted := by
    intro item hm
    obtain ⟨hm, hn⟩ := List.mem_filter.mp hm
    have ⟨hne, hp⟩ := store.rooted item hm
    refine ⟨hne, hp.imp_right fun hp => List.mem_filter.mpr ⟨hp, ?_⟩⟩
    simp only [decide_eq_true_eq] at hn ⊢
    have hd := List.dropLast_prefix item.1
    exact hn.imp (Or.imp hd.trans hd.trans) fun h hl => h (hl.trans hd)
  standing := by
    intro l hl
    refine (store.standing l hl).imp_right fun h => List.mem_filter.mpr ⟨h, ?_⟩
    simp only [List.mem_cons, List.not_mem_nil, or_false] at hl
    rcases hl with rfl | rfl <;> simp

/-- The entries below a location, by what follows it. -/
def below (store : Store host) (location : Location) : List (Location × Entry) :=
  store.entries.filterMap fun item =>
    if location <+: item.1 ∧ location ≠ item.1 then
      some (item.1.drop location.length, item.2)
    else none

end Store

end Folio.Files
