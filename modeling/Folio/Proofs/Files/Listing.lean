import Folio.Proofs.Files.RealNames
import Folio.Proofs.Files.Sparing
import Mathlib.Data.List.Induction
/-!
# What lies below a folder

A listing goes depth first, with the names of each folder in byte order. The name of a file is a real
one wherever the file lies, and a file beside another is reached through the folder of both.
-/

namespace Folio.Files

variable {host : Host}

/-! ## Order -/

namespace Location

/-- One location comes before another in depth-first order if the names in which they first differ are
in byte order. -/
def Before (location other : Location) : Prop :=
  ∃ common name rest name' rest', location = common ++ name :: rest ∧
    other = common ++ name' :: rest' ∧ name < name'

theorem Before.cons {location other : Location} (h : location.Before other) (name : Name) :
    Before (name :: location) (name :: other) := by
  obtain ⟨common, first, rest, first', rest', rfl, rfl, hlt⟩ := h
  exact ⟨name :: common, first, rest, first', rest', rfl, rfl, hlt⟩

theorem Before.ne {location other : Location} (h : location.Before other) : location ≠ other := by
  obtain ⟨common, name, rest, name', rest', rfl, rfl, hlt⟩ := h
  intro he
  rw [(List.cons.inj (List.append_cancel_left he)).1] at hlt
  exact List.lt_irrefl name' hlt

theorem prefix_or_before_of_lt {location other : Location} (h : location < other) :
    location <+: other ∨ location.Before other := by
  induction location generalizing other with
  | nil => exact .inl List.nil_prefix
  | cons name rest ih =>
    cases other with
    | nil => cases h
    | cons name' rest' =>
      rcases List.cons_lt_cons_iff.mp h with hlt | ⟨rfl, hlt⟩
      · exact .inr ⟨[], name, rest, name', rest', rfl, rfl, hlt⟩
      · rcases ih hlt with hp | hb
        · exact .inl (List.cons_prefix_cons.mpr ⟨rfl, hp⟩)
        · exact .inr (hb.cons name)

theorem lt_of_append_lt {folder location other : Location}
    (h : folder ++ location < folder ++ other) : location < other := by
  induction folder with
  | nil => exact h
  | cons name rest ih =>
    rcases List.cons_lt_cons_iff.mp h with hlt | ⟨-, hlt⟩
    · exact absurd hlt (List.lt_irrefl name)
    · exact ih hlt

theorem Before.lt_of_concat {folder : Location} {name name' : Name}
    (h : Before (folder ++ [name]) (folder ++ [name'])) : name < name' := by
  induction folder with
  | nil =>
    obtain ⟨common, first, rest, first', rest', he, he', hlt⟩ := h
    cases common with
    | nil =>
      rwa [← (List.cons.inj he).1, ← (List.cons.inj he').1] at hlt
    | cons other more => simp at he
  | cons other folder ih =>
    obtain ⟨common, first, rest, first', rest', he, he', hlt⟩ := h
    cases common with
    | nil =>
      rw [← (List.cons.inj he).1, ← (List.cons.inj he').1] at hlt
      exact absurd hlt (List.lt_irrefl other)
    | cons _ more =>
      exact ih ⟨more, first, rest, first', rest', (List.cons.inj he).2, (List.cons.inj he').2, hlt⟩

end Location

namespace Store

theorem sorted_below (store : Store host) (location : Location) :
    (store.below location).Pairwise fun item other => item.1 < other.1 := by
  refine List.Pairwise.filterMap _ ?_ store.index.sorted
  intro item other hlt shown hs shown' hs'
  split at hs
  · split at hs'
    · rename_i hp hp'
      obtain ⟨⟨rest, hr⟩, -⟩ := hp
      obtain ⟨⟨rest', hr'⟩, -⟩ := hp'
      cases hs
      cases hs'
      rw [← hr, ← hr'] at hlt
      rw [← hr, ← hr', List.drop_left, List.drop_left]
      exact Location.lt_of_append_lt hlt
    · cases hs'
  · cases hs

variable {store : Store host} {location rest : Location} {entry : Entry}

theorem mem_below_iff : (rest, entry) ∈ store.below location ↔
    rest ≠ [] ∧ store.get? (location ++ rest) = some entry := by
  rw [get?_eq_some_iff, below, List.mem_filterMap]
  constructor
  · rintro ⟨item, hi, hs⟩
    split at hs
    · rename_i hb
      obtain ⟨⟨tail, ht⟩, hne⟩ := hb
      cases hs
      rw [← ht, List.drop_left, ht]
      refine ⟨?_, hi⟩
      rintro rfl
      exact hne (by simpa using ht)
    · cases hs
  · rintro ⟨hne, hm⟩
    refine ⟨_, hm, ?_⟩
    rw [if_pos ⟨List.prefix_append _ _, by simpa using hne⟩, List.drop_left]

theorem isFolder_of_below (hne : rest ≠ []) (h : store.get? (location ++ rest) = some entry) :
    store.IsFolder location := by
  induction rest using List.reverseRecOn generalizing entry with
  | nil => exact absurd rfl hne
  | append_singleton before last ih =>
    rw [← List.append_assoc] at h
    have hf := (isFolder_dropLast h).2
    rw [List.dropLast_concat] at hf
    by_cases hb : before = []
    · rwa [hb, List.append_nil] at hf
    · have hsome := hf.resolve_left (List.append_ne_nil_of_right_ne_nil location hb)
      exact ih hb hsome

theorem below_eq_nil (h : ¬ store.IsFolder location) : store.below location = [] := by
  refine List.eq_nil_iff_forall_not_mem.mpr fun item hm => ?_
  obtain ⟨hne, hg⟩ := mem_below_iff.mp hm
  exact h (isFolder_of_below hne hg)

theorem Named.real_of_file {name : Name} {content : ByteArray} (h : store.Named)
    (hf : store.get? (location ++ [name]) = some (.file content)) : name.Real :=
  h _ (Option.isSome_of_eq_some hf) name (by simp)

theorem Named.slash_notMem {text : String} (h : store.Named)
    (hp : store.get? location = some entry) (hm : Name.ofText text ∈ location) :
    '/' ∉ text.toList :=
  (h _ (Option.isSome_of_eq_some hp) _ hm text (Name.text?_ofText text)).2.2.2

end Store

/-! ## Paths of files in folders -/

variable {pieces : List String} {last : String}

theorem Path.startsWith_concat (hs : ∀ piece ∈ pieces, '/' ∉ piece.toList) (hl : '/' ∉ last.toList) :
    (ofSegments (pieces ++ [last])).startsWith "/" = true ↔ pieces.head? = some "" := by
  rw [startsWith_ofSegments (List.forall_mem_append.mpr ⟨hs, List.forall_mem_singleton.mpr hl⟩)]
  rcases pieces with _ | ⟨first, _ | ⟨second, more⟩⟩ <;> simp

theorem Path.getLast?_segments_concat (hi : isIdle last = false) (hl : '/' ∉ last.toList) :
    (segments (ofSegments (pieces ++ [last]))).getLast? = some last := by
  have hproper : Proper [last] := ⟨by simpa using hi, by simpa using hl⟩
  have hlast := hproper.segments
  rw [ofSegments_singleton] at hlast
  rcases pieces with _ | ⟨first, rest⟩
  · rw [List.nil_append, ofSegments_singleton, hlast]
    rfl
  · have hsplit : ofSegments (first :: rest ++ [last]) = ofSegments (first :: rest) ++ "/" ++ last := by
      rw [ofSegments, String.intercalate_append_of_ne_nil (by simp) (by simp)]
      simp [ofSegments]
    rw [hsplit, getLast?_segments_slash (isIdle_eq_false_iff.mp hi).1, hlast]
    rfl

namespace Route

theorem ofPath_concat (hs : ∀ piece ∈ pieces, '/' ∉ piece.toList) (hi : Path.isIdle last = false)
    (hl : '/' ∉ last.toList) : ofPath host (Path.ofSegments (pieces ++ [last]))
      = ⟨if pieces.head? = some "" then [] else host.here,
        (pieces.filter (!Path.isIdle ·)).map Name.ofText ++ [Name.ofText last], false⟩ := by
  have hnames : (ofPath host (Path.ofSegments (pieces ++ [last]))).names
      = (pieces.filter (!Path.isIdle ·)).map Name.ofText ++ [Name.ofText last] := by
    rw [names_ofPath, Path.named_ofSegments
      (List.forall_mem_append.mpr ⟨hs, List.forall_mem_singleton.mpr hl⟩), List.filter_append,
      List.map_append]
    simp [hi]
  rw [← hnames, ofPath, Path.getLast?_segments_concat hi hl]
  simp only [Path.startsWith_concat hs hl, Option.any_some, hi]

/-- The route to a name in a folder goes through the folder, whatever the name is. -/
theorem exists_ofPath_concat (hs : ∀ piece ∈ pieces, '/' ∉ piece.toList) (folder : String) :
    ∃ start before, ∀ last, Path.isIdle last = false → '/' ∉ last.toList →
      ofPath host (Path.join folder (Path.ofSegments (pieces ++ [last])))
        = ⟨start, before ++ [Name.ofText last], false⟩ := by
  by_cases ha : pieces.head? = some ""
  · refine ⟨[], (pieces.filter (!Path.isIdle ·)).map Name.ofText, fun last hi hl => ?_⟩
    rw [Path.join, if_pos ((Path.startsWith_concat hs hl).mpr ha), ofPath_concat hs hi hl, if_pos ha]
  · refine ⟨(ofPath host folder).start,
      (ofPath host folder).names ++ (pieces.filter (!Path.isIdle ·)).map Name.ofText,
      fun last hi hl => ?_⟩
    have hne : Path.ofSegments (pieces ++ [last]) ≠ "" := by
      intro he
      have hend : (Path.segments (Path.ofSegments (pieces ++ [last]))).getLast? = some last :=
        Path.getLast?_segments_concat hi hl
      rw [he] at hend
      cases hend
    have hrelative := mt (Path.startsWith_concat hs hl).mp ha
    rw [ofPath_join hne (by simpa using hrelative), ofPath_concat hs hi hl, List.append_assoc]

theorem ofPath_sibling {other : String} (hs : ∀ piece ∈ pieces, '/' ∉ piece.toList)
    (hi : Path.isIdle last = false) (hl : '/' ∉ last.toList) (hi' : Path.isIdle other = false)
    (hl' : '/' ∉ other.toList) (folder : String) :
    ofPath host (Path.sibling (Path.join folder (Path.ofSegments (pieces ++ [last]))) other)
      = ofPath host (Path.join folder (Path.ofSegments (pieces ++ [other]))) := by
  obtain ⟨start, before, hroute⟩ : ∃ start before, ∀ last, _ → _ →
      ofPath host (Path.join folder (Path.ofSegments (pieces ++ [last])))
        = ⟨start, before ++ [Name.ofText last], false⟩ := exists_ofPath_concat hs folder
  have hnamed : Path.named (Path.join folder (Path.ofSegments (pieces ++ [last]))) ≠ [] := by
    intro hn
    have hnames := names_ofPath host (Path.join folder (Path.ofSegments (pieces ++ [last])))
    rw [hn, hroute last hi hl] at hnames
    simp at hnames
  obtain ⟨around, hp⟩ := Path.exists_parent? hnamed
  obtain ⟨hstart, hnames⟩ : (ofPath host around).start = _ ∧ (ofPath host around).names = _ :=
    ofPath_parent hp
  rw [hroute last hi hl] at hstart hnames
  have hproper : Path.Proper [other] := ⟨by simpa using hi', by simpa using hl'⟩
  have hother : ofPath host (Path.ofSegments [other]) = _ := hproper.ofPath
  have hrelative : (Path.ofSegments ([] ++ [other])).startsWith "/" = true ↔ _ :=
    Path.startsWith_concat (List.forall_mem_nil _) hl'
  rw [Path.ofSegments_singleton] at hother
  rw [List.nil_append, Path.ofSegments_singleton] at hrelative
  rw [Path.sibling, hp, Option.getD_some, hroute other hi' hl',
    ofPath_join (Path.isIdle_eq_false_iff.mp hi').1 (by simpa using hrelative), hother, hstart, hnames]
  simp

end Route

end Folio.Files
