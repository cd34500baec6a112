import Folio.Files.Access
import Mathlib.Data.List.TakeWhile
/-!
# Names as paths

Cutting a path into segments and joining them undo each other as long as no segment is empty. A
name whose segments hold no dot keeps all of them as folders and, with an extension, as a file.
-/

namespace Folio

variable {host : Host}

namespace Text

theorem splitOn_eq (mark : Char) (text : List Char) : splitOn mark text = text.splitOn mark := by
  induction text with
  | nil => rfl
  | cons c rest ih =>
    rw [splitOn, ih, List.splitOn_cons_eq_if_modifyHead]
    by_cases hc : c = mark
    · rw [if_pos hc, if_pos (beq_iff_eq.mpr hc)]
    · rw [if_neg hc, if_neg (mt beq_iff_eq.mp hc)]
      cases hs : rest.splitOn mark with
      | nil => exact absurd hs (List.splitOn_ne_nil mark rest)
      | cons piece more => rfl

theorem notMem_of_mem_splitOn {mark : Char} {text piece : List Char} (h : piece ∈ splitOn mark text) :
    mark ∉ piece := by
  induction text generalizing piece with
  | nil =>
    rw [List.mem_singleton.mp h]
    exact List.not_mem_nil
  | cons c rest ih =>
    rw [splitOn] at h
    split at h
    · rcases List.mem_cons.mp h with rfl | h
      · exact List.not_mem_nil
      · exact ih h
    · rename_i hc
      split at h
      · rw [List.mem_singleton.mp h]
        simpa using Ne.symm hc
      · rename_i first more hs
        rcases List.mem_cons.mp h with rfl | h
        · have hf : mark ∉ first := ih (by simp [hs])
          simp [hf, Ne.symm hc]
        · exact ih (by simp [hs, h])

theorem exists_mem_splitOn {mark c : Char} {text : List Char} (h : c ∈ text) (hc : c ≠ mark) :
    ∃ piece ∈ splitOn mark text, c ∈ piece := by
  induction text with
  | nil => cases h
  | cons d rest ih =>
    rw [splitOn]
    split
    · rename_i hd
      rcases List.mem_cons.mp h with rfl | h
      · exact absurd hd hc
      · obtain ⟨piece, hp, hm⟩ := ih h
        exact ⟨piece, List.mem_cons_of_mem _ hp, hm⟩
    · split
      · rename_i hs
        exact absurd hs (splitOn_ne_nil mark rest)
      · rename_i first more hs
        rcases List.mem_cons.mp h with rfl | h
        · exact ⟨c :: first, List.mem_cons_self, List.mem_cons_self⟩
        · obtain ⟨piece, hp, hm⟩ := ih h
          rw [hs] at hp
          rcases List.mem_cons.mp hp with rfl | hp
          · exact ⟨d :: piece, List.mem_cons_self, List.mem_cons_of_mem _ hm⟩
          · exact ⟨piece, List.mem_cons_of_mem _ hp, hm⟩

end Text

namespace Files

namespace Name

theorem length_ofText (text : String) : (ofText text).length = text.utf8ByteSize := by
  simp [ofText, String.toUTF8]

theorem ofText_injective {text text' : String} (h : ofText text = ofText text') :
    text = text' := by
  have ht := text?_ofText text
  rw [h, text?_ofText] at ht
  exact (Option.some.inj ht).symm

theorem ofText_of_text? {name : Name} {text : String} (h : name.text? = some text) :
    name = ofText text := by
  rw [text?, String.fromUTF8?] at h
  split at h
  · cases h
    simp [ofText, String.toUTF8, String.fromUTF8]
  · cases h

theorem eq_map_of_mapM_text? {names : Location} {texts : List String}
    (h : names.mapM text? = some texts) : names = texts.map ofText := by
  induction names generalizing texts with
  | nil =>
    cases h
    rfl
  | cons name rest ih =>
    rw [List.mapM_cons] at h
    obtain ⟨text, ht, h⟩ := Option.bind_eq_some_iff.mp h
    obtain ⟨more, hm, h⟩ := Option.bind_eq_some_iff.mp h
    cases h
    rw [List.map_cons, ← ofText_of_text? ht, ← ih hm]

theorem map_concat_inj {folders folders' : List String} {last last' : String} :
    folders.map ofText ++ [ofText last] = folders'.map ofText ++ [ofText last'] ↔
      folders = folders' ∧ last = last' := by
  constructor
  · intro h
    obtain ⟨hfolders, hlast⟩ := List.append_inj' h rfl
    exact ⟨(List.map_inj_right fun _ _ => ofText_injective).mp hfolders,
      ofText_injective (List.singleton_inj.mp hlast)⟩
  · rintro ⟨rfl, rfl⟩
    rfl

theorem mapM_text?_map_ofText (texts : List String) :
    (texts.map ofText).mapM text? = some texts := by
  induction texts with
  | nil => rfl
  | cons text rest ih =>
    rw [List.map_cons, List.mapM_cons, text?_ofText, ih]
    rfl

end Name

namespace Path

/-! ## Segments -/

theorem ofSegments_segments (path : String) : ofSegments (segments path) = path := by
  rw [segments, ofSegments]
  split
  · rename_i he
    rw [String.intercalate_nil]
    exact (String.isEmpty_iff.mp he).symm
  · apply String.toList_injective
    rw [String.toList_intercalate, List.map_map, Text.splitOn_eq]
    have hid : (String.toList ∘ String.ofList) = id := by
      funext text
      exact String.toList_ofList
    rw [hid, List.map_id]
    exact List.intercalate_splitOn '/'

theorem splitOn_ofSegments {pieces : List String} (hne : pieces ≠ [])
    (hs : ∀ piece ∈ pieces, '/' ∉ piece.toList) :
    Text.splitOn '/' (ofSegments pieces).toList = pieces.map String.toList := by
  have hmarks : ∀ text ∈ pieces.map String.toList, '/' ∉ text := by
    intro text hm
    obtain ⟨piece, hp, rfl⟩ := List.mem_map.mp hm
    exact hs piece hp
  have hmark : "/".toList = ['/'] := rfl
  rw [ofSegments, String.toList_intercalate, Text.splitOn_eq, hmark,
    List.splitOn_intercalate '/' hmarks (by simpa using hne)]

theorem segments_ofSegments {pieces : List String} (h : ∀ piece ∈ pieces, piece ≠ "")
    (hs : ∀ piece ∈ pieces, '/' ∉ piece.toList) : segments (ofSegments pieces) = pieces := by
  rcases pieces with _ | ⟨first, rest⟩
  · rfl
  · have hne : (ofSegments (first :: rest)).isEmpty = false := by
      have hf : first.toList ≠ [] := mt String.toList_eq_nil_iff.mp (h first List.mem_cons_self)
      rw [← Bool.not_eq_true, String.isEmpty_iff, ← String.toList_eq_nil_iff, ofSegments,
        String.toList_intercalate]
      cases rest with
      | nil => simpa using hf
      | cons second more => simp [List.intercalate_cons_cons, hf]
    rw [segments, hne, splitOn_ofSegments (by simp) hs]
    simp [Function.comp_def]

/-- Segments can be told from the path that they are joined to. -/
theorem ofSegments_inj {pieces other : List String} (hne : pieces ≠ []) (hne' : other ≠ [])
    (hs : ∀ piece ∈ pieces, '/' ∉ piece.toList) (hs' : ∀ piece ∈ other, '/' ∉ piece.toList) :
    ofSegments pieces = ofSegments other ↔ pieces = other := by
  refine ⟨fun h => ?_, congrArg ofSegments⟩
  have htexts := congrArg (fun path => Text.splitOn '/' path.toList) h
  rw [splitOn_ofSegments hne hs, splitOn_ofSegments hne' hs'] at htexts
  exact (List.map_inj_right fun _ _ he => String.toList_injective he).mp htexts

theorem slash_notMem_segments {path segment : String} (h : segment ∈ segments path) :
    '/' ∉ segment.toList := by
  rw [segments] at h
  split at h
  · cases h
  · obtain ⟨piece, hp, rfl⟩ := List.mem_map.mp h
    rw [String.toList_ofList]
    exact Text.notMem_of_mem_splitOn hp

theorem exists_mem_segments {path : String} {c : Char} (h : c ∈ path.toList) (hc : c ≠ '/') :
    ∃ segment ∈ segments path, c ∈ segment.toList := by
  rw [segments]
  split
  · rename_i he
    rw [String.isEmpty_iff.mp he] at h
    cases h
  · obtain ⟨piece, hp, hm⟩ := Text.exists_mem_splitOn h hc
    exact ⟨String.ofList piece, List.mem_map_of_mem hp, by rw [String.toList_ofList]; exact hm⟩

theorem ofSegments_append (before : List String) (last rest : String) :
    ofSegments (before ++ [last ++ rest]) = ofSegments (before ++ [last]) ++ rest := by
  rw [ofSegments, ofSegments]
  cases before with
  | nil => rfl
  | cons first more =>
    rw [String.intercalate_append_of_ne_nil (by simp) (by simp),
      String.intercalate_append_of_ne_nil (by simp) (by simp)]
    simp [String.append_assoc]

theorem ofSegments_prefix (before : List String) (last : String) :
    ∃ rest, ofSegments (before ++ [last]) = ofSegments before ++ rest := by
  cases before with
  | nil => exact ⟨last, by simp [ofSegments]⟩
  | cons first more =>
    refine ⟨"/" ++ last, ?_⟩
    rw [ofSegments, String.intercalate_append_of_ne_nil (by simp) (by simp)]
    simp [ofSegments, String.append_assoc]

theorem ofSegments_singleton (segment : String) : ofSegments [segment] = segment := by
  simp [ofSegments]

theorem ofSegments_cons (first : String) (more : List String) :
    ∃ rest, ofSegments (first :: more) = first ++ rest := by
  cases more with
  | nil => exact ⟨"", by simp [ofSegments]⟩
  | cons second more =>
    refine ⟨"/" ++ ofSegments (second :: more), ?_⟩
    rw [ofSegments, String.intercalate_cons_cons, String.append_assoc]
    rfl

/-- Segments that each name something of their own. -/
structure Proper (pieces : List String) : Prop where
  notIdle : ∀ piece ∈ pieces, isIdle piece = false
  noSlash : ∀ piece ∈ pieces, '/' ∉ piece.toList

theorem isIdle_eq_false_iff {segment : String} :
    isIdle segment = false ↔ segment ≠ "" ∧ segment ≠ "." := by
  simp [isIdle]

theorem Proper.of_append {before after : List String} (h : Proper (before ++ after)) :
    Proper before :=
  ⟨fun piece hp => h.notIdle piece (List.mem_append_left _ hp),
    fun piece hp => h.noSlash piece (List.mem_append_left _ hp)⟩

theorem Proper.segments {pieces : List String} (h : Proper pieces) :
    segments (ofSegments pieces) = pieces :=
  segments_ofSegments (fun piece hp => (isIdle_eq_false_iff.mp (h.notIdle piece hp)).1) h.noSlash

theorem Proper.dropIdle {pieces : List String} (h : Proper pieces) : dropIdle pieces = pieces := by
  have hkept : (pieces.reverse.dropWhile isIdle).reverse = pieces := by
    rcases List.eq_nil_or_concat pieces with rfl | ⟨before, last, rfl⟩
    · rfl
    · rw [List.concat_eq_append] at h ⊢
      have hl := h.notIdle last (by simp)
      rw [List.reverse_append, List.reverse_singleton, List.singleton_append,
        List.dropWhile_cons_of_neg (by simp [hl])]
      simp
  unfold Path.dropIdle
  simp only [hkept]

theorem Proper.getLast {before : List String} {last : String} (h : Proper (before ++ [last])) :
    last ≠ "" ∧ last ≠ "." :=
  isIdle_eq_false_iff.mp (h.notIdle last (by simp))

theorem Proper.parent? {before : List String} {last : String} (h : Proper (before ++ [last])) :
    parent? (ofSegments (before ++ [last])) = some (ofSegments before) := by
  have hl := h.getLast
  have hb := h.of_append
  rw [Path.parent?, h.segments, h.dropIdle, List.reverse_append, List.reverse_singleton,
    List.singleton_append]
  split
  · rename_i he
    cases he
  · rename_i he
    exact absurd (List.cons.inj he).1 hl.1
  · rename_i first rest _ he
    obtain ⟨rfl, rfl⟩ := List.cons.inj he
    rw [List.reverse_reverse, hb.dropIdle]
    split
    · rename_i hs
      exact absurd rfl (isIdle_eq_false_iff.mp (hb.notIdle "" (by simp))).1
    · rfl

theorem stem_of_notMem {name : String} (h : '.' ∉ name.toList) : stem name = name := by
  have hd : name.toList.reverse.dropWhile (· != '.') = [] := by
    rw [List.dropWhile_eq_nil_iff]
    intro c hc
    have hne : c ≠ '.' := fun he => h (he ▸ List.mem_reverse.mp hc)
    simpa using hne
  rw [stem, hd]

theorem Proper.withExtension {before : List String} {last : String}
    (h : Proper (before ++ [last])) (hd : '.' ∉ last.toList) (extension : String) :
    withExtension (ofSegments (before ++ [last])) extension
      = ofSegments (before ++ [last]) ++ "." ++ extension := by
  have hl := h.getLast
  have hdots : last ≠ ".." := by
    rintro rfl
    exact hd (by decide)
  have hname : fileName? (ofSegments (before ++ [last])) = some last := by
    rw [fileName?, h.segments, h.dropIdle, List.getLast?_concat]
    simp [hl.1, hl.2, hdots]
  rw [Path.withExtension, hname]
  simp only
  rw [h.segments, h.dropIdle, List.dropLast_concat, stem_of_notMem hd, String.append_assoc,
    ofSegments_append, String.append_assoc]

end Path

theorem Path.Proper.startsWith {pieces : List String} (h : Path.Proper pieces) :
    (Path.ofSegments pieces).startsWith "/" = false := by
  rw [String.startsWith_string_eq_false_iff]
  intro hp
  rcases pieces with _ | ⟨first, more⟩
  · exact absurd hp (by decide)
  · obtain ⟨rest, hr⟩ := Path.ofSegments_cons first more
    rw [hr, String.toList_append] at hp
    cases hf : first.toList with
    | nil =>
      have hne := (Path.isIdle_eq_false_iff.mp (h.notIdle first List.mem_cons_self)).1
      exact hne (String.toList_eq_nil_iff.mp hf)
    | cons c chars =>
      have hn := h.noSlash first List.mem_cons_self
      rw [hf] at hp hn
      obtain ⟨tail, ht⟩ := hp
      have hc : '/' = c := (List.cons.inj ht).1
      exact hn (hc ▸ List.mem_cons_self)

theorem Path.Proper.ofPath {pieces : List String} (h : Path.Proper pieces) :
    Route.ofPath host (Path.ofSegments pieces) = ⟨host.here, pieces.map Name.ofText, false⟩ := by
  have hfilter : pieces.filter (!Path.isIdle ·) = pieces := by
    rw [List.filter_eq_self]
    intro piece hp
    simp [h.notIdle piece hp]
  have hlast : pieces.getLast?.any Path.isIdle = false := by
    cases hl : pieces.getLast? with
    | none => rfl
    | some last => exact h.notIdle last (List.mem_of_getLast? hl)
  rw [Route.ofPath, h.segments, h.startsWith, hfilter, hlast]
  rfl

end Files

end Folio
