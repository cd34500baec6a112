import Folio.Site.Matcher
import Mathlib.Data.List.Basic
/-!
# Stems

A matcher strips a file name if one of its extensions stands at the end behind a dot. Of several that
do, it strips the longest, wherever they stand in its list.
-/

namespace Folio

namespace Matcher

/-- What is left of a file name by the longest extension that it ends in. -/
structure Strips (matcher : Matcher) (fileName stem : String) : Prop where
  ends : ∃ extension ∈ matcher.extensions, fileName = stem ++ "." ++ extension
  least : ∀ extension ∈ matcher.extensions, ∀ before, fileName = before ++ "." ++ extension →
    stem.length ≤ before.length

theorem Strips.notMem {matcher : Matcher} {fileName stem : String} {c : Char}
    (h : matcher.Strips fileName stem) (hc : c ∉ fileName.toList) : c ∉ stem.toList := by
  obtain ⟨extension, -, he⟩ := h.ends
  rw [he] at hc
  intro hm
  exact hc (by simp [hm])

theorem Strips.extensions_ne_nil {matcher : Matcher} {fileName stem : String}
    (h : matcher.Strips fileName stem) : matcher.extensions ≠ [] := by
  obtain ⟨extension, hm, -⟩ := h.ends
  exact List.ne_nil_of_mem hm

theorem stripChars_eq_some_iff {endings : List (List Char)} {text stem : List Char} :
    stripChars endings text = some stem ↔ (∃ ending ∈ endings, text = stem ++ '.' :: ending) ∧
      ∀ ending ∈ endings, ∀ before, text = before ++ '.' :: ending → stem.length ≤ before.length := by
  induction text generalizing stem with
  | nil => simp [stripChars]
  | cons c rest ih =>
    rw [stripChars]
    by_cases hc : c = '.' ∧ rest ∈ endings
    · obtain ⟨rfl, hr⟩ := hc
      rw [if_pos ⟨rfl, hr⟩]
      constructor
      · rintro h
        cases h
        exact ⟨⟨rest, hr, rfl⟩, fun _ _ before _ => Nat.zero_le before.length⟩
      · rintro ⟨-, hleast⟩
        have hempty := List.length_eq_zero_iff.mp (Nat.le_zero.mp (hleast rest hr [] rfl))
        rw [hempty]
    · rw [if_neg hc, Option.map_eq_some_iff]
      have hfirst : ∀ ending ∈ endings, ∀ before, c :: rest = before ++ '.' :: ending →
          ∃ more, before = c :: more ∧ rest = more ++ '.' :: ending := by
        intro ending hm before he
        cases before with
        | nil =>
          obtain ⟨rfl, rfl⟩ := List.cons.inj he
          exact absurd ⟨rfl, hm⟩ hc
        | cons d more =>
          obtain ⟨rfl, hr⟩ := List.cons.inj he
          exact ⟨more, rfl, hr⟩
      constructor
      · rintro ⟨more, hs, rfl⟩
        obtain ⟨⟨ending, hm, he⟩, hleast⟩ := ih.mp hs
        refine ⟨⟨ending, hm, by rw [he]; rfl⟩, fun other ho before hb => ?_⟩
        obtain ⟨start, rfl, hr⟩ := hfirst other ho before hb
        exact Nat.succ_le_succ (hleast other ho start hr)
      · rintro ⟨⟨ending, hm, he⟩, hleast⟩
        obtain ⟨more, rfl, hr⟩ := hfirst ending hm stem he
        refine ⟨more, ih.mpr ⟨⟨ending, hm, hr⟩, fun other ho before hb => ?_⟩, rfl⟩
        have hle := hleast other ho (c :: before) (by rw [hb]; rfl)
        exact Nat.le_of_succ_le_succ hle

theorem exists_stripChars {endings : List (List Char)} {ending : List Char} (hm : ending ∈ endings)
    (before : List Char) : ∃ stem, stripChars endings (before ++ '.' :: ending) = some stem := by
  induction before with
  | nil => exact ⟨[], by rw [List.nil_append, stripChars, if_pos ⟨rfl, hm⟩]⟩
  | cons c rest ih =>
    obtain ⟨stem, hs⟩ := ih
    rw [List.cons_append, stripChars, hs]
    split
    · exact ⟨[], rfl⟩
    · exact ⟨c :: stem, rfl⟩

variable {matcher other : Matcher} {fileName stem : String}

theorem endings_eq (hne : matcher.extensions ≠ []) :
    matcher.endings = matcher.extensions.map String.toList := by
  rw [endings]
  split
  · rename_i he
    exact absurd he hne
  · rfl

theorem strip?_eq_some_iff (hne : matcher.extensions ≠ []) :
    matcher.strip? fileName = some stem ↔ matcher.Strips fileName stem := by
  have hends : ∀ before extension, fileName = before ++ "." ++ extension ↔
      fileName.toList = before.toList ++ '.' :: extension.toList := by
    intro before extension
    rw [← String.toList_inj]
    simp
  have hstrip : matcher.strip? fileName = some stem ↔
      stripChars matcher.endings fileName.toList = some stem.toList := by
    rw [strip?, Option.map_eq_some_iff]
    constructor
    · rintro ⟨chars, hc, rfl⟩
      rw [hc, String.toList_ofList]
    · exact fun h => ⟨_, h, String.ofList_toList⟩
  rw [hstrip, endings_eq hne, stripChars_eq_some_iff]
  constructor
  · rintro ⟨⟨ending, hm, he⟩, hleast⟩
    obtain ⟨extension, hx, rfl⟩ := List.mem_map.mp hm
    refine ⟨⟨extension, hx, (hends _ _).mpr he⟩, fun extension hx before hb => ?_⟩
    have hle := hleast _ (List.mem_map_of_mem hx) before.toList ((hends _ _).mp hb)
    rwa [String.length_toList, String.length_toList] at hle
  · rintro ⟨⟨extension, hx, he⟩, hleast⟩
    refine ⟨⟨_, List.mem_map_of_mem hx, (hends _ _).mp he⟩, fun ending hm before hb => ?_⟩
    obtain ⟨extension, hx, rfl⟩ := List.mem_map.mp hm
    have hle := hleast extension hx (String.ofList before)
      ((hends _ _).mpr (by rwa [String.toList_ofList]))
    rwa [← String.length_toList, ← String.length_toList, String.toList_ofList] at hle

theorem exists_strips {extension before : String} (hm : extension ∈ matcher.extensions) :
    ∃ stem, matcher.Strips (before ++ "." ++ extension) stem := by
  have hne := List.ne_nil_of_mem hm
  have hending : extension.toList ∈ matcher.endings := by
    rw [endings_eq hne]
    exact List.mem_map_of_mem hm
  obtain ⟨chars, hc⟩ := exists_stripChars hending before.toList
  have htext : (before ++ "." ++ extension).toList = before.toList ++ '.' :: extension.toList := by
    simp
  refine ⟨String.ofList chars, (strip?_eq_some_iff hne).mp ?_⟩
  rw [strip?, htext, hc, Option.map_some]

theorem strip?_congr (hne : matcher.extensions ≠ [])
    (h : ∀ extension, extension ∈ matcher.extensions ↔ extension ∈ other.extensions) :
    matcher.strip? = other.strip? := by
  have hne' : other.extensions ≠ [] := by
    obtain ⟨extension, hm⟩ := List.exists_mem_of_ne_nil _ hne
    exact List.ne_nil_of_mem ((h extension).mp hm)
  funext fileName
  refine Option.ext fun stem => ?_
  rw [strip?_eq_some_iff hne, strip?_eq_some_iff hne']
  exact ⟨fun ⟨⟨x, hx, he⟩, hl⟩ => ⟨⟨x, (h x).mp hx, he⟩, fun y hy => hl y ((h y).mpr hy)⟩,
    fun ⟨⟨x, hx, he⟩, hl⟩ => ⟨⟨x, (h x).mpr hx, he⟩, fun y hy => hl y ((h y).mp hy)⟩⟩

end Matcher

end Folio
