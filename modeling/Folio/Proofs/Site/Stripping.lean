import Folio.Proofs.Site.Matching
import Folio.Proofs.Text.PatternEngine
import Mathlib.Data.List.Forall2
/-!
# Stripping by pattern

The extensions of a matcher make a pattern: a dot, one of the extensions taken literally, the end of
the name. The leftmost match of it starts where the longest extension does that the name ends in, so
any engine that finds leftmost matches strips what the matcher strips.
-/

namespace Folio

namespace Text

/-- The text before a byte, if a character starts at it or the text ends there. -/
def upTo? : List Char → Nat → Option (List Char)
  | _, 0 => some []
  | [], _ + 1 => none
  | c :: rest, bytes =>
    if c.utf8Size ≤ bytes then (upTo? rest (bytes - c.utf8Size)).map (c :: ·) else none

theorem upTo?_append (before rest : List Char) :
    upTo? (before ++ rest) (String.ofList before).utf8ByteSize = some before := by
  induction before with
  | nil => rw [String.ofList_nil, String.utf8ByteSize_empty, upTo?]
  | cons c before ih =>
    have hpos := c.utf8Size_pos
    rw [String.ofList_cons, String.utf8ByteSize_append, String.utf8ByteSize_singleton,
      List.cons_append, upTo?, if_pos (Nat.le_add_right _ _), Nat.add_sub_cancel_left, ih,
      Option.map_some]
    omega

end Text

def Pattern.Engine.before? (engine : Pattern.Engine) (regex : engine.Regex) (text : String) :
    Option String :=
  (engine.find? regex text).bind fun start => (Text.upTo? text.toList start).map String.ofList

namespace Matcher

variable {matcher : Matcher} {fileName stem : String} {text before : List Char}

/-! ## The pattern -/

def pattern (matcher : Matcher) : Pattern :=
  .sequence [.char '.', .oneOf matcher.endings, .atEnd]

def source (matcher : Matcher) (engine : Pattern.Engine) : String :=
  "\\.(?:" ++ "|".intercalate (matcher.extensions.map engine.escape) ++ ")$"

theorem endings_ne_nil (matcher : Matcher) : matcher.endings ≠ [] := by
  rw [endings]
  split
  · exact List.cons_ne_nil _ _
  · rename_i hne
    exact fun h => hne (List.map_eq_nil_iff.mp h)

theorem spells_alternatives {engine : Pattern.Engine} (hengine : engine.FindsLeftmost)
    (matcher : Matcher) :
    Pattern.Spells .choice ("|".intercalate (matcher.extensions.map engine.escape)).toList
      (.oneOf matcher.endings) := by
  by_cases hne : matcher.extensions = []
  · rw [endings, hne]
    exact .last .nil
  · rw [endings_eq hne, String.toList_intercalate, List.map_map]
    apply Pattern.spells_oneOf
    rw [List.forall₂_map_left_iff, List.forall₂_map_right_iff, List.forall₂_same]
    exact fun extension _ => hengine.spells_escape extension

theorem spells_source {engine : Pattern.Engine} (hengine : engine.FindsLeftmost)
    (matcher : Matcher) : Pattern.Spells .choice (matcher.source engine).toList matcher.pattern := by
  have hdot : Pattern.Spells .item ['\\', '.'] (.char '.') := .escaped (by decide)
  have hends : Pattern.Spells .row ['$'] (.sequence [.atEnd]) := .cons .atEnd .nil
  have hrow := Pattern.Spells.cons hdot (.cons (.group (spells_alternatives hengine matcher)) hends)
  have htext : (matcher.source engine).toList = ['\\', '.'] ++ ('(' :: '?' :: ':' ::
      (("|".intercalate (matcher.extensions.map engine.escape)).toList ++ [')']) ++ ['$']) := by
    simp [source]
  rw [htext]
  exact .last hrow

example : (Matcher.mk ["mustache", "m.s"]).source Pattern.engine = "\\.(?:mustache|m\\.s)$" := by
  decide +kernel

theorem takes_pattern_iff {rest : List Char} : matcher.pattern.Takes text rest ↔
    rest = [] ∧ ∃ ending ∈ matcher.endings, text = '.' :: ending := by
  constructor
  · rintro ⟨_, rfl, _, hword, _, ⟨rfl, rfl⟩, rfl⟩
    obtain ⟨ending, hm, rfl⟩ := (Pattern.takes_oneOf matcher.endings_ne_nil).mp hword
    exact ⟨rfl, ending, hm, by rw [List.append_nil]⟩
  · rintro ⟨rfl, ending, hm, rfl⟩
    have hword : (Pattern.oneOf matcher.endings).Takes ending [] :=
      (Pattern.takes_oneOf matcher.endings_ne_nil).mpr ⟨ending, hm, (List.append_nil ending).symm⟩
    exact ⟨ending, rfl, [], hword, [], ⟨rfl, rfl⟩, rfl⟩

theorem occurs_pattern_iff : matcher.pattern.Occurs text before ↔
    ∃ ending ∈ matcher.endings, text = before ++ '.' :: ending := by
  constructor
  · rintro ⟨rest, after, rfl, htakes⟩
    obtain ⟨-, ending, hm, rfl⟩ := takes_pattern_iff.mp htakes
    exact ⟨ending, hm, rfl⟩
  · rintro ⟨ending, hm, rfl⟩
    exact ⟨_, [], rfl, takes_pattern_iff.mpr ⟨rfl, ending, hm, rfl⟩⟩

theorem leftmost_pattern_iff : matcher.pattern.Leftmost text before ↔
    stripChars matcher.endings text = some before := by
  rw [stripChars_eq_some_iff]
  constructor
  · rintro ⟨hoccurs, hleast⟩
    exact ⟨occurs_pattern_iff.mp hoccurs, fun ending hm other he =>
      hleast other (occurs_pattern_iff.mpr ⟨ending, hm, he⟩)⟩
  · rintro ⟨hends, hleast⟩
    refine ⟨occurs_pattern_iff.mpr hends, fun other ho => ?_⟩
    obtain ⟨ending, hm, he⟩ := occurs_pattern_iff.mp ho
    exact hleast ending hm other he

/-! ## Engines -/

section Engines

variable {engine : Pattern.Engine} {regex : engine.Regex}

theorem isMatch_eq (hengine : engine.FindsLeftmost)
    (hcompile : engine.compile (matcher.source engine) = .ok regex) (fileName : String) :
    engine.isMatch regex fileName = matcher.matches? fileName := by
  rw [Bool.eq_iff_iff, hengine.isMatch_iff hcompile (spells_source hengine matcher), matches?, strip?,
    Option.isSome_map, Option.isSome_iff_exists]
  constructor
  · rintro ⟨before, hoccurs⟩
    obtain ⟨ending, hm, htext⟩ := occurs_pattern_iff.mp hoccurs
    rw [htext]
    exact exists_stripChars hm before
  · rintro ⟨before, hstrip⟩
    exact ⟨before, (leftmost_pattern_iff.mpr hstrip).occurs⟩

theorem before?_eq (hengine : engine.FindsLeftmost)
    (hcompile : engine.compile (matcher.source engine) = .ok regex) (fileName : String) :
    engine.before? regex fileName = matcher.strip? fileName := by
  have hfind := hengine.find?_eq_some_iff hcompile (spells_source hengine matcher) fileName
  rw [Pattern.Engine.before?, strip?]
  cases hstrip : stripChars matcher.endings fileName.toList with
  | none =>
    cases hstart : engine.find? regex fileName with
    | none => rfl
    | some start =>
      obtain ⟨before, hleft, -⟩ := (hfind start).mp hstart
      rw [leftmost_pattern_iff.mp hleft] at hstrip
      cases hstrip
  | some before =>
    have hleft := leftmost_pattern_iff.mpr hstrip
    -- a match starts behind whole characters, so the cut does not fall inside one
    obtain ⟨rest, -, htext, -⟩ := hleft.occurs
    rw [(hfind _).mpr ⟨before, hleft, rfl⟩, Option.bind_some, htext, Text.upTo?_append]

end Engines

/-! ## The longest extension -/

def EndsIn (fileName extension : String) : Prop :=
  ∃ before, fileName = before ++ "." ++ extension

structure Longest (matcher : Matcher) (fileName extension : String) : Prop where
  mem : extension ∈ matcher.extensions
  ends : EndsIn fileName extension
  longest : ∀ other ∈ matcher.extensions, EndsIn fileName other → other.length ≤ extension.length

theorem length_le_iff {extension other before : String}
    (h : stem ++ "." ++ extension = before ++ "." ++ other) :
    stem.length ≤ before.length ↔ other.length ≤ extension.length := by
  have hlength := congrArg String.length h
  simp only [String.length_append] at hlength
  omega

theorem strips_iff_longest : matcher.Strips fileName stem ↔
    ∃ extension, matcher.Longest fileName extension ∧ fileName = stem ++ "." ++ extension := by
  constructor
  · rintro ⟨⟨extension, hm, rfl⟩, hleast⟩
    refine ⟨extension, ⟨hm, ⟨stem, rfl⟩, fun other ho hends => ?_⟩, rfl⟩
    obtain ⟨before, hb⟩ := hends
    exact (length_le_iff hb).mp (hleast other ho before hb)
  · rintro ⟨extension, ⟨hm, -, hlongest⟩, rfl⟩
    refine ⟨⟨extension, hm, rfl⟩, fun other ho before hb => ?_⟩
    exact (length_le_iff hb).mpr (hlongest other ho ⟨before, hb⟩)

theorem matches?_iff (hne : matcher.extensions ≠ []) : matcher.matches? fileName = true ↔
    ∃ extension ∈ matcher.extensions, EndsIn fileName extension := by
  rw [matches?, Option.isSome_iff_exists]
  constructor
  · rintro ⟨stem, hstrip⟩
    obtain ⟨extension, hm, hname⟩ := ((strip?_eq_some_iff hne).mp hstrip).ends
    exact ⟨extension, hm, stem, hname⟩
  · rintro ⟨extension, hm, before, rfl⟩
    obtain ⟨stem, hstrips⟩ := exists_strips hm
    exact ⟨stem, (strip?_eq_some_iff hne).mpr hstrips⟩

/-- Whatever engine compiles the pattern of some extensions, it matches the names that end in a dot
and one of them, and strips the longest that a name ends in. So does the matcher. -/
theorem strips_longest_extension {engine : Pattern.Engine} (hengine : engine.FindsLeftmost)
    {regex : engine.Regex} (hne : matcher.extensions ≠ [])
    (hcompile : engine.compile (matcher.source engine) = .ok regex) (fileName : String) :
    (engine.isMatch regex fileName = matcher.matches? fileName ∧
      engine.before? regex fileName = matcher.strip? fileName) ∧
    (matcher.matches? fileName = true ↔
      ∃ extension ∈ matcher.extensions, EndsIn fileName extension) ∧
    ((matcher.strip? fileName).isSome = true ↔ matcher.matches? fileName = true) ∧
    ∀ stem, matcher.strip? fileName = some stem ↔
      ∃ extension, matcher.Longest fileName extension ∧ fileName = stem ++ "." ++ extension := by
  refine ⟨⟨isMatch_eq hengine hcompile fileName, before?_eq hengine hcompile fileName⟩,
    matches?_iff hne, Iff.rfl, fun stem => ?_⟩
  rw [strip?_eq_some_iff hne, strips_iff_longest]

def nested : Matcher :=
  ⟨["mustache", "b.mustache"]⟩

theorem strips_longest_extension_nested :
    (Pattern.engine.FindsLeftmost ∧ nested.extensions ≠ [] ∧
      Pattern.engine.compile (nested.source Pattern.engine) = .ok nested.pattern) ∧
    Pattern.engine.isMatch nested.pattern "é.b.mustache" = true ∧
    Pattern.engine.before? nested.pattern "é.b.mustache" = some "é" := by
  have hengine := Pattern.findsLeftmost_engine
  have hne : nested.extensions ≠ [] := by decide
  have hcompile := Pattern.compile_of_spells (spells_source hengine nested)
  have hlength : ∀ other ∈ nested.extensions, other.length ≤ "b.mustache".length := by decide
  have hlongest : nested.Longest "é.b.mustache" "b.mustache" :=
    ⟨by decide, ⟨"é", by decide⟩, fun other ho _ => hlength other ho⟩
  obtain ⟨⟨hmatch, hbefore⟩, hmatches, -, hstrip⟩ :=
    strips_longest_extension hengine hne hcompile "é.b.mustache"
  refine ⟨⟨hengine, hne, hcompile⟩, ?_, ?_⟩
  · rw [hmatch, hmatches]
    exact ⟨"b.mustache", hlongest.mem, hlongest.ends⟩
  · rw [hbefore, hstrip]
    exact ⟨"b.mustache", hlongest, by decide⟩

end Matcher

end Folio
