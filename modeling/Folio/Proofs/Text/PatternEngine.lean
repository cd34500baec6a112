import Folio.Proofs.Text.Pattern
/-!
# An engine for patterns

Patterns are read from left to right with a stack of the groups that are open, and searched for from
each place of a text in turn. Any text that spells a pattern is read as that pattern, and the search
finds the leftmost match.
-/

namespace Folio

namespace Pattern

/-! ## Searching -/

def leaves : Pattern → List Char → List (List Char)
  | .empty, text => [text]
  | .char _, [] => []
  | .char c, d :: rest => if d = c then [rest] else []
  | .seq first second, text => (first.leaves text).flatMap second.leaves
  | .either first second, text => first.leaves text ++ second.leaves text
  | .atEnd, [] => [[]]
  | .atEnd, _ :: _ => []

theorem mem_leaves_iff {pattern : Pattern} {text rest : List Char} :
    rest ∈ pattern.leaves text ↔ pattern.Takes text rest := by
  induction pattern generalizing text rest with
  | empty => simp [leaves, Takes, eq_comm]
  | char c =>
    cases text with
    | nil => simp [leaves, Takes]
    | cons d text =>
      rw [leaves, Takes, List.cons.injEq]
      split
      · rename_i hd
        simp [hd, eq_comm]
      · rename_i hd
        simp [hd]
  | seq first second ihf ihs => simp only [leaves, Takes, List.mem_flatMap, ihf, ihs]
  | either first second ihf ihs => simp only [leaves, Takes, List.mem_append, ihf, ihs]
  | atEnd => cases text <;> simp [leaves, Takes]

def search? (pattern : Pattern) : List Char → Option (List Char)
  | [] => if pattern.leaves [] = [] then none else some []
  | c :: rest =>
    if pattern.leaves (c :: rest) = [] then (search? pattern rest).map (c :: ·) else some []

theorem occurs_nil_iff {pattern : Pattern} {text : List Char} :
    pattern.Occurs text [] ↔ pattern.leaves text ≠ [] := by
  constructor
  · rintro ⟨rest, after, rfl, htakes⟩
    exact List.ne_nil_of_mem (mem_leaves_iff.mpr htakes)
  · intro hne
    obtain ⟨after, hm⟩ := List.exists_mem_of_ne_nil _ hne
    exact ⟨text, after, rfl, mem_leaves_iff.mp hm⟩

theorem occurs_cons_iff {pattern : Pattern} {c d : Char} {text before : List Char} :
    pattern.Occurs (c :: text) (d :: before) ↔ c = d ∧ pattern.Occurs text before := by
  constructor
  · rintro ⟨rest, after, hsplit, htakes⟩
    obtain ⟨rfl, rfl⟩ := List.cons.inj hsplit
    exact ⟨rfl, rest, after, rfl, htakes⟩
  · rintro ⟨rfl, rest, after, rfl, htakes⟩
    exact ⟨rest, after, rfl, htakes⟩

theorem leftmost_iff_of_occurs_nil {pattern : Pattern} {text before : List Char}
    (h : pattern.Occurs text []) : pattern.Leftmost text before ↔ [] = before := by
  constructor
  · intro hleft
    exact (List.length_eq_zero_iff.mp (Nat.le_zero.mp (hleft.least [] h))).symm
  · rintro rfl
    exact ⟨h, fun other _ => Nat.zero_le other.length⟩

theorem leftmost_cons_iff {pattern : Pattern} {c : Char} {text before : List Char}
    (h : ¬ pattern.Occurs (c :: text) []) : pattern.Leftmost (c :: text) before ↔
      ∃ more, pattern.Leftmost text more ∧ c :: more = before := by
  constructor
  · rintro ⟨hoccurs, hleast⟩
    cases before with
    | nil => exact absurd hoccurs h
    | cons d more =>
      obtain ⟨rfl, hmore⟩ := occurs_cons_iff.mp hoccurs
      refine ⟨more, ⟨hmore, fun other ho => ?_⟩, rfl⟩
      exact Nat.le_of_succ_le_succ (hleast (c :: other) (occurs_cons_iff.mpr ⟨rfl, ho⟩))
  · rintro ⟨more, ⟨hoccurs, hleast⟩, rfl⟩
    refine ⟨occurs_cons_iff.mpr ⟨rfl, hoccurs⟩, fun other ho => ?_⟩
    cases other with
    | nil => exact absurd ho h
    | cons d other => exact Nat.succ_le_succ (hleast other (occurs_cons_iff.mp ho).2)

theorem search?_eq_some_iff {pattern : Pattern} {text before : List Char} :
    pattern.search? text = some before ↔ pattern.Leftmost text before := by
  induction text generalizing before with
  | nil =>
    by_cases h : pattern.Occurs [] []
    · rw [search?, if_neg (occurs_nil_iff.mp h), leftmost_iff_of_occurs_nil h, Option.some.injEq]
    · rw [search?, if_pos (not_not.mp (mt occurs_nil_iff.mpr h))]
      refine ⟨nofun, fun hleft => ?_⟩
      obtain ⟨rest, after, hsplit, htakes⟩ := hleft.occurs
      obtain ⟨rfl, rfl⟩ := List.append_eq_nil_iff.mp hsplit.symm
      exact absurd ⟨[], after, rfl, htakes⟩ h
  | cons c text ih =>
    by_cases h : pattern.Occurs (c :: text) []
    · rw [search?, if_neg (occurs_nil_iff.mp h), leftmost_iff_of_occurs_nil h, Option.some.injEq]
    · rw [search?, if_pos (not_not.mp (mt occurs_nil_iff.mpr h)), leftmost_cons_iff h,
        Option.map_eq_some_iff]
      simp only [ih]

theorem exists_search? {pattern : Pattern} {text before : List Char}
    (h : pattern.Occurs text before) : ∃ first, pattern.search? text = some first := by
  induction before generalizing text with
  | nil => exact ⟨[], search?_eq_some_iff.mpr ((leftmost_iff_of_occurs_nil h).mpr rfl)⟩
  | cons d before ih =>
    obtain ⟨rest, after, rfl, htakes⟩ := h
    obtain ⟨first, hfirst⟩ := ih ⟨rest, after, rfl, htakes⟩
    rw [List.cons_append, search?, hfirst]
    split
    · exact ⟨d :: first, rfl⟩
    · exact ⟨[], rfl⟩

/-! ## Reading -/

/-- A choice that is being read: the rows before the last bar and what follows it. -/
structure Frame where
  rows : List Pattern
  items : List Pattern
deriving DecidableEq, Repr

namespace Frame

def start : Frame := ⟨[], []⟩

def push (frame : Frame) (item : Pattern) : Frame :=
  { frame with items := frame.items ++ [item] }

def close (frame : Frame) : Frame :=
  ⟨frame.rows ++ [sequence frame.items], []⟩

def pattern (frame : Frame) : Pattern :=
  frame.rows.foldr .either (sequence frame.items)

end Frame

/-- Reads on from the frame in progress; the frames around open groups stand innermost first. -/
def read : List Frame → Frame → List Char → Option Pattern
  | [], frame, [] => some frame.pattern
  | _ :: _, _, [] => none
  | outer, frame, '\\' :: c :: rest =>
    if c ∈ metaCharacters then read outer (frame.push (.char c)) rest else none
  | outer, frame, '(' :: '?' :: ':' :: rest => read (frame :: outer) .start rest
  | [], _, ')' :: _ => none
  | around :: outer, frame, ')' :: rest => read outer (around.push frame.pattern) rest
  | outer, frame, '|' :: rest => read outer frame.close rest
  | outer, frame, '$' :: rest => read outer (frame.push .atEnd) rest
  | outer, frame, c :: rest =>
    if c ∈ metaCharacters then none else read outer (frame.push (.char c)) rest

theorem read_plain {outer : List Frame} {frame : Frame} {c : Char} (hc : c ∉ metaCharacters)
    (rest : List Char) :
    read outer frame (c :: rest) = read outer (frame.push (.char c)) rest := by
  have hne : ∀ d ∈ metaCharacters, c ≠ d := fun d hd he => hc (he ▸ hd)
  rw [read, if_neg hc]
  · exact fun _ _ he _ => hne '\\' (by decide) he
  · exact fun _ he _ => hne '(' (by decide) he
  · exact hne '|' (by decide)
  · exact hne '$' (by decide)
  · exact fun _ he => hne ')' (by decide) he
  · exact fun _ _ _ he => hne ')' (by decide) he

/-- What the reader makes of a stretch of text, whatever is open around it and whatever follows. -/
def Reads : Level → List Char → Pattern → Prop
  | .item, text, pattern => ∀ outer frame rest,
      read outer frame (text ++ rest) = read outer (frame.push pattern) rest
  | .row, text, pattern => ∃ items, sequence items = pattern ∧ ∀ outer rows before rest,
      read outer ⟨rows, before⟩ (text ++ rest) = read outer ⟨rows, before ++ items⟩ rest
  | .choice, text, pattern => ∃ frame : Frame, frame.pattern = pattern ∧ ∀ outer rows rest,
      read outer ⟨rows, []⟩ (text ++ rest) = read outer ⟨rows ++ frame.rows, frame.items⟩ rest

theorem Reads.group {text : List Char} {pattern : Pattern} (h : Reads .choice text pattern) :
    Reads .item ('(' :: '?' :: ':' :: (text ++ [')'])) pattern := by
  obtain ⟨inner, rfl, hread⟩ := h
  intro outer frame rest
  -- the frame around the group waits on the stack until the parenthesis closes
  simp only [List.cons_append, List.append_assoc]
  rw [read, Frame.start, hread, List.nil_append, List.nil_append, read]

theorem Reads.cons {text more : List Char} {first second : Pattern} (h : Reads .item text first)
    (hmore : Reads .row more second) : Reads .row (text ++ more) (.seq first second) := by
  obtain ⟨items, rfl, hread⟩ := hmore
  refine ⟨first :: items, rfl, fun outer rows before rest => ?_⟩
  rw [List.append_assoc, h, Frame.push, hread, List.append_assoc, List.singleton_append]

theorem Reads.last {text : List Char} {pattern : Pattern} (h : Reads .row text pattern) :
    Reads .choice text pattern := by
  obtain ⟨items, rfl, hread⟩ := h
  refine ⟨⟨[], items⟩, rfl, fun outer rows rest => ?_⟩
  rw [hread, List.append_nil, List.nil_append]

theorem Reads.bar {text more : List Char} {first second : Pattern} (h : Reads .row text first)
    (hmore : Reads .choice more second) :
    Reads .choice (text ++ '|' :: more) (.either first second) := by
  obtain ⟨items, rfl, hread⟩ := h
  obtain ⟨frame, rfl, hreads⟩ := hmore
  refine ⟨⟨sequence items :: frame.rows, frame.items⟩, rfl, fun outer rows rest => ?_⟩
  rw [List.append_assoc, hread, List.cons_append, read, Frame.close, hreads, List.nil_append,
    List.append_assoc, List.singleton_append]

theorem reads_of_spells {level : Level} {text : List Char} {pattern : Pattern}
    (h : Spells level text pattern) : Reads level text pattern := by
  induction h with
  | plain hc => exact fun outer frame rest => read_plain hc rest
  | escaped hc =>
    intro outer frame rest
    rw [List.cons_append, List.singleton_append, read, if_pos hc]
  | atEnd => exact fun outer frame rest => by rw [List.singleton_append, read]
  | group _ ih => exact ih.group
  | nil => exact ⟨[], rfl, fun outer rows before rest => by rw [List.append_nil, List.nil_append]⟩
  | cons _ _ ih ihmore => exact ih.cons ihmore
  | last _ ih => exact ih.last
  | bar _ _ ih ihmore => exact ih.bar ihmore

theorem read_of_spells {text : List Char} {pattern : Pattern} (h : Spells .choice text pattern) :
    read [] .start text = some pattern := by
  obtain ⟨frame, rfl, hread⟩ := reads_of_spells h
  have hwhole := hread [] [] []
  rwa [List.append_nil, read] at hwhole

/-! ## The engine -/

def escape : List Char → List Char
  | [] => []
  | c :: rest => if c ∈ metaCharacters then '\\' :: c :: escape rest else c :: escape rest

theorem spells_escape (text : List Char) : Spells .row (escape text) (literal text) := by
  induction text with
  | nil => exact .nil
  | cons c rest ih =>
    rw [escape]
    split
    · rename_i hc
      exact .cons (.escaped hc) ih
    · rename_i hc
      exact .cons (.plain hc) ih

/-- The engine that reads and searches as above, and refuses what it cannot read. -/
def engine : Engine where
  Regex := Pattern
  Fault := Unit
  escape text := String.ofList (escape text.toList)
  compile source := match read [] .start source.toList with
    | some pattern => .ok pattern
    | none => .error ()
  isMatch pattern text := (pattern.search? text.toList).isSome
  find? pattern text :=
    (pattern.search? text.toList).map fun before => (String.ofList before).utf8ByteSize

theorem compile_of_spells {source : String} {pattern : Pattern}
    (h : Spells .choice source.toList pattern) : engine.compile source = .ok pattern := by
  simp only [engine, read_of_spells h]

theorem eq_of_compile {source : String} {regex pattern : Pattern}
    (hcompile : engine.compile source = .ok regex) (h : Spells .choice source.toList pattern) :
    pattern = regex :=
  Except.ok.inj ((compile_of_spells h).symm.trans hcompile)

theorem findsLeftmost_engine : engine.FindsLeftmost where
  spells_escape text := by
    change Spells .row (String.ofList (escape text.toList)).toList _
    rw [String.toList_ofList]
    exact spells_escape text.toList
  isMatch_iff {source regex pattern} hcompile hspells text := by
    obtain rfl := eq_of_compile hcompile hspells
    change (pattern.search? text.toList).isSome = true ↔ _
    rw [Option.isSome_iff_exists]
    constructor
    · rintro ⟨before, hsearch⟩
      exact ⟨before, (search?_eq_some_iff.mp hsearch).occurs⟩
    · rintro ⟨before, hoccurs⟩
      exact exists_search? hoccurs
  find?_eq_some_iff {source regex pattern} hcompile hspells text start := by
    obtain rfl := eq_of_compile hcompile hspells
    change Option.map _ (pattern.search? text.toList) = some start ↔ _
    rw [Option.map_eq_some_iff]
    exact exists_congr fun before => and_congr search?_eq_some_iff eq_comm

end Pattern

end Folio
