import Folio.Proofs.Json.Numbers
/-!
# Reading JSON by its grammar

A text is read just if the grammar has a value for it, and then as this value. Arrays and objects are
read alike: one part after the other with commas between them, up to a closing bracket.
-/

namespace Folio.Json

variable {α : Type} {text rest piece : List Char}

/-! ## Space -/

theorem skipSpace_eq_iff : skipSpace text = rest ↔
    (∃ before, Space before ∧ text = before ++ rest) ∧ ∀ c ∈ rest.head?, isSpace c = false := by
  constructor
  · rintro rfl
    refine ⟨⟨text.takeWhile isSpace, List.all_eq_true.mp List.all_takeWhile,
      List.takeWhile_append_dropWhile.symm⟩, fun c hc => ?_⟩
    have hnot := List.head?_dropWhile_not isSpace text
    rw [← skipSpace, hc] at hnot
    exact hnot
  · rintro ⟨⟨before, hb, rfl⟩, hr⟩
    rw [skipSpace, List.dropWhile_append_of_pos hb]
    cases rest with
    | nil => rfl
    | cons c rest => rw [List.dropWhile_cons_of_neg (by simp [hr c rfl])]

theorem skipSpace_append {before : List Char} (h : Space before)
    (hr : ∀ c ∈ rest.head?, isSpace c = false) : skipSpace (before ++ rest) = rest :=
  skipSpace_eq_iff.mpr ⟨⟨before, h, rfl⟩, hr⟩

theorem space_nil : Space [] :=
  List.forall_mem_nil _

theorem stops_cons {c : Char} (h : c ∈ [',', ']', '\x7d']) : Stops (c :: rest) := by
  rintro _ ⟨⟩
  simp only [List.mem_cons, List.not_mem_nil, or_false] at h
  rcases h with rfl | rfl | rfl <;> decide

theorem Stops.append_space {before : List Char} (h : Space before) (hr : Stops rest) :
    Stops (before ++ rest) := by
  cases before with
  | nil => exact hr
  | cons c before =>
    rintro _ ⟨⟩
    have hc : c = ' ' ∨ c = '\n' ∨ c = '\t' ∨ c = '\r' := by
      simpa [isSpace, or_assoc] using h c List.mem_cons_self
    rcases hc with rfl | rfl | rfl | rfl <;> decide

theorem Padded.prepend {spells : α → List Char → Prop} {value : α} {before : List Char}
    (h : Padded spells value piece) (hb : Space before) : Padded spells value (before ++ piece) := by
  obtain ⟨lead, inner, after, hl, ha, hs, rfl⟩ := h
  exact ⟨before ++ lead, inner, after, List.forall_mem_append.mpr ⟨hb, hl⟩, ha, hs, by simp⟩

theorem separate_append (before : List Char) (pieces : List (List Char)) :
    separate ((before ++ piece) :: pieces) = before ++ separate (piece :: pieces) := by
  cases pieces with
  | nil => rfl
  | cons next pieces => simp [separate]

/-! ## Parts between commas -/

/-- A reader of one part, as what it takes from a text and what it leaves, reads by a grammar. A part
begins with no space but with a character of its own kind. -/
structure Reads (one : List Char → α → List Char → Prop) (spells : α → List Char → Prop)
    (first : Char → Prop) : Prop where
  sound {text rest : List Char} {value : α} : one text value rest →
    ∃ piece, spells value piece ∧ text = piece ++ rest
  complete {piece rest : List Char} {value : α} : spells value piece → Stops rest →
    one (piece ++ rest) value rest
  begins {piece : List Char} {value : α} : spells value piece →
    ∃ c more, piece = c :: more ∧ isSpace c = false ∧ first c

/-- Readers of several parts: of at least one from its first character on, and of any number up to a
closing bracket. -/
structure Lists (one : List Char → α → List Char → Prop) (first : Char → Prop) (close : Char)
    (many whole : List Char → List α → List Char → Prop) : Prop where
  bracket : close = ']' ∨ close = '\x7d'
  step {text rest : List Char} {values : List α} : many text values rest ↔
    ∃ value after, one text value after ∧
      ((values = [value] ∧ skipSpace after = close :: rest) ∨
        ∃ values' more c next, values = value :: values' ∧ skipSpace after = ',' :: more ∧
          skipSpace more = c :: next ∧ first c ∧ many (c :: next) values' rest)
  start {text rest : List Char} {values : List α} : whole text values rest ↔
    (values = [] ∧ skipSpace text = close :: rest) ∨
      ∃ c next, skipSpace text = c :: next ∧ first c ∧ many (c :: next) values rest

namespace Lists

variable {one : List Char → α → List Char → Prop} {first : Char → Prop} {close : Char}
  {many whole : List Char → List α → List Char → Prop} {spells : α → List Char → Prop}
  {values : List α}

theorem ends (h : Lists one first close many whole) (rest : List Char) :
    Stops (close :: rest) ∧ ∀ c ∈ (close :: rest).head?, isSpace c = false := by
  rcases h.bracket with rfl | rfl
  · exact ⟨stops_cons (by decide), by rintro _ ⟨⟩; rfl⟩
  · exact ⟨stops_cons (by decide), by rintro _ ⟨⟩; rfl⟩

theorem listed_of_many (h : Lists one first close many whole) (hr : Reads one spells first)
    (hm : many text values rest) : values ≠ [] ∧
      ∃ body, Listed spells values body ∧ text = body ++ close :: rest := by
  induction values generalizing text with
  | nil =>
    obtain ⟨_, _, -, ⟨h, -⟩ | ⟨_, _, _, _, h, -⟩⟩ := h.step.mp hm
    · cases h
    · cases h
  | cons value values ih =>
    refine ⟨List.cons_ne_nil _ _, ?_⟩
    obtain ⟨_, after, ho, ⟨he, hs⟩ | ⟨values', more, c, next, he, hs, hn, -, hrest⟩⟩ :=
      h.step.mp hm
    · cases he
      obtain ⟨piece, hp, rfl⟩ := hr.sound ho
      obtain ⟨⟨behind, hb, rfl⟩, -⟩ := skipSpace_eq_iff.mp hs
      exact ⟨piece ++ behind, ⟨[piece ++ behind], .cons ⟨[], piece, behind, space_nil, hb, hp, rfl⟩
        .nil, rfl⟩, by simp⟩
    · cases he
      obtain ⟨piece, hp, rfl⟩ := hr.sound ho
      obtain ⟨⟨behind, hb, rfl⟩, -⟩ := skipSpace_eq_iff.mp hs
      obtain ⟨⟨lead, hl, rfl⟩, -⟩ := skipSpace_eq_iff.mp hn
      obtain ⟨hne, body, hbody, htext⟩ := ih hrest
      obtain ⟨value', values, rfl⟩ := List.exists_cons_of_ne_nil hne
      obtain ⟨_, _ | ⟨hpad, hpieces⟩, rfl⟩ := hbody
      refine ⟨_, ⟨_, .cons ⟨[], piece, behind, space_nil, hb, hp, rfl⟩
        (.cons (hpad.prepend hl) hpieces), rfl⟩, ?_⟩
      rw [separate, separate_append, htext]
      · simp
      · exact nofun

theorem many_of_listed (h : Lists one first close many whole) (hr : Reads one spells first)
    {value : α} {body : List Char} (hb : Listed spells (value :: values) body) :
    ∃ c next, skipSpace (body ++ close :: rest) = c :: next ∧ first c ∧
      many (c :: next) (value :: values) rest := by
  obtain ⟨hstops, hclose⟩ := h.ends rest
  induction values generalizing value body with
  | nil =>
    obtain ⟨_, _ | ⟨⟨lead, inner, behind, hl, hbehind, hs, rfl⟩, _ | _⟩, rfl⟩ := hb
    have hone := hr.complete hs (.append_space hbehind hstops)
    have hend := skipSpace_append hbehind hclose
    obtain ⟨c, more, rfl, hspace, hc⟩ := hr.begins hs
    refine ⟨c, more ++ (behind ++ close :: rest), ?_, hc,
      h.step.mpr ⟨value, _, hone, .inl ⟨rfl, hend⟩⟩⟩
    rw [separate, List.append_assoc, skipSpace_append hl (by rintro _ ⟨⟩; exact hspace)]
    simp
  | cons value' values ih =>
    obtain ⟨_, _ | ⟨⟨lead, inner, behind, hl, hbehind, hs, rfl⟩, _ | ⟨hpad, hpieces⟩⟩, rfl⟩ := hb
    obtain ⟨c', next', hnext, hc', hm⟩ := ih ⟨_, .cons hpad hpieces, rfl⟩
    have hone : ∀ tail, one (inner ++ (behind ++ ',' :: tail)) value (behind ++ ',' :: tail) :=
      fun tail => hr.complete hs (.append_space hbehind (stops_cons (by decide)))
    have hcomma : ∀ tail, skipSpace (behind ++ ',' :: tail) = ',' :: tail :=
      fun tail => skipSpace_append hbehind (by rintro _ ⟨⟩; rfl)
    obtain ⟨c, more, rfl, hspace, hc⟩ := hr.begins hs
    refine ⟨c, more ++ (behind ++ ',' :: _), ?_, hc, h.step.mpr ⟨value, _, hone _,
      .inr ⟨value' :: values, _, c', next', rfl, hcomma _, hnext, hc', hm⟩⟩⟩
    rw [separate, List.append_assoc, List.append_assoc,
      skipSpace_append hl (by rintro _ ⟨⟩; exact hspace)]
    · simp
    · exact nofun

theorem whole_iff (h : Lists one first close many whole) (hr : Reads one spells first) :
    whole text values rest ↔ ∃ body, Listed spells values body ∧ text = body ++ close :: rest := by
  rw [h.start]
  constructor
  · rintro (⟨rfl, hs⟩ | ⟨c, next, hs, -, hm⟩)
    · obtain ⟨⟨body, hb, rfl⟩, -⟩ := skipSpace_eq_iff.mp hs
      exact ⟨body, hb, rfl⟩
    · obtain ⟨⟨lead, hl, rfl⟩, -⟩ := skipSpace_eq_iff.mp hs
      obtain ⟨hne, body, hb, hnext⟩ := listed_of_many h hr hm
      obtain ⟨value, values, rfl⟩ := List.exists_cons_of_ne_nil hne
      obtain ⟨_, _ | ⟨hpad, hpieces⟩, rfl⟩ := hb
      exact ⟨_, ⟨_, .cons (hpad.prepend hl) hpieces, rfl⟩, by
        rw [separate_append, hnext, List.append_assoc]⟩
  · rintro ⟨body, hb, rfl⟩
    cases values with
    | nil => exact .inl ⟨rfl, skipSpace_append hb (h.ends rest).2⟩
    | cons value values => exact .inr (many_of_listed h hr hb)

end Lists

/-! ## Arrays -/

def Takes (item : ItemReader) (text : List Char) (value : Json) (rest : List Char) : Prop :=
  Leaves (item text) value rest

theorem leaves_readItems {item : ItemReader} {values : List Json} :
    Leaves (readItems item text) values rest ↔ ∃ value after, Takes item text value after ∧
      ((values = [value] ∧ skipSpace after = ']' :: rest) ∨
        ∃ values' more c next, values = value :: values' ∧ skipSpace after = ',' :: more ∧
          skipSpace more = c :: next ∧ c ≠ ']' ∧
          Leaves (readItems item (c :: next)) values' rest) := by
  rw [readItems.eq_def, leaves_bind]
  constructor
  · rintro ⟨value, after, hlt, hitem, h⟩
    refine ⟨value, after, ⟨hlt, hitem⟩, ?_⟩
    dsimp only at h
    split at h
    case h_2 hs =>
      obtain ⟨rfl, rfl⟩ := leaves_ok.mp h
      exact .inl ⟨rfl, hs⟩
    case h_3 more hs =>
      split at h
      case h_3 hnil hbracket =>
        obtain ⟨values', left, hlt', hread, h⟩ := leaves_bind.mp h
        obtain ⟨rfl, rfl⟩ := leaves_ok.mp h
        obtain ⟨c, next, hnext⟩ := List.exists_cons_of_ne_nil hnil
        rw [hnext] at hbracket
        refine .inr ⟨values', more, c, next, rfl, hs, hnext, fun hc => hbracket next (by rw [hc]), ?_⟩
        rw [← hnext]
        exact ⟨hlt', hread⟩
      all_goals exact absurd h not_leaves_error
    all_goals exact absurd h not_leaves_error
  · rintro ⟨value, after, ⟨hlt, hitem⟩, h⟩
    refine ⟨value, after, hlt, hitem, ?_⟩
    dsimp only
    rcases h with ⟨rfl, hs⟩ | ⟨values', more, c, next, rfl, hs, hnext, hc, hm⟩
    · split
      case h_2 hs' =>
        cases hs.symm.trans hs'
        exact leaves_ok.mpr ⟨rfl, rfl⟩
      all_goals simp_all
    · rw [← hnext] at hm
      obtain ⟨hlt', hread⟩ := hm
      split
      case h_3 hs' =>
        cases hs.symm.trans hs'
        split
        case h_2 hnext' =>
          cases hnext.symm.trans hnext'
          exact absurd rfl hc
        case h_3 => exact leaves_bind.mpr ⟨values', rest, hlt', hread, leaves_ok.mpr ⟨rfl, rfl⟩⟩
        all_goals simp_all
      all_goals simp_all

theorem leaves_readArray {item : ItemReader} {values : List Json} :
    Leaves (readArray item text) values rest ↔ (values = [] ∧ skipSpace text = ']' :: rest) ∨
      ∃ c next, skipSpace text = c :: next ∧ c ≠ ']' ∧
        Leaves (readItems item (c :: next)) values rest := by
  rw [readArray]
  constructor
  · intro h
    split at h
    case h_1 => exact absurd h not_leaves_error
    case h_2 hs =>
      obtain ⟨rfl, rfl⟩ := leaves_ok.mp h
      exact .inl ⟨rfl, hs⟩
    case h_3 hnil hbracket =>
      obtain ⟨values', left, hlt', hread, h⟩ := leaves_bind.mp h
      obtain ⟨rfl, rfl⟩ := leaves_ok.mp h
      obtain ⟨c, next, hnext⟩ := List.exists_cons_of_ne_nil hnil
      rw [hnext] at hbracket
      refine .inr ⟨c, next, hnext, fun hc => hbracket next (by rw [hc]), ?_⟩
      rw [← hnext]
      exact ⟨hlt', hread⟩
  · rintro (⟨rfl, hs⟩ | ⟨c, next, hnext, hc, hm⟩)
    · split
      case h_2 hs' =>
        cases hs.symm.trans hs'
        exact leaves_ok.mpr ⟨rfl, rfl⟩
      all_goals simp_all
    · rw [← hnext] at hm
      obtain ⟨hlt', hread⟩ := hm
      split
      case h_2 hnext' =>
        cases hnext.symm.trans hnext'
        exact absurd rfl hc
      case h_3 => exact leaves_bind.mpr ⟨values, rest, hlt', hread, leaves_ok.mpr ⟨rfl, rfl⟩⟩
      all_goals simp_all

theorem lists_readArray (item : ItemReader) : Lists (Takes item) (· ≠ ']') ']'
    (fun text values rest => Leaves (readItems item text) values rest)
    (fun text values rest => Leaves (readArray item text) values rest) where
  bracket := .inl rfl
  step := leaves_readItems
  start := leaves_readArray

/-! ## Objects -/

def TakesField (item : ItemReader) (text : List Char) (field : String × Json) (rest : List Char) :
    Prop :=
  ∃ more chars afterKey afterColon, text = '"' :: more ∧ Leaves (readQuoted more) chars afterKey ∧
    skipSpace afterKey = ':' :: afterColon ∧ Takes item (skipSpace afterColon) field.2 rest ∧
    field.1 = String.ofList chars

theorem leaves_readFields {item : ItemReader} {fields : List (String × Json)} :
    (text.head? = some '"' ∧ Leaves (readFields item text) fields rest) ↔
      ∃ field after, TakesField item text field after ∧
        ((fields = [field] ∧ skipSpace after = '\x7d' :: rest) ∨
          ∃ fields' more c next, fields = field :: fields' ∧ skipSpace after = ',' :: more ∧
            skipSpace more = c :: next ∧ c = '"' ∧ (c :: next).head? = some '"' ∧
            Leaves (readFields item (c :: next)) fields' rest) := by
  constructor
  · rintro ⟨hhead, h⟩
    obtain ⟨more, rfl⟩ := List.head?_eq_some_iff.mp hhead
    rw [readFields.eq_def, leaves_bind] at h
    obtain ⟨chars, afterKey, hlt, hkey, h⟩ := h
    dsimp only at h
    split at h
    case h_2 afterColon hcolon =>
      obtain ⟨value, after, hlt', hitem, h⟩ := leaves_bind.mp h
      refine ⟨(String.ofList chars, value), after, ⟨more, chars, afterKey, afterColon, rfl,
        ⟨hlt, hkey⟩, hcolon, ⟨hlt', hitem⟩, rfl⟩, ?_⟩
      dsimp only at h
      split at h
      case h_2 hs =>
        obtain ⟨rfl, rfl⟩ := leaves_ok.mp h
        exact .inl ⟨rfl, hs⟩
      case h_3 next hs =>
        split at h
        case h_2 more' hnext =>
          obtain ⟨fields', left, hlt'', hread, h⟩ := leaves_bind.mp h
          obtain ⟨rfl, rfl⟩ := leaves_ok.mp h
          exact .inr ⟨fields', next, '"', more', rfl, hs, hnext, rfl, rfl, hlt'', hread⟩
        all_goals exact absurd h not_leaves_error
      all_goals exact absurd h not_leaves_error
    all_goals exact absurd h not_leaves_error
  · rintro ⟨⟨key, value⟩, after, ⟨more, chars, afterKey, afterColon, rfl, ⟨hlt, hkey⟩, hcolon,
      ⟨hlt', hitem⟩, rfl⟩, h⟩
    refine ⟨rfl, ?_⟩
    rw [readFields.eq_def]
    refine leaves_bind.mpr ⟨chars, afterKey, hlt, hkey, ?_⟩
    dsimp only
    split
    case h_2 hcolon' =>
      cases hcolon.symm.trans hcolon'
      refine leaves_bind.mpr ⟨value, after, hlt', hitem, ?_⟩
      dsimp only
      rcases h with ⟨rfl, hs⟩ | ⟨fields', next, c, more', rfl, hs, hnext, rfl, -, hlt'', hread⟩
      · split
        case h_2 hs' =>
          cases hs.symm.trans hs'
          exact leaves_ok.mpr ⟨rfl, rfl⟩
        all_goals simp_all
      · split
        case h_3 hs' =>
          cases hs.symm.trans hs'
          split
          case h_2 hnext' =>
            cases hnext.symm.trans hnext'
            exact leaves_bind.mpr ⟨fields', rest, hlt'', hread, leaves_ok.mpr ⟨rfl, rfl⟩⟩
          all_goals simp_all
        all_goals simp_all
    all_goals simp_all

theorem leaves_readObject {item : ItemReader} {fields : List (String × Json)} :
    Leaves (readObject item text) fields rest ↔ (fields = [] ∧ skipSpace text = '\x7d' :: rest) ∨
      ∃ c next, skipSpace text = c :: next ∧ c = '"' ∧ (c :: next).head? = some '"' ∧
        Leaves (readFields item (c :: next)) fields rest := by
  rw [readObject]
  dsimp only
  constructor
  · intro h
    split at h
    case h_2 hs =>
      obtain ⟨rfl, rfl⟩ := leaves_ok.mp h
      exact .inl ⟨rfl, hs⟩
    case h_3 more hs =>
      obtain ⟨fields', left, hlt, hread, h⟩ := leaves_bind.mp h
      obtain ⟨rfl, rfl⟩ := leaves_ok.mp h
      exact .inr ⟨'"', more, hs, rfl, rfl, hlt, hread⟩
    all_goals exact absurd h not_leaves_error
  · rintro (⟨rfl, hs⟩ | ⟨c, next, hs, rfl, -, hlt, hread⟩)
    · split
      case h_2 hs' =>
        cases hs.symm.trans hs'
        exact leaves_ok.mpr ⟨rfl, rfl⟩
      all_goals simp_all
    · split
      case h_3 hs' =>
        cases hs.symm.trans hs'
        exact leaves_bind.mpr ⟨fields, rest, hlt, hread, leaves_ok.mpr ⟨rfl, rfl⟩⟩
      all_goals simp_all

theorem lists_readObject (item : ItemReader) : Lists (TakesField item) (· = '"') '\x7d'
    (fun text fields rest => text.head? = some '"' ∧ Leaves (readFields item text) fields rest)
    (fun text fields rest => Leaves (readObject item text) fields rest) where
  bracket := .inr rfl
  step := leaves_readFields
  start := leaves_readObject

/-- Fields are read by the grammar if their values are. -/
theorem Reads.field {item : ItemReader} {spells : Json → List Char → Prop}
    (h : Reads (Takes item) spells (· ≠ ']')) :
    Reads (TakesField item) (FieldText spells) (· = '"') where
  sound := by
    rintro text rest ⟨_, value⟩ ⟨more, chars, afterKey, afterColon, rfl, hkey, hcolon, hitem, rfl⟩
    obtain ⟨pieces, hp, rfl⟩ := leaves_readQuoted.mp hkey
    obtain ⟨⟨before, hb, rfl⟩, -⟩ := skipSpace_eq_iff.mp hcolon
    obtain ⟨inner, hi, hrest⟩ := h.sound hitem
    obtain ⟨⟨behind, ha, rfl⟩, -⟩ := skipSpace_eq_iff.mp hrest
    refine ⟨_, ⟨_, before, behind, inner, ⟨pieces, by rwa [String.toList_ofList], rfl⟩, hb, ha, hi,
      rfl⟩, by simp⟩
  complete := by
    rintro piece rest ⟨key, value⟩ ⟨_, before, behind, inner, ⟨pieces, hp, rfl⟩, hb, ha, hi, rfl⟩ hs
    obtain ⟨c, more, rfl, hspace, -⟩ := h.begins hi
    refine ⟨pieces.flatten ++ '"' :: (before ++ ':' :: (behind ++ (c :: more ++ rest))), key.toList,
      _, _, by simp, leaves_readQuoted.mpr ⟨pieces, hp, rfl⟩,
      skipSpace_append hb (by rintro _ ⟨⟩; rfl), ?_, by rw [String.ofList_toList]⟩
    rw [skipSpace_append ha (by rintro _ ⟨⟩; exact hspace)]
    exact h.complete hi hs
  begins := by
    rintro piece ⟨key, value⟩ ⟨_, before, behind, inner, ⟨pieces, -, rfl⟩, -, -, -, rfl⟩
    exact ⟨'"', _, rfl, rfl, rfl⟩

/-! ## Values -/

theorem readIdent_eq_ok {word : List Char} :
    (∃ h, readIdent word text = .ok ⟨rest, h⟩) ↔ text = word ++ rest := by
  induction word generalizing text with
  | nil =>
    constructor
    · rintro ⟨_, h⟩
      cases h
      rfl
    · rintro rfl
      exact ⟨_, rfl⟩
  | cons c word ih =>
    cases text with
    | nil =>
      constructor
      · rintro ⟨_, h⟩
        cases h
      · intro h
        cases h
    | cons d text =>
      rw [readIdent]
      constructor
      · rintro ⟨_, h⟩
        split at h
        · rename_i hc
          obtain ⟨⟨left, hle⟩, hread, h⟩ := bind_eq_ok.mp h
          cases h
          rw [hc, ih.mp ⟨hle, hread⟩, List.cons_append]
        · cases h
      · intro h
        obtain ⟨rfl, htext⟩ := List.cons.inj h
        obtain ⟨hle, hread⟩ := ih.mpr htext
        rw [if_pos rfl, hread]
        exact ⟨_, rfl⟩

theorem Spells.scalar {depth : Nat} {value : Json} (h : ScalarText value piece) :
    Spells depth value piece := by
  cases depth with
  | zero => exact h
  | succ depth => exact .inl h

theorem leaves_word {c : Char} {letters more : List Char} {found value : Json}
    {bound : ∀ left : { rest : List Char // rest.length ≤ more.length },
      left.1.length < (c :: more).length} :
    Leaves (readIdent letters more >>= fun left =>
        (.ok (found, ⟨left.1, bound left⟩) : Except Fault (Json × Rest (c :: more)))) value rest ↔
      found = value ∧ more = letters ++ rest := by
  rw [← readIdent_eq_ok]
  cases readIdent letters more with
  | error fault =>
    constructor
    · exact fun h => absurd h not_leaves_error
    · rintro ⟨-, _, h⟩
      cases h
  | ok left =>
    rw [ok_bind, leaves_ok]
    constructor
    · rintro ⟨rfl, rfl⟩
      exact ⟨rfl, left.2, rfl⟩
    · rintro ⟨rfl, _, h⟩
      cases h
      exact ⟨rfl, rfl⟩

theorem spells_of_readValue {depth : Nat} {value : Json}
    (ih : ∀ inner, depth = inner + 1 → Reads (Takes (readValue inner)) (Spells inner) (· ≠ ']'))
    (h : Takes (readValue depth) text value rest) :
    ∃ piece, Spells depth value piece ∧ text = piece ++ rest := by
  rw [Takes, readValue.eq_def] at h
  split at h
  · exact absurd h not_leaves_error
  · rename_i c more
    dsimp only at h
    split at h
    · obtain ⟨rfl, rfl⟩ := leaves_word.mp h
      exact ⟨_, .scalar .null, rfl⟩
    · obtain ⟨rfl, rfl⟩ := leaves_word.mp h
      exact ⟨_, .scalar .true, rfl⟩
    · obtain ⟨rfl, rfl⟩ := leaves_word.mp h
      exact ⟨_, .scalar .false, rfl⟩
    · obtain ⟨chars, left, hlt, hread, h⟩ := leaves_bind.mp h
      obtain ⟨rfl, rfl⟩ := leaves_ok.mp h
      obtain ⟨pieces, hp, rfl⟩ := leaves_readQuoted.mp ⟨hlt, hread⟩
      exact ⟨_, .scalar (.string ⟨pieces, by rwa [String.toList_ofList], rfl⟩), by simp⟩
    · obtain ⟨number, left, hlt, hread, h⟩ := leaves_bind.mp h
      obtain ⟨rfl, rfl⟩ := leaves_ok.mp h
      obtain ⟨numeral, piece, hn, hp, hv, rfl⟩ := numeral_of_readNumber ⟨hlt, hread⟩
      refine ⟨_, .scalar (.number hp hv), ?_⟩
      rw [hn]
      rfl
    · cases depth with
      | zero => exact absurd h not_leaves_error
      | succ depth =>
        obtain ⟨items, left, hlt, hread, h⟩ := leaves_bind.mp h
        obtain ⟨rfl, rfl⟩ := leaves_ok.mp h
        obtain ⟨body, hb, rfl⟩ :=
          ((lists_readArray _).whole_iff (ih depth rfl)).mp ⟨hlt, hread⟩
        exact ⟨_, .inr (.array hb), by simp⟩
    · cases depth with
      | zero => exact absurd h not_leaves_error
      | succ depth =>
        obtain ⟨fields, left, hlt, hread, h⟩ := leaves_bind.mp h
        obtain ⟨rfl, rfl⟩ := leaves_ok.mp h
        obtain ⟨body, hb, rfl⟩ :=
          ((lists_readObject _).whole_iff (ih depth rfl).field).mp ⟨hlt, hread⟩
        exact ⟨_, .inr (.object hb), by simp⟩
    · split at h
      · obtain ⟨numeral, piece, hn, hp, hv, htext⟩ := numeral_of_readNumber h
        refine ⟨_, .scalar (.number hp hv), ?_⟩
        rw [hn]
        exact htext
      · exact absurd h not_leaves_error

theorem takes_scalar {depth : Nat} {value : Json} (h : ScalarText value piece) (hs : Stops rest) :
    Takes (readValue depth) (piece ++ rest) value rest := by
  rw [Takes]
  cases h with
  | null =>
    rw [List.cons_append, readValue.eq_def]
    exact leaves_word.mpr ⟨rfl, rfl⟩
  | true =>
    rw [List.cons_append, readValue.eq_def]
    exact leaves_word.mpr ⟨rfl, rfl⟩
  | false =>
    rw [List.cons_append, readValue.eq_def]
    exact leaves_word.mpr ⟨rfl, rfl⟩
  | @string text quoted hq =>
    obtain ⟨pieces, hp, rfl⟩ := hq
    have hleaves : Leaves (readQuoted (pieces.flatten ++ '"' :: rest)) text.toList rest :=
      leaves_readQuoted.mpr ⟨pieces, hp, rfl⟩
    obtain ⟨hlt, hread⟩ := hleaves
    rw [List.cons_append, List.append_assoc, List.singleton_append, readValue.eq_def]
    exact leaves_bind.mpr ⟨text.toList, rest, hlt, hread,
      leaves_ok.mpr ⟨by rw [String.ofList_toList], rfl⟩⟩
  | @number numeral _ text hn hv =>
    have hread := leaves_readNumber hn hv hs
    rw [signed]
    cases hsign : numeral.negative with
    | true =>
      rw [hsign] at hread
      obtain ⟨hlt, hread⟩ := hread
      rw [if_pos rfl, List.cons_append, readValue.eq_def]
      exact leaves_bind.mpr ⟨value, rest, hlt, hread, leaves_ok.mpr ⟨rfl, rfl⟩⟩
    | false =>
      rw [hsign] at hread
      obtain ⟨⟨hw, -⟩, fraction, exponent, -, -, rfl⟩ := hn
      obtain ⟨c, more, hc, hd⟩ := hw.exists_cons
      rw [hc] at hread ⊢
      rw [if_neg Bool.false_ne_true, List.cons_append, List.cons_append, readValue.eq_def]
      dsimp only
      split <;> first
        | cases hd
        | rw [if_pos hd]
          exact hread

/-- Values are read just by the grammar, with as many arrays and objects inside one another as may
be. -/
theorem reads_readValue (depth : Nat) :
    Reads (Takes (readValue depth)) (Spells depth) (· ≠ ']') := by
  have hbegins : ∀ {depth : Nat} {piece : List Char} {value : Json}, Spells depth value piece →
      ∃ c more, piece = c :: more ∧ isSpace c = false ∧ c ≠ ']' := by
    intro depth piece value h
    obtain ⟨c, more, rfl, hc⟩ := h.begins
    exact ⟨c, more, rfl, hc.isSpace, hc.ne_bracket⟩
  induction depth with
  | zero => exact ⟨spells_of_readValue nofun, takes_scalar, hbegins⟩
  | succ depth ih =>
    refine ⟨spells_of_readValue fun inner he => by cases he; exact ih, fun h hs => ?_, hbegins⟩
    rcases h with h | h
    · exact takes_scalar h hs
    · rw [Takes]
      cases h with
      | @array items body hb =>
        obtain ⟨hlt, hread⟩ := ((lists_readArray _).whole_iff ih).mpr ⟨body, hb, rfl⟩
        rw [List.cons_append, List.append_assoc, readValue.eq_def]
        exact leaves_bind.mpr ⟨items, _, hlt, hread, leaves_ok.mpr ⟨rfl, rfl⟩⟩
      | @object fields body hb =>
        obtain ⟨hlt, hread⟩ := ((lists_readObject _).whole_iff ih.field).mpr ⟨body, hb, rfl⟩
        rw [List.cons_append, List.append_assoc, readValue.eq_def]
        exact leaves_bind.mpr ⟨fields, _, hlt, hread, leaves_ok.mpr ⟨rfl, rfl⟩⟩

/-- A text is read as a value just if it is one for it. -/
theorem read_eq_ok_iff {text : String} {value : Json} :
    read text = .ok value ↔ IsDocument value text := by
  rw [read, readChars, bind_eq_ok]
  constructor
  · rintro ⟨⟨found, left, hlt⟩, hread, h⟩
    obtain ⟨piece, hp, hskip⟩ := (reads_readValue maxDepth).sound ⟨hlt, hread⟩
    obtain ⟨⟨before, hb, htext⟩, -⟩ := skipSpace_eq_iff.mp hskip
    dsimp only at h
    split at h
    · rename_i hend
      cases h
      obtain ⟨⟨behind, ha, rfl⟩, -⟩ := skipSpace_eq_iff.mp hend
      exact ⟨before, piece, behind, hb, ha, hp, by simp [htext]⟩
    · cases h
  · rintro ⟨before, piece, behind, hb, ha, hp, htext⟩
    obtain ⟨c, more, rfl, hspace, -⟩ := (reads_readValue maxDepth).begins hp
    have hstops : Stops behind := by
      simpa using Stops.append_space ha stops_nil
    have hread := (reads_readValue maxDepth).complete hp hstops
    have hskip : skipSpace text.toList = c :: more ++ behind := by
      rw [htext]
      exact skipSpace_append hb (by rintro _ ⟨⟩; exact hspace)
    have hend : skipSpace behind = [] := skipSpace_eq_iff.mpr ⟨⟨behind, ha, by simp⟩, nofun⟩
    rw [← hskip] at hread
    obtain ⟨_, hread⟩ := hread
    refine ⟨_, hread, ?_⟩
    dsimp only
    rw [hend]
    rfl

end Folio.Json
