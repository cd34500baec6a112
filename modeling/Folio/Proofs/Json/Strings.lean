import Folio.Proofs.Json.Grammar
import Folio.Proofs.Outcome
import Mathlib.Data.Nat.Init
/-!
# Strings in JSON

A string is read from just the texts that stand for it, escapes of every kind included, and what is
written for it is one of them.
-/

namespace Folio.Json

variable {α β : Type}

/-- A reader has taken a value from a text and left the rest. -/
def Leaves {text : List Char} (outcome : Except Fault (α × Rest text)) (value : α)
    (rest : List Char) : Prop :=
  ∃ h, outcome = .ok (value, ⟨rest, h⟩)

theorem leaves_bind {text text' : List Char} {first : Except Fault (α × Rest text)}
    {next : α × Rest text → Except Fault (β × Rest text')} {value : β} {rest : List Char} :
    Leaves (first >>= next) value rest ↔ ∃ taken left h, first = .ok (taken, ⟨left, h⟩) ∧
      Leaves (next (taken, ⟨left, h⟩)) value rest := by
  cases first with
  | error fault =>
    constructor
    · rintro ⟨_, h⟩
      cases h
    · rintro ⟨_, _, _, h, -⟩
      cases h
  | ok found =>
    obtain ⟨taken, left, h⟩ := found
    constructor
    · exact fun hn => ⟨taken, left, h, rfl, hn⟩
    · rintro ⟨_, _, _, he, hn⟩
      cases he
      exact hn

theorem leaves_ok {text : List Char} {found value : α} {left : Rest text} {rest : List Char} :
    Leaves (.ok (found, left) : Except Fault (α × Rest text)) value rest ↔
      found = value ∧ left.1 = rest := by
  constructor
  · rintro ⟨_, h⟩
    cases h
    exact ⟨rfl, rfl⟩
  · rintro ⟨rfl, rfl⟩
    exact ⟨left.2, rfl⟩

theorem not_leaves_error {text : List Char} {fault : Fault} {value : α} {rest : List Char} :
    ¬ Leaves (.error fault : Except Fault (α × Rest text)) value rest := by
  rintro ⟨_, h⟩
  cases h

/-! ## Escapes -/

theorem hexValue?_lt {c : Char} {value : Nat} (h : Text.hexValue? c = some value) : value < 16 := by
  have hzero : ('0' : Char).toNat = 48 := rfl
  have hlower : ('a' : Char).toNat = 97 := rfl
  have hupper : ('A' : Char).toNat = 65 := rfl
  simp only [Text.hexValue?, Text.digitValue, Char.isDigit, Char.le_def, UInt32.le_iff_toNat_le,
    Bool.and_eq_true, decide_eq_true_eq] at h
  split at h
  · rename_i hd
    cases h
    have hnine : c.toNat ≤ 57 := hd.2
    omega
  · split at h
    · rename_i hd
      cases h
      have hf : c.toNat ≤ 102 := hd.2
      omega
    · split at h
      · rename_i hd
        cases h
        have hf : c.toNat ≤ 70 := hd.2
        omega
      · cases h

theorem hexFour?_le {a b c d : Char} {number : Nat} (h : hexFour? a b c d = some number) :
    number ≤ 0xFFFF := by
  simp only [hexFour?, Option.bind_eq_bind, Option.bind_eq_some_iff, Option.pure_def,
    Option.some.injEq] at h
  obtain ⟨x, hx, y, hy, z, hz, w, hw, rfl⟩ := h
  have := hexValue?_lt hx
  have := hexValue?_lt hy
  have := hexValue?_lt hz
  have := hexValue?_lt hw
  omega

theorem HexText.le {number : Nat} {text : List Char} (h : HexText number text) : number ≤ 0xFFFF := by
  obtain ⟨a, b, c, d, -, hn⟩ := h
  exact hexFour?_le hn

theorem toNat_ofNat {number : Nat} (h : number.isValidChar) : (Char.ofNat number).toNat = number := by
  rw [Char.ofNat, dif_pos h]
  rfl

theorem leaves_readHex {text rest : List Char} {number : Nat} :
    Leaves (readHex text) number rest ↔ ∃ digits, HexText number digits ∧ text = digits ++ rest := by
  constructor
  · intro h
    unfold readHex at h
    split at h
    · rename_i a b c d after
      split at h
      · rename_i found hfound
        obtain ⟨rfl, rfl⟩ := leaves_ok.mp h
        exact ⟨_, ⟨a, b, c, d, rfl, hfound⟩, rfl⟩
      · exact absurd h not_leaves_error
    · split at h <;> exact absurd h not_leaves_error
  · rintro ⟨_, ⟨a, b, c, d, rfl, hfound⟩, rfl⟩
    show Leaves (readHex (a :: b :: c :: d :: rest)) number rest
    rw [readHex]
    split
    · rename_i found hfound'
      cases hfound.symm.trans hfound'
      exact leaves_ok.mpr ⟨rfl, rfl⟩
    · rename_i hfound'
      cases hfound.symm.trans hfound'

theorem leaves_readUnicode {text rest : List Char} {c : Char} :
    Leaves (readUnicode text) c rest ↔
      ∃ digits, EscapeText c ('u' :: digits) ∧ text = digits ++ rest := by
  rw [readUnicode, leaves_bind]
  constructor
  · rintro ⟨number, left, hlt, hread, h⟩
    obtain ⟨digits, hd, rfl⟩ := leaves_readHex.mp ⟨hlt, hread⟩
    have hle := hd.le
    dsimp only at h
    split at h
    · exact absurd h not_leaves_error
    · split at h
      · rename_i hhigh
        split at h
        · obtain ⟨low, left', hlt', hread', h⟩ := leaves_bind.mp h
          obtain ⟨more, hm, rfl⟩ := leaves_readHex.mp ⟨hlt', hread'⟩
          dsimp only at h
          split at h
          · rename_i hlow
            obtain ⟨rfl, rfl⟩ := leaves_ok.mp h
            refine ⟨_, .pair hd hm hhigh.1 hhigh.2 hlow.1 hlow.2 (toNat_ofNat ?_), by simp⟩
            exact .inr (by omega)
          · exact absurd h not_leaves_error
        all_goals exact absurd h not_leaves_error
      · obtain ⟨rfl, rfl⟩ := leaves_ok.mp h
        refine ⟨digits, .number ?_, rfl⟩
        rwa [toNat_ofNat (show number < 0xD800 ∨ 0xDFFF < number ∧ number < 0x110000 by omega)]
  · rintro ⟨digits, he, rfl⟩
    cases he with
    | letter hl =>
      have hu : 'u' ∈ escapeLetters.map Prod.fst := List.mem_map_of_mem hl
      exact absurd hu (by decide)
    | number hd =>
      obtain ⟨hlt, hread⟩ := leaves_readHex.mpr ⟨digits, hd, rfl⟩
      refine ⟨c.toNat, rest, hlt, hread, ?_⟩
      have hvalid : c.toNat < 0xD800 ∨ 0xDFFF < c.toNat ∧ c.toNat < 0x110000 := c.valid
      dsimp only
      rw [if_neg (by omega), if_neg (by omega)]
      exact leaves_ok.mpr ⟨Char.ofNat_toNat c, rfl⟩
    | @pair high low digits more hd hm hlow hhigh hlow' hhigh' hc =>
      obtain ⟨hlt, hread⟩ := leaves_readHex.mpr
        ⟨digits, hd, List.append_assoc digits ('\\' :: 'u' :: more) rest⟩
      obtain ⟨hlt', hread'⟩ := leaves_readHex.mpr ⟨more, hm, rfl⟩
      refine ⟨high, _, hlt, hread, ?_⟩
      dsimp only
      rw [if_neg (by omega), if_pos ⟨hlow, hhigh⟩]
      refine leaves_bind.mpr ⟨low, rest, hlt', hread', ?_⟩
      dsimp only
      rw [if_pos ⟨hlow', hhigh'⟩, ← hc]
      exact leaves_ok.mpr ⟨Char.ofNat_toNat c, rfl⟩

theorem leaves_readEscape {text rest : List Char} {c : Char} :
    Leaves (readEscape text) c rest ↔ ∃ piece, EscapeText c piece ∧ text = piece ++ rest := by
  constructor
  · intro h
    unfold readEscape at h
    split at h
    · exact absurd h not_leaves_error
    · rename_i first more
      dsimp only at h
      split at h
      case h_9 =>
        obtain ⟨found, left, hlt, hread, h⟩ := leaves_bind.mp h
        obtain ⟨rfl, rfl⟩ := leaves_ok.mp h
        obtain ⟨digits, hd, rfl⟩ := leaves_readUnicode.mp ⟨hlt, hread⟩
        exact ⟨_, hd, rfl⟩
      case h_10 => exact absurd h not_leaves_error
      all_goals
        obtain ⟨rfl, rfl⟩ := leaves_ok.mp h
        exact ⟨_, .letter (by decide), rfl⟩
  · rintro ⟨piece, he, rfl⟩
    cases he with
    | @letter letter hl =>
      simp only [escapeLetters, List.mem_cons, Prod.mk.injEq, List.not_mem_nil, or_false] at hl
      rcases hl with ⟨rfl, rfl⟩ | ⟨rfl, rfl⟩ | ⟨rfl, rfl⟩ | ⟨rfl, rfl⟩ | ⟨rfl, rfl⟩ | ⟨rfl, rfl⟩ |
        ⟨rfl, rfl⟩ | ⟨rfl, rfl⟩ <;> exact ⟨_, rfl⟩
    | @number digits hd =>
      obtain ⟨hlt, hread⟩ := leaves_readUnicode.mpr ⟨digits, .number hd, rfl⟩
      exact leaves_bind.mpr ⟨c, rest, hlt, hread, leaves_ok.mpr ⟨rfl, rfl⟩⟩
    | pair hd hm hlow hhigh hlow' hhigh' hc =>
      obtain ⟨hlt, hread⟩ := leaves_readUnicode.mpr
        ⟨_, .pair hd hm hlow hhigh hlow' hhigh' hc, rfl⟩
      exact leaves_bind.mpr ⟨c, rest, hlt, hread, leaves_ok.mpr ⟨rfl, rfl⟩⟩

/-! ## Strings -/

theorem leaves_readQuoted_step {text chars rest : List Char} :
    Leaves (readQuoted text) chars rest ↔ (chars = [] ∧ text = '"' :: rest) ∨
      ∃ c more piece after, chars = c :: more ∧ CharText c piece ∧ text = piece ++ after ∧
        Leaves (readQuoted after) more rest := by
  constructor
  · intro h
    rw [readQuoted.eq_def] at h
    split at h
    · exact absurd h not_leaves_error
    · obtain ⟨rfl, rfl⟩ := leaves_ok.mp h
      exact .inl ⟨rfl, rfl⟩
    · obtain ⟨c, after, hlt, hread, h⟩ := leaves_bind.mp h
      obtain ⟨more, left, hlt', hread', h⟩ := leaves_bind.mp h
      obtain ⟨rfl, rfl⟩ := leaves_ok.mp h
      obtain ⟨piece, he, rfl⟩ := leaves_readEscape.mp ⟨hlt, hread⟩
      exact .inr ⟨c, more, _, after, rfl, .escape he, rfl, hlt', hread'⟩
    · rename_i c after hquote hslash
      split at h
      · exact absurd h not_leaves_error
      · rename_i hcontrol
        obtain ⟨more, left, hlt', hread', h⟩ := leaves_bind.mp h
        obtain ⟨rfl, rfl⟩ := leaves_ok.mp h
        exact .inr ⟨c, more, [c], after, rfl, .plain hquote hslash (Nat.le_of_not_lt hcontrol), rfl,
          hlt', hread'⟩
  · rintro (⟨rfl, rfl⟩ | ⟨c, more, piece, after, rfl, hc, rfl, hlt, hread⟩)
    · rw [readQuoted]
      exact leaves_ok.mpr ⟨rfl, rfl⟩
    · cases hc with
      | plain hquote hslash hcontrol =>
        rw [List.singleton_append, readQuoted, if_neg (Nat.not_lt.mpr hcontrol)]
        · exact leaves_bind.mpr ⟨more, rest, hlt, hread, leaves_ok.mpr ⟨rfl, rfl⟩⟩
        · exact hquote
        · exact hslash
      | escape he =>
        obtain ⟨hlt', hread'⟩ := leaves_readEscape.mpr ⟨_, he, rfl⟩
        rw [List.cons_append, readQuoted]
        exact leaves_bind.mpr ⟨c, after, hlt', hread',
          leaves_bind.mpr ⟨more, rest, hlt, hread, leaves_ok.mpr ⟨rfl, rfl⟩⟩⟩

/-- A string is read from just the texts for it. -/
theorem leaves_readQuoted {text chars rest : List Char} :
    Leaves (readQuoted text) chars rest ↔
      ∃ pieces, List.Forall₂ CharText chars pieces ∧ text = pieces.flatten ++ '"' :: rest := by
  induction chars generalizing text with
  | nil =>
    rw [leaves_readQuoted_step]
    constructor
    · rintro (⟨-, rfl⟩ | ⟨_, _, _, _, h, -⟩)
      · exact ⟨[], .nil, rfl⟩
      · cases h
    · rintro ⟨_, ⟨⟩, rfl⟩
      exact .inl ⟨rfl, rfl⟩
  | cons c more ih =>
    rw [leaves_readQuoted_step]
    constructor
    · rintro (⟨h, -⟩ | ⟨_, _, piece, after, h, hc, rfl, hread⟩)
      · cases h
      · cases h
        obtain ⟨pieces, hp, rfl⟩ := ih.mp hread
        exact ⟨piece :: pieces, .cons hc hp, by simp⟩
    · rintro ⟨_, _ | ⟨hc, hp⟩, rfl⟩
      exact .inr ⟨c, more, _, _, rfl, hc, by simp, ih.mpr ⟨_, hp, rfl⟩⟩

/-! ## Writing strings -/

theorem charText_quoteChar (c : Char) : CharText c (quoteChar c) := by
  have hdigits : ∀ number < 0x20,
      hexFour? '0' '0' (hexDigit (number / 16)) (hexDigit (number % 16)) = some number := by decide
  rw [quoteChar]
  by_cases hquote : c = '"'
  · subst hquote
    exact .escape (.letter (by decide))
  · rw [if_neg hquote]
    by_cases hslash : c = '\\'
    · subst hslash
      exact .escape (.letter (by decide))
    · rw [if_neg hslash]
      split
      · rename_i hcontrol
        exact .escape (.number ⟨_, _, _, _, rfl, hdigits _ hcontrol⟩)
      · rename_i hcontrol
        exact .plain hquote hslash (Nat.le_of_not_lt hcontrol)

theorem quotedText_quote (chars : List Char) : QuotedText chars (quote chars) := by
  refine ⟨chars.map quoteChar, ?_, ?_⟩
  · rw [List.forall₂_map_right_iff]
    exact List.forall₂_same.mpr fun c _ => charText_quoteChar c
  · rw [quote, List.flatMap_def]
    rfl

end Folio.Json
