import Folio.Proofs.CommandLine.Precedence
import Folio.Proofs.Json.Writing
/-!
# Values on the command line

A global given as JSON has the value that the JSON stands for, however it is spelled. Anything else is
taken as a string.
-/

namespace Folio.CommandLine

open Json (CharText Exact IsDocument Space)

variable {value : Json} {text : String}

theorem valueOfText_of_isDocument (h : IsDocument value text) : valueOfText text = value := by
  rw [valueOfText, Json.read_eq_ok_iff.mpr h]
  rfl

theorem valueOfText_of_not_isDocument (h : ∀ value, ¬ IsDocument value text) :
    valueOfText text = .string text := by
  rw [valueOfText]
  cases hr : Json.read text with
  | error fault => rfl
  | ok value => exact absurd (Json.read_eq_ok_iff.mp hr) (h value)

theorem parseGlobal_append {key : String} (hne : key ≠ "") (hk : '=' ∉ key.toList) (text : String) :
    parseGlobal (key ++ "=" ++ text) = .ok (key, valueOfText text) :=
  parseGlobal_eq_ok.mpr ⟨hne, hk, text, rfl, rfl⟩

/-- After a key and an equals sign stands a value: that of a JSON document, in any of the ways it can be
spelled, the one in which it is written among them; or else the text itself. -/
theorem json_arrives {key : String} (hne : key ≠ "") (hk : '=' ∉ key.toList) :
    (∀ value, Exact 127 value → IsDocument value value.text ∧
      parseGlobal (key ++ "=" ++ value.text) = .ok (key, value)) ∧
    (∀ value text, IsDocument value text →
      parseGlobal (key ++ "=" ++ text) = .ok (key, value)) ∧
    ∀ text, (∀ value, ¬ IsDocument value text) →
      parseGlobal (key ++ "=" ++ text) = .ok (key, .string text) := by
  have hread : ∀ value text, IsDocument value text →
      parseGlobal (key ++ "=" ++ text) = .ok (key, value) := by
    intro value text h
    rw [parseGlobal_append hne hk, valueOfText_of_isDocument h]
  refine ⟨fun value hx => ⟨Json.isDocument_text hx, hread value value.text (Json.isDocument_text hx)⟩,
    hread, fun text h => ?_⟩
  rw [parseGlobal_append hne hk, valueOfText_of_not_isDocument h]

/-- A value with the least and the greatest integer, an empty key and a text to be escaped. -/
def oddValue : Json :=
  .object [("=", .array [.int (-(2 ^ 63)), .int (2 ^ 64 - 1), .array []]),
    ("", .object [("a", .string "\"x=1\"\\\n\x00é"), ("b", .null), ("c", .bool true)])]

theorem exact_oddValue : Exact 127 oddValue := by
  refine .object (by decide) (List.forall_mem_cons.mpr ⟨.array (List.forall_mem_cons.mpr ⟨?_,
    List.forall_mem_cons.mpr ⟨?_, List.forall_mem_singleton.mpr ?_⟩⟩), List.forall_mem_singleton.mpr
    (.object (by decide) (List.forall_mem_cons.mpr ⟨?_, List.forall_mem_cons.mpr ⟨?_,
      List.forall_mem_singleton.mpr ?_⟩⟩))⟩)
  · exact .int (by decide) (by decide)
  · exact .int (by decide) (by decide)
  · exact .array (List.forall_mem_nil _)
  · exact .string _
  · exact .null
  · exact .bool true

theorem isDocument_escaped : IsDocument (.string "😀/") " \"\\ud83d\\ude00\\/\" " := by
  have hspace : Space [' '] := List.forall_mem_singleton.mpr rfl
  have hchars : "😀/".toList = ['😀', '/'] := by decide +kernel
  have hface : CharText '😀' ['\\', 'u', 'd', '8', '3', 'd', '\\', 'u', 'd', 'e', '0', '0'] :=
    .escape (.pair ⟨'d', '8', '3', 'd', rfl, rfl⟩ ⟨'d', 'e', '0', '0', rfl, rfl⟩ (by decide)
      (by decide) (by decide) (by decide) rfl)
  have hslash : CharText '/' ['\\', '/'] := .escape (.letter (by decide))
  have hpieces := List.Forall₂.cons hface (.cons hslash .nil)
  rw [← hchars] at hpieces
  exact ⟨[' '], _, [' '], hspace, hspace, .scalar (.string ⟨_, hpieces, rfl⟩), by decide +kernel⟩

theorem json_arrives_odd :
    parseGlobal ("site" ++ "=" ++ oddValue.text) = .ok ("site", oddValue) ∧
    parseGlobal ("s" ++ "=" ++ " \"\\ud83d\\ude00\\/\" ") = .ok ("s", .string "😀/") ∧
    parseGlobal ("s" ++ "=" ++ "[1,]") = .ok ("s", .string "[1,]") := by
  refine ⟨((json_arrives (by decide) (by decide)).1 oddValue exact_oddValue).2,
    (json_arrives (by decide) (by decide)).2.1 _ _ isDocument_escaped,
    (json_arrives (by decide) (by decide)).2.2 _ fun value h => ?_⟩
  have hfault : faultOf? (Json.read "[1,]") ≠ none := by decide +kernel
  rw [Json.read_eq_ok_iff.mpr h] at hfault
  exact hfault rfl

end Folio.CommandLine
