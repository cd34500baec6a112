import Folio.Text.Blank
import Folio.Text.Search
/-!
# References

The partials a source names, found by searching its text for inclusion tags in double braces. The
search knows no other tags, so that it also finds what stands in comments, and no changed
delimiters.
-/

namespace Folio.Markup

/-- Names between `{{>` and `}}` from some point of a source on, trimmed, empty ones and those
already known left out. -/
def findReferences (known : List String) (source : List Char) : List String :=
  match _h : Text.cutAt? ['{', '{', '>'] source with
  | none => known
  | some (_, tag) =>
    match _h' : Text.cutAt? ['}', '}'] tag with
    | none => known
    | some (raw, rest) =>
      let name := String.ofList (Text.trim raw)
      findReferences (if name.isEmpty || known.contains name then known else known ++ [name]) rest
termination_by source.length
decreasing_by
  have := Text.length_of_cutAt? _h
  have := Text.length_of_cutAt? _h'
  simp at *
  omega

/-- The names a source references, in order of first appearance. -/
def references (source : String) : List String :=
  findReferences [] source.toList

end Folio.Markup
