import Folio.Text.Search
/-!
# Sheets

Output under way. Text of an indented partial is written line by line, with the indent in front of
each line that is not empty.
-/

namespace Folio.Markup

structure Sheet where
  text : String := ""
  /-- Whether the next character starts a line. Writing nothing leaves this as it is. -/
  fresh : Bool := true
deriving DecidableEq, Repr, Inhabited

namespace Sheet

def write (sheet : Sheet) (text : String) : Sheet where
  text := sheet.text ++ text
  fresh := match text.toList.getLast? with
    | none => sheet.fresh
    | some c => c = '\n'

/-- The indent, if a line starts here. The line still counts as not begun. -/
def writeIndent (sheet : Sheet) (indent : String) : Sheet :=
  if sheet.fresh then { sheet with text := sheet.text ++ indent } else sheet

def writeLines (sheet : Sheet) (indent text : String) : Sheet :=
  if indent.isEmpty then sheet.write text
  else (Text.lines text.toList).foldl (fun sheet line =>
    (if line.head? = some '\n' then sheet else sheet.writeIndent indent).write
        (String.ofList line)) sheet

end Sheet

end Folio.Markup
