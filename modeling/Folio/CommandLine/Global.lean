import Folio.CommandLine.Report
import Folio.Json.Reader
/-!
# Globals on the command line

A global is written as a key, an equals sign and a value. The key ends at the first equals sign. The
value is read as JSON where it is JSON, and is the text itself where it is not.
-/

namespace Folio.CommandLine

def valueOfText (text : String) : Json :=
  (Json.read text).toOption.getD (.string text)

def parseGlobal (pair : String) : Except Report (String × Json) :=
  match Text.cutAt? ['='] pair.toList with
  | some (c :: key, value) => .ok (String.ofList (c :: key), valueOfText (String.ofList value))
  | _ => .error (.badGlobal pair)

/-- Reads globals in order, up to the first that is badly written. -/
def parseGlobals (pairs : List String) : Except Report (List (String × Json)) :=
  pairs.mapM parseGlobal

end Folio.CommandLine
