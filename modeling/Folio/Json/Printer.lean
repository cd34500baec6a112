import Folio.Decimal.Shortest
import Folio.Json.Basic
import Folio.Json.Quoted
/-!
# Writing JSON

The compact text of a value: no space, fields in their order, strings as `quote` writes them.
-/

namespace Folio.Json

def separate : List (List Char) → List Char
  | [] => []
  | [item] => item
  | item :: more => item ++ ',' :: separate more

mutual

def print : Json → List Char
  | null => ['n', 'u', 'l', 'l']
  | bool true => ['t', 'r', 'u', 'e']
  | bool false => ['f', 'a', 'l', 's', 'e']
  | int value => (toString value).toList
  | float value => value.text.toList
  | string value => quote value.toList
  | array items => '[' :: separate (printItems items) ++ [']']
  | object fields => '{' :: separate (printFields fields) ++ ['}']

def printItems : List Json → List (List Char)
  | [] => []
  | value :: more => print value :: printItems more

def printFields : List (String × Json) → List (List Char)
  | [] => []
  | (key, value) :: more => (quote key.toList ++ ':' :: print value) :: printFields more

end

def text (value : Json) : String :=
  String.ofList value.print

end Folio.Json
