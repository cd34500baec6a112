import Folio.Markup.Lexeme
/-!
# Template trees

The tree of a template, with sections nested. A comment, section, inclusion or delimiter tag that
stands alone on its line takes the line with it: the blank text before it and the line break after
it.
-/

namespace Folio.Markup

inductive Node where
  | text (text : String)
  | value (path : Path) (escaped : Bool)
  | block (path : Path) (inverted : Bool) (body : List Node)
  /-- A partial by its name, and what stood before the tag if it stood alone on its line. -/
  | inclusion (name indent : String)
deriving Repr, Inhabited

/-- The template inside one open section. The nodes before it, and those in it, are kept in
reverse. -/
structure OpenBlock where
  path : Path
  inverted : Bool
  /-- Whether the opening tag took its line break with it. -/
  alone : Bool
  before : List Node

/-- What stands on a tag's line before the tag. -/
inductive Margin where
  /-- Something that is not blank. -/
  | busy
  /-- Nothing. -/
  | empty
  /-- Blank text that ends a longer text. -/
  | blank (kept indent : List Char)
deriving DecidableEq, Repr

/-- The line before a tag that comes after the given nodes. Without a line break the text is the
line only at the very start, and a cut text that became empty is no line start. -/
def margin (opened : List OpenBlock) : List Node → Margin
  | [] => match opened with
    | [] => .empty
    | frame :: _ => if frame.alone then .empty else .busy
  | .text text :: before =>
    let reversed := text.toList.reverse
    let tail := reversed.takeWhile fun c => c != '\n' && Text.isBlank c
    match reversed.dropWhile fun c => c != '\n' && Text.isBlank c with
    | [] => if opened.isEmpty && before.isEmpty && !tail.isEmpty then .blank [] tail.reverse else .busy
    | c :: rest =>
      if c = '\n' then if tail.isEmpty then .empty else .blank (c :: rest).reverse tail.reverse
      else .busy
  | _ :: _ => .busy

/-- Whether a line ends, or the source does, where the given lexemes follow. -/
def lineEnds : List Lexeme → Ending → Bool
  | [], ending => ending = .clean
  | .text ('\n' :: _) :: _, _ => true
  | .text ('\r' :: '\n' :: _) :: _, _ => true
  | _, _ => false

def dropBreak : List Char → List Char
  | '\n' :: rest => rest
  | '\r' :: '\n' :: rest => rest
  | text => text

/-- The nodes before a tag without the blank text on its line, the text that was cut off, and
whether the line break after the tag goes too. -/
def standAlone (opened : List OpenBlock) (done : List Node) (ends : Bool) :
    List Node × List Char × Bool :=
  if ends then
    match margin opened done with
    | .busy => (done, [], false)
    | .empty => (done, [], true)
    | .blank kept indent => (.text (String.ofList kept) :: done.tail, indent, true)
  else (done, [], false)

namespace Node

/-- The nodes of the lexemes to come, given the open sections and the nodes of the innermost one.
`skip` says that the line break at the start of the next text is gone. -/
def build (opened : List OpenBlock) (done : List Node) (skip : Bool) :
    List Lexeme → Ending → Except SyntaxFault (List Node)
  | [], ending =>
    match ending with
    | .fault fault => .error fault
    | .torn chars => close opened (.text (String.ofList chars) :: done)
    | .clean => close opened done
  | .text chars :: rest, ending =>
    let chars := if skip then dropBreak chars else chars
    build opened (if chars = [] then done else .text (String.ofList chars) :: done) false rest ending
  | .tag tag :: rest, ending =>
    let (cut, indent, skip) := standAlone opened done (lineEnds rest ending)
    match tag with
    | .value path escaped => build opened (.value path escaped :: done) false rest ending
    | .comment => build opened cut skip rest ending
    | .delims _ => build opened cut skip rest ending
    | .inclusion name =>
      build opened (.inclusion name (String.ofList indent) :: cut) skip rest ending
    | .opening path inverted => build (⟨path, inverted, skip, cut⟩ :: opened) [] skip rest ending
    | .closing path =>
      match opened with
      | [] => .error .unopenedSection
      | frame :: outer =>
        if frame.path = path then
          build outer (.block path frame.inverted cut.reverse :: frame.before) skip rest ending
        else .error .unclosedSection
where
  close : List OpenBlock → List Node → Except SyntaxFault (List Node)
    | [], done => .ok done.reverse
    | _ :: _, _ => .error .unclosedSection

def ofSource (source : List Char) : Except SyntaxFault (List Node) :=
  let (lexemes, ending) := Lexeme.ofSource source
  build [] [] false lexemes ending

mutual

/-- The first parts of the paths in a node, at any depth: what is looked up in the whole scope. -/
def ownKeys : Node → List String
  | .value path _ => path.head?.toList
  | .block path _ body => path.head?.toList ++ keys body
  | .text _ | .inclusion _ _ => []

def keys : List Node → List String
  | [] => []
  | node :: rest => node.ownKeys ++ keys rest

end

mutual

/-- The names of the partials that a node includes, at any depth, in order. -/
def ownInclusions : Node → List String
  | .inclusion name _ => [name]
  | .block _ _ body => inclusions body
  | .text _ | .value _ _ => []

def inclusions : List Node → List String
  | [] => []
  | node :: rest => node.ownInclusions ++ inclusions rest

end

end Node

end Folio.Markup
