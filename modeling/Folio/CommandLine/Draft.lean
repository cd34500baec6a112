import Folio.CommandLine.Switch
import Folio.Text.Search
/-!
# Drafts of a command line

Reads arguments one by one. An option whose value stands in an argument of its own is kept open until
the next option or operand is taken in, and its value is looked at only then; so of two faults
the first to be taken in counts, not always the one further left.
-/

namespace Folio.CommandLine

inductive Argument where
  /-- All that follows is operands. -/
  | escape
  | long (name : String) (value : Option String)
  | short (letters : List Char)
  | plain
deriving DecidableEq, Repr

/-- A value after the name of an option, split off at the first equals sign. -/
def splitValue (text : List Char) : String × Option String :=
  match Text.cutAt? ['='] text with
  | some (name, value) => (String.ofList name, some (String.ofList value))
  | none => (String.ofList text, none)

def Argument.ofText (text : String) : Argument :=
  match text.toList with
  | ['-', '-'] => .escape
  | '-' :: '-' :: rest =>
    let (name, value) := splitValue rest
    .long name value
  | '-' :: c :: rest => .short (c :: rest)
  | _ => .plain

/-- What has been read so far at one place. -/
structure Draft where
  /-- The options taken in and their values, in order. -/
  given : List (Switch × Option String) := []
  operands : List String := []
  /-- An option not yet taken in, with its value once that has come. -/
  pending : Option (Switch × Option String) := none
deriving Repr, Inhabited

namespace Draft

def has (draft : Draft) (switch : Switch) : Bool :=
  draft.given.any (·.1 = switch)

def values (draft : Draft) (switch : Switch) : List String :=
  draft.given.filterMap fun (other, value) => if other = switch then value else none

def value? (draft : Draft) (switch : Switch) : Option String :=
  (draft.values switch).head?

/-- Whether the next argument may be the value of an option. -/
def isWaiting (draft : Draft) : Bool :=
  draft.pending.any (·.2.isNone)

def take (draft : Draft) (switch : Switch) (value : Option String) : Except Refusal Draft :=
  let given : Draft := { draft with given := draft.given ++ [(switch, value)] }
  match switch with
  | .help => .error .help
  | .version => .error .version
  | _ =>
    if switch.hasValue ∧ value.isNone then .error (.noValue switch)
    else if draft.has switch ∧ ¬ switch.repeats then .error (.repeated switch)
    else match value.bind switch.fault? with
      | some refusal => .error refusal
      | none => .ok given

/-- Takes in the option that was kept open. -/
def settle (draft : Draft) : Except Refusal Draft :=
  match draft.pending with
  | none => .ok draft
  | some (switch, value) => take { draft with pending := none } switch value

def give (draft : Draft) (switch : Switch) (value : Option String) : Except Refusal Draft := do
  let draft ← draft.settle
  if switch.hasValue ∧ value.isNone then return { draft with pending := some (switch, none) }
  else draft.take switch value

def giveLong (place : Place) (draft : Draft) (name : String) (value : Option String) :
    Except Refusal Draft :=
  match place.switches.find? (·.long = name), value with
  | none, _ => .error (.unknownArgument ("--" ++ name))
  | some switch, some value =>
    if switch.hasValue then draft.give switch (some value)
    else .error (.unwantedValue switch value)
  | some switch, none => draft.give switch none

/-- A value attached to a letter; an equals sign may stand between them. -/
def attached : List Char → Option String
  | [] => none
  | '=' :: value => some (String.ofList value)
  | value => some (String.ofList value)

/-- Options by their letters. The first that takes a value has the rest for it. -/
def giveShort (place : Place) (draft : Draft) : List Char → Except Refusal Draft
  | [] => .ok draft
  | c :: rest =>
    match place.switches.find? (·.short? = some c) with
    | none => .error (.unknownArgument (String.ofList ['-', c]))
    | some switch =>
      if switch.hasValue then draft.give switch (attached rest)
      else do
        let draft ← draft.give switch none
        giveShort place draft rest

/-- An operand. Where none can follow the option kept open is not looked at. -/
def addOperand (place : Place) (draft : Draft) (word : String) : Except Refusal Draft := do
  if place.takesOperand draft.operands.length then
    let draft ← draft.settle
    return { draft with operands := draft.operands ++ [word] }
  else if place = .front then .error (.unknownCommand word)
  else .error (.unknownArgument word)

/-- A word that is no option: the value that is waited for, or an operand. -/
def addWord (place : Place) (draft : Draft) (word : String) : Except Refusal Draft :=
  match draft.pending with
  | some (switch, none) => .ok { draft with pending := some (switch, some word) }
  | _ => draft.addOperand place word

def addOperands (place : Place) (draft : Draft) : List String → Except Refusal Draft
  | [] => .ok draft
  | word :: rest =>
    if (place.command? word).isSome then .error (.unknownArgument word)
    else do
      let draft ← draft.addOperand place word
      addOperands place draft rest

end Draft

/-- What has been read at a place, and the command whose arguments follow. -/
structure Reading where
  draft : Draft
  next : Option (CommandName × List String) := none

/-- Reads the arguments at a place, as far as the name of a command. -/
def Draft.read (place : Place) (draft : Draft) : List String → Except Refusal Reading
  | [] => .ok ⟨draft, none⟩
  | word :: rest =>
    match draft.isWaiting, place.command? word with
    | false, some name => .ok ⟨draft, some (name, rest)⟩
    | _, _ =>
      match Argument.ofText word with
      | .escape => do
        let draft ← draft.addOperands place rest
        return ⟨draft, none⟩
      | .long name value => do
        let draft ← draft.giveLong place name value
        read place draft rest
      | .short letters => do
        let draft ← draft.giveShort place letters
        read place draft rest
      | .plain => do
        let draft ← draft.addWord place word
        read place draft rest

end Folio.CommandLine
