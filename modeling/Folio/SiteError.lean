import Folio.Files.Fault
import Folio.Json.Fault
import Folio.Markup.Tag
/-!
# Errors

Why a site cannot be built or checked, with the words it is told in. An error has a message, a chain
of causes and sometimes a piece of advice.
-/

namespace Folio

/-- Why a template cannot be compiled. -/
inductive TemplateError where
  | malformed (fault : Markup.SyntaxFault)
  /-- The file of a partial is there but cannot be read, or its name cannot be looked up. -/
  | partialUnreadable
deriving DecidableEq, Repr

def TemplateError.message : TemplateError → String
  | malformed fault => fault.message
  | partialUnreadable => "description() is deprecated; use Display"

/-- What is wrong with build options. -/
inductive OptionFault where
  | emptySource
  | emptyDist
  | noTypes
  | badType (extension : String)
deriving DecidableEq, Repr

def OptionFault.message : OptionFault → String
  | emptySource => "'src' must not be empty"
  | emptyDist => "'dist' must not be empty"
  | noTypes => "'type' must name at least one template extension"
  | badType extension =>
    "invalid template extension '" ++ extension ++ "' (write it without the leading dot)"

/-- What was being done to files. -/
inductive FileTask where
  /-- Going through the folders below one. -/
  | walking (path : String)
  | reading (path : String)
  | creatingFolder (path : String)
  | writing (path : String)
  | staging (name : String)
deriving DecidableEq, Repr

def FileTask.message : FileTask → String
  | walking path => "walking " ++ path
  | reading path => "reading " ++ path
  | creatingFolder path => "creating directory " ++ path
  | writing path => "writing " ++ path
  | staging name => "staging partial '" ++ name ++ "'"

inductive SiteError where
  | noPages (path : String)
  | templateCompile (path : String) (cause : TemplateError)
  /-- The place of the fault is told in the words of `Json.Fault.message`. -/
  | dataParse (path : String) (cause : String)
  | dataNotObject (path : String)
  | render (name : String) (cause : TemplateError)
  | configNotFound (path : String)
  | configParse
  | configInvalid (reason : OptionFault)
  | unknownTarget (name : String)
  /-- The pattern engine refuses the pattern of the extensions, in words of its own. -/
  | invalidMatcher (cause : String)
  | io (task : FileTask) (cause : Files.Fault)
deriving DecidableEq, Repr

namespace SiteError

def message : SiteError → String
  | noPages path => "No page found in folder: " ++ path
  | templateCompile path _ => "Failed to compile template " ++ path
  | dataParse path _ => "Failed to parse render data " ++ path
  | dataNotObject path => "Render data in " ++ path ++ " must be a JSON object"
  | render name _ => "Failed to render '" ++ name ++ "'"
  | configNotFound path => "Config not found at " ++ path
  | configParse => "Failed to parse stache.toml"
  | configInvalid reason => "Invalid configuration: " ++ reason.message
  | unknownTarget name => "Unknown target '" ++ name ++ "'"
  | invalidMatcher _ => "Invalid template type matcher"
  | io task _ => "IO error: " ++ task.message

/-- The messages of the chain of causes. That of a configuration that cannot be read is not kept. -/
def causes : SiteError → List String
  | templateCompile _ cause => [cause.message]
  | dataParse _ cause => [cause]
  | render _ cause => [cause.message]
  | invalidMatcher cause => [cause]
  | io (.walking path) cause =>
    ["IO error for operation on " ++ path ++ ": " ++ cause.message, cause.message]
  | io _ cause => [cause.message]
  | _ => []

def help? : SiteError → Option String
  | noPages _ =>
    some "Add at least one page template to the pages folder, or check the configured `type`"
  | templateCompile _ _ => some "Check the Mustache syntax in this template"
  | dataParse _ _ => some "Check the JSON syntax in this data file"
  | dataNotObject _ =>
    some "Wrap the values in \x7b ... \x7d; the `render` key holds layout and extension"
  | render _ _ => some "Check the values passed to this template and the partials it includes"
  | configNotFound _ => some "Create a stache.toml file or pass --config"
  | configParse => some "Check the TOML syntax in your stache.toml file"
  | unknownTarget _ => some "Targets are declared as [targets.<name>] in stache.toml"
  | configInvalid _ => none
  | invalidMatcher _ => none
  | io _ _ => none

/-- The error in one line, with its causes after colons. -/
def describe (error : SiteError) : String :=
  ": ".intercalate (error.message :: error.causes)

end SiteError

/-- Why an operation ends without a result. -/
inductive Stop where
  | error (error : SiteError)
  /-- A value tag met a value that cannot be written; there is no error to report. -/
  | aborted
  /-- Partials include one another without end. -/
  | endless
deriving DecidableEq, Repr

end Folio
