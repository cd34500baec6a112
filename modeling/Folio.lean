import Folio.Json.Printer
import Folio.Main
import Folio.Proofs.CommandLine.Declining
import Folio.Proofs.CommandLine.DryRun
import Folio.Proofs.CommandLine.GivenValues
import Folio.Proofs.CommandLine.Precedence
import Folio.Proofs.CommandLine.Turns
import Folio.Proofs.CommandLine.Validity
import Folio.Proofs.Files.Confinement
import Folio.Proofs.Files.Joining
import Folio.Proofs.Files.Listing
import Folio.Proofs.Files.Making
import Folio.Proofs.Files.Naming
import Folio.Proofs.Files.Parents
import Folio.Proofs.Files.RealNames
import Folio.Proofs.Files.Walking
import Folio.Proofs.Json.Grammar
import Folio.Proofs.Json.Numbers
import Folio.Proofs.Json.Reading
import Folio.Proofs.Json.Strings
import Folio.Proofs.Json.Writing
import Folio.Proofs.Markup.Appending
import Folio.Proofs.Markup.Inclusion
import Folio.Proofs.Markup.References
import Folio.Proofs.Markup.Values
import Folio.Proofs.Site.Aborting
import Folio.Proofs.Site.Accounting
import Folio.Proofs.Site.AddedPage
import Folio.Proofs.Site.Agreement
import Folio.Proofs.Site.Dependence
import Folio.Proofs.Site.Execution
import Folio.Proofs.Site.Injection
import Folio.Proofs.Site.LayoutWarnings
import Folio.Proofs.Site.Lookups
import Folio.Proofs.Site.Matching
import Folio.Proofs.Site.MissingPartials
import Folio.Proofs.Site.Obstacles
import Folio.Proofs.Site.Overwriting
import Folio.Proofs.Site.OwnName
import Folio.Proofs.Site.PagePaths
import Folio.Proofs.Site.PlainPages
import Folio.Proofs.Site.Repetition
import Folio.Proofs.Site.Searching
import Folio.Proofs.Site.SharedNames
import Folio.Proofs.Site.Stopping
import Folio.Proofs.Site.Stripping
import Folio.Proofs.Site.Wrapping
import Folio.Proofs.Site.Writing
import Folio.Proofs.Template.ByName
import Folio.Proofs.Template.Ending
import Folio.Proofs.Template.Finding
import Folio.Proofs.Template.Gathering
import Folio.Proofs.Template.History
import Folio.Proofs.Template.Layout
import Folio.Proofs.Template.PlainName
import Folio.Proofs.Template.Shortcut
import Folio.Proofs.Template.Staging
import Folio.Proofs.Template.Surroundings
