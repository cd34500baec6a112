import Folio.Template.Collection
/-!
# Composition

A page is rendered inside the layout it asks for, as the partial `content` of that layout, or on its
own if there is no such layout.
-/

namespace Folio

def contentName : String := "content"

/-- The layout that a page asks for, if there is one of that name. -/
def resolveLayout (page : Template) (layouts : Collection) : Option Template :=
  page.layout.bind layouts.lookup

/-- The text of a page. Inside a layout the layout's data counts and not the page's. -/
def compose {host : Host} (store : Files.Store host) (page : Template)
    (layouts partials : Collection) (globals : Fields) : Except Stop String :=
  match resolveLayout page layouts with
  | some layout =>
    layout.body.render store layout.name (buildContext globals layout.data)
      (partials.partials.insert contentName page.body)
  | none => page.body.render store page.name (buildContext globals page.data) partials.partials

end Folio
