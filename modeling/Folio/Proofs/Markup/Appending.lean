import Folio.Proofs.Markup.Inclusion
import Folio.Proofs.Markup.PlainText
import Folio.Proofs.Outcome
/-!
# What is on the sheet already

Without an indent, nodes write the same whatever is on the sheet already, and how they end does not
depend on it either. Inclusions are left out: they may come with an indent, which is written only
where a line starts.
-/

namespace Folio.Markup

/-- Two outcomes that are the same but for a text in front of what the first one has written. -/
inductive Behind (front : String) : Except Halt Sheet → Except Halt Sheet → Prop
  | ok {sheet sheet' : Sheet} : sheet.text = front ++ sheet'.text →
      Behind front (.ok sheet) (.ok sheet')
  | error (halt : Halt) : Behind front (.error halt) (.error halt)

namespace Behind

variable {front : String} {x x' : Except Halt Sheet}

theorem bind {f f' : Sheet → Except Halt Sheet} (h : Behind front x x')
    (hf : ∀ sheet sheet', sheet.text = front ++ sheet'.text →
      Behind front (f sheet) (f' sheet')) : Behind front (x >>= f) (x' >>= f') := by
  cases h with
  | ok ht => exact hf _ _ ht
  | error halt => exact .error halt

theorem foldlM {f f' : Sheet → Scope → Except Halt Sheet}
    (hf : ∀ scope sheet sheet', sheet.text = front ++ sheet'.text →
      Behind front (f sheet scope) (f' sheet' scope)) (scopes : List Scope)
    {sheet sheet' : Sheet} (ht : sheet.text = front ++ sheet'.text) :
    Behind front (scopes.foldlM f sheet) (scopes.foldlM f' sheet') := by
  induction scopes generalizing sheet sheet' with
  | nil => exact .ok ht
  | cons scope rest ih =>
    rw [List.foldlM_cons, List.foldlM_cons]
    exact (hf scope sheet sheet' ht).bind fun _ _ hnext => ih hnext

end Behind

theorem Sheet.text_writeIndent_empty (sheet : Sheet) : (sheet.writeIndent "").text = sheet.text := by
  rw [writeIndent]
  split
  · exact String.append_empty
  · rfl

theorem Sheet.text_writeLines_empty (sheet : Sheet) (text : String) :
    (sheet.writeLines "" text).text = sheet.text ++ text :=
  rfl

variable {front : String}

theorem behind_writeValue (escaped : Bool) (value : Option Json) {sheet sheet' : Sheet}
    (ht : sheet.text = front ++ sheet'.text) :
    Behind front (writeValue "" escaped value sheet) (writeValue "" escaped value sheet') := by
  cases value with
  | none => exact .ok ht
  | some value =>
    rw [writeValue, writeValue]
    cases written? value with
    | none => exact .error .unwritable
    | some text =>
      apply Behind.ok
      simp only [Sheet.write, Sheet.text_writeIndent_empty, ht, String.append_assoc]

mutual

theorem behind_renderNode (insert insert' : Inclusion) :
    ∀ (node : Node) (scope : Scope) {sheet sheet' : Sheet}, node.ownInclusions = [] →
      sheet.text = front ++ sheet'.text →
      Behind front (renderNode insert "" node scope sheet) (renderNode insert' "" node scope sheet')
  | .text text, _, sheet, sheet', _, ht => by
    apply Behind.ok
    rw [Sheet.text_writeLines_empty, Sheet.text_writeLines_empty, ht, String.append_assoc]
  | .value path escaped, scope, _, _, _, ht => behind_writeValue escaped (scope.resolve path) ht
  | .block path inverted body, scope, sheet, sheet', hn, ht => by
    simp only [renderNode]
    exact Behind.foldlM (fun inner _ _ hnext => behind_renderNodes insert insert' body inner hn hnext)
      (blockScopes scope path inverted) ht
  | .inclusion _ _, _, _, _, hn, _ => by cases hn

theorem behind_renderNodes (insert insert' : Inclusion) :
    ∀ (nodes : List Node) (scope : Scope) {sheet sheet' : Sheet}, Node.inclusions nodes = [] →
      sheet.text = front ++ sheet'.text →
      Behind front (renderNodes insert "" nodes scope sheet)
        (renderNodes insert' "" nodes scope sheet')
  | [], _, _, _, _, ht => .ok ht
  | node :: rest, scope, sheet, sheet', hn, ht => by
    obtain ⟨hnode, hrest⟩ := List.append_eq_nil_iff.mp hn
    simp only [renderNodes]
    exact (behind_renderNode insert insert' node scope hnode ht).bind
      fun _ _ hnext => behind_renderNodes insert insert' rest scope hrest hnext

end

theorem renderNodes_append (insert : Inclusion) (indent : String) (nodes more : List Node)
    (scope : Scope) (sheet : Sheet) : renderNodes insert indent (nodes ++ more) scope sheet
      = renderNodes insert indent nodes scope sheet >>= renderNodes insert indent more scope := by
  induction nodes generalizing sheet with
  | nil => rfl
  | cons node rest ih =>
    simp only [List.cons_append, renderNodes, bind_assoc]
    congr 1
    funext next
    exact ih next

theorem renderNodes_ofText (insert : Inclusion) (text : List Char) (scope : Scope) (sheet : Sheet) :
    ∃ next, renderNodes insert "" (Node.ofText text) scope sheet = .ok next ∧
      next.text = sheet.text ++ String.ofList text := by
  rw [Node.ofText]
  split
  · rename_i ht
    refine ⟨sheet, rfl, ?_⟩
    rw [ht]
    exact String.append_empty.symm
  · exact ⟨sheet.writeLines "" (String.ofList text), rfl, rfl⟩

/-- A partial that includes none, between two texts, is written between them as it is on its own. -/
theorem render_around {find : String → List Node} {name : String}
    (hn : Node.inclusions (find name) = []) (before after : List Char) (depth depth' : Nat)
    (find' : String → List Node) (context : Fields) :
    Markup.render find (depth + 1) (Node.ofText before ++ .inclusion name "" :: Node.ofText after)
        context
      = (Markup.render find' depth' (find name) context).map
          fun text => String.ofList before ++ text ++ String.ofList after := by
  obtain ⟨first, hfirst, htext⟩ := renderNodes_ofText (renderPartial find (depth + 1)) before
    [.object context] {}
  have hfront : first.text = String.ofList before ++ ({} : Sheet).text := by
    rw [htext]
    exact (String.empty_append).trans String.append_empty.symm
  have hbody := behind_renderNodes (renderPartial find depth) (renderPartial find' depth')
    (find name) [.object context] hn hfront
  have hparts : renderNodes (renderPartial find (depth + 1)) ""
      (Node.ofText before ++ .inclusion name "" :: Node.ofText after) [.object context] {}
      = renderNodes (renderPartial find depth) "" (find name) [.object context] first
        >>= renderNodes (renderPartial find (depth + 1)) "" (Node.ofText after) [.object context] := by
    rw [renderNodes_append, hfirst, ok_bind, renderNodes]
    rfl
  rw [Markup.render, Markup.render, hparts]
  revert hbody
  generalize renderNodes (renderPartial find depth) "" (find name) [.object context] first = body
  generalize renderNodes (renderPartial find' depth') "" (find name) [.object context] {} = own
  intro hbody
  cases hbody with
  | error halt => rfl
  | @ok sheet _ ht =>
    obtain ⟨last, hlast, hend⟩ := renderNodes_ofText (renderPartial find (depth + 1)) after
      [.object context] sheet
    rw [ok_bind, hlast]
    exact congrArg Except.ok (by rw [hend, ht])

end Folio.Markup
