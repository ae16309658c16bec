import LatexFormatter.Proofs.Grammar.Derivation
import LatexFormatter.Proofs.Node.Regular

/-
  Well-formed trees: what can be relied on in a tree that was read, at every
  depth. Names are names, literal material does not hold what would close it,
  strings are not empty, the base of a script is no space, and a list or bare
  arguments stand nowhere inside. A derivation leads to nothing else, so reading
  a text gives a well-formed tree or reports that the text is outside the
  grammar; no parse tree is ever refused.
-/

namespace LatexFormatter

namespace Node

mutual

/-- The node and everything in it is something that can be read. -/
def WellFormed : Node → Prop
  | list _ => False
  | string content => content ≠ ""
  | whitespace => True
  | parbreak => True
  | command name args => IsControlName name ∧ WellFormedArgs args
  | environment name args body =>
    IsTagName name ∧ name ≠ verbatimName ∧ name ≠ commentName ∧
      WellFormedArgs args ∧ WellFormedAll body
  | mathEnvironment name body => IsTagName name ∧ isMathEnvironment name = true ∧ WellFormedAll body
  | inlineMath content => WellFormedAll content
  | displayMath content => WellFormedAll content
  | group content => WellFormedAll content
  | script _ base => WellFormedBase base
  | verbatim content => ¬ closingTag verbatimName <:+: content.toList
  | verb delimiter content =>
    isLetter delimiter = false ∧ Text.isWhiteSpace delimiter = false ∧ delimiter ∉ content.toList
  | commentEnvironment content => ¬ closingTag commentName <:+: content.toList
  | comment content _ => ∀ c ∈ content.toList, isLineBreak c = false
  | arguments _ => False

def WellFormedAll : List Node → Prop
  | [] => True
  | node :: rest => WellFormed node ∧ WellFormedAll rest

def WellFormedArgs : Option (List Node) → Prop
  | none => True
  | some content => WellFormedAll content

def WellFormedBase : Option Node → Prop
  | none => True
  | some base => base.isSpace = false ∧ WellFormed base

end

end Node

open Node

mutual

/-- Only well-formed nodes are derived. -/
theorem Derives.wellFormed : ∀ {mode : Mode} {text rest : List Char} {node : Node},
    Derives mode text node rest → WellFormed node
  | _, _, _, _, .padded _ _ _ _ _ h => h.wellFormed
  | _, _, _, _, .string content hne _ => by
    rintro rfl
    exact hne rfl
  | _, _, _, _, .space _ _ hn => by
    rcases isSpace_iff.1 hn with rfl | rfl <;> trivial
  | _, _, _, _, .comment _ _ _ _ _ _ hc => hc
  | _, _, _, _, .group h => h.wellFormed
  | _, _, _, _, .math delimiter h => by
    have hbody := h.wellFormed
    cases delimiter <;> exact hbody
  | _, _, _, _, .script _ h => h.wellFormed
  | _, _, _, _, .command _ hn _ h => ⟨hn, h.wellFormed⟩
  | _, _, _, _, .verb _ _ hl hw hc => ⟨hl, hw, hc⟩
  | _, _, _, _, .verbatim _ hc => hc
  | _, _, _, _, .commentEnvironment _ _ _ hc => hc
  | _, _, _, _, .mathEnvironment _ hn hm h => ⟨hn, hm, h.wellFormed⟩
  | _, _, _, _, .environment _ hn hv hc hargs h => ⟨hn, hv, hc, hargs.wellFormed, h.wellFormed⟩

theorem DerivesAll.wellFormed : ∀ {mode : Mode} {text rest : List Char} {nodes : List Node},
    DerivesAll mode text nodes rest → WellFormedAll nodes
  | _, _, _, _, .nil => trivial
  | _, _, _, _, .null h => h.wellFormed
  | _, _, _, _, .cons h hrest => ⟨h.wellFormed, hrest.wellFormed⟩

theorem DerivesArgs.wellFormed : ∀ {text rest : List Char} {args : Option (List Node)},
    DerivesArgs text args rest → WellFormedArgs args
  | _, _, _, .none => trivial
  | _, _, _, .some _ _ h => h.wellFormed

theorem DerivesBase.wellFormed : ∀ {text rest : List Char} {base : Option Node},
    DerivesBase text base rest → WellFormedBase base
  | _, _, _, .none => trivial
  | _, _, _, .some _ _ hs h => ⟨hs, h.wellFormed⟩

end

/-- A text is outside the grammar, or every stage accepts it and it is read as a
list of well-formed nodes. -/
theorem parse_wellFormed (text : String) :
    (∃ error, readDocument text = .error error ∧ parse text = .error (.outsideGrammar error)) ∨
      ∃ tree nodes, readDocument text = .ok tree ∧ ofParseTree tree = .ok (.list nodes) ∧
        parse text = .ok (.list nodes) ∧ WellFormedAll nodes := by
  rcases parse_derives text with herror | ⟨tree, nodes, hread, hbuild, hparse, hderives⟩
  · exact Or.inl herror
  · exact Or.inr ⟨tree, nodes, hread, hbuild, hparse, hderives.wellFormed⟩

end LatexFormatter
