import LatexFormatter.Proofs.Grammar.Derivation
import LatexFormatter.Proofs.Node.Regular

/-
  Reading loses nothing. A text and the plain text of its tree may differ in
  blanks, in null characters, in the braces of scripts and in which delimiters
  enclose math. Everything else is the substance of a text, and the tree has all
  of it, once and in order: each clause of a derivation accounts for exactly the
  characters it covers.
-/

namespace LatexFormatter

/-! ## What a tree may write in another way -/

/-- Blanks, null characters, and the characters that braces, brackets and math
delimiters are made of. -/
def markupChars : List Char :=
  [' ', '\t', '\r', '\n', '\x00', '{', '}', '$', '\\', '(', ')', '[', ']']

def isMarkup (c : Char) : Bool := markupChars.contains c

/-- The characters of a text that every way to write it has in common. -/
def substance (cs : List Char) : List Char := cs.filter (!isMarkup ·)

@[simp] theorem substance_nil : substance [] = [] := rfl

@[simp] theorem substance_append (xs ys : List Char) :
    substance (xs ++ ys) = substance xs ++ substance ys := List.filter_append ..

@[simp] theorem substance_cons (c : Char) (cs : List Char) :
    substance (c :: cs) = (if isMarkup c = true then [] else [c]) ++ substance cs := by
  unfold substance
  by_cases hc : isMarkup c = true <;> simp [hc]

theorem isMarkup_of_isBlank {c : Char} (h : isBlank c = true) : isMarkup c = true := by
  rcases isBlank_iff.1 h with (rfl | rfl) | rfl | rfl <;> decide

@[simp] theorem substance_eq_nil_of_isBlank {cs : List Char} (h : ∀ c ∈ cs, isBlank c = true) :
    substance cs = [] := by
  rw [substance, List.filter_eq_nil_iff]
  intro c hc
  simp [isMarkup_of_isBlank (h c hc)]

@[simp] theorem substance_opening (delimiter : MathDelimiter) :
    substance delimiter.opening = [] := by cases delimiter <;> rfl

@[simp] theorem substance_closing (delimiter : MathDelimiter) :
    substance delimiter.closing = [] := by cases delimiter <;> rfl

/-! ## Derivations -/

namespace Node

theorem substance_display_math (delimiter : MathDelimiter) (body : List Node) :
    substance (delimiter.node body).display = substance (displayAll body) := by
  cases delimiter <;> simp [MathDelimiter.node, display, isMarkup, markupChars]

/-- A single character stands for a node that is nothing but that character,
perhaps in braces. -/
theorem substance_display_of_singleChar {node : Node} {c : Char} (h : node.singleChar? = some c) :
    substance node.display = substance [c] := by
  obtain ⟨content, hcontent, rfl | rfl⟩ := singleChar?_cases h
  · rw [display, hcontent]
  · simp [display, displayAll, hcontent, isMarkup, markupChars]

/-- Whether a base is written in braces or not is no part of its substance. -/
theorem substance_displayBase (base : Node) :
    substance (displayBase (some base)) = substance base.display := by
  unfold displayBase
  split
  · next c hc => exact (substance_display_of_singleChar hc).symm
  · split
    · rfl
    · simp [isMarkup, markupChars]

end Node

open Node

mutual

/-- What derives a node has the substance of its plain text. -/
theorem Derives.substance_eq : ∀ {mode : Mode} {text rest : List Char} {node : Node},
    Derives mode text node rest → substance text = substance node.display
  | _, _, _, _, .padded _ _ hb ha _ h => by
    simp [substance_eq_nil_of_isBlank hb, substance_eq_nil_of_isBlank ha, h.substance_eq]
  | _, _, _, _, .string _ _ _ => by rw [display]
  | _, _, _, _, .space _ hb hn => by
    rw [substance_eq_nil_of_isBlank hb]
    rcases isSpace_iff.1 hn with rfl | rfl
    · rfl
    · rfl
  | _, _, _, _, .comment _ _ hb ha _ _ _ => by
    simp [display, substance_eq_nil_of_isBlank hb, substance_eq_nil_of_isBlank ha, isMarkup,
      markupChars]
  | _, _, _, _, .group h => by simp [display, h.substance_eq]
  | _, _, _, _, .math delimiter h => by
    -- the tree does not say which of the delimiters of its kind were used
    simp [substance_display_math, h.substance_eq]
  | _, _, _, _, .script _ h => by simp [display, h.substance_eq]
  | _, _, _, _, .command _ _ _ h => by simp [display, h.substance_eq]
  | _, _, _, _, .verb _ _ _ _ _ => by rw [display]
  | _, _, _, _, .verbatim _ _ => by rw [display]
  | _, _, _, _, .commentEnvironment _ ha _ _ => by
    simp [display, substance_eq_nil_of_isBlank ha]
  | _, _, _, _, .mathEnvironment _ _ _ h => by simp [display, h.substance_eq]
  | _, _, _, _, .environment _ _ _ _ hargs h => by
    simp [display, hargs.substance_eq, h.substance_eq]

theorem DerivesAll.substance_eq : ∀ {mode : Mode} {text rest : List Char} {nodes : List Node},
    DerivesAll mode text nodes rest → substance text = substance (displayAll nodes)
  | _, _, _, _, .nil => by rw [displayAll]
  | _, _, _, _, .null h => by simp [h.substance_eq, isMarkup, markupChars]
  | _, _, _, _, .cons h hrest => by simp [displayAll, h.substance_eq, hrest.substance_eq]

theorem DerivesArgs.substance_eq : ∀ {text rest : List Char} {args : Option (List Node)},
    DerivesArgs text args rest → substance text = substance (displayArgs args)
  | _, _, _, .none => by rw [displayArgs]
  | _, _, _, .some _ hb h => by
    simp [displayArgs, substance_eq_nil_of_isBlank hb, h.substance_eq]

theorem DerivesBase.substance_eq : ∀ {text rest : List Char} {base : Option Node},
    DerivesBase text base rest → substance text = substance (displayBase base)
  | _, _, _, .none => by rw [displayBase]
  | _, _, _, .some _ hb _ h => by
    rw [substance_displayBase, ← h.substance_eq, substance_append, substance_eq_nil_of_isBlank hb,
      List.nil_append]

end

/-- A text that can be read and the plain text of its tree have the same
substance: no other character is lost, repeated or moved. -/
theorem parse_substance {text : String} {tree : Node} (h : parse text = .ok tree) :
    substance text.toList = substance tree.display := by
  rcases parse_derives text with ⟨error, -, herror⟩ | ⟨_, nodes, -, -, hparse, hderives⟩
  · rw [herror] at h
    cases h
  · rw [hparse] at h
    obtain rfl := Except.ok.inj h
    rw [hderives.substance_eq, display]

/-- Delimiters, blanks before a script and before arguments, and a null character
are all that is written in another way here. -/
theorem parse_substance_cite :
    parse "\\(x ^{2}\\)\\cite\n[a]\x00%\tc"
        = .ok (.list [.inlineMath [.string "x", .script .sup (some (.group [.string "2"]))],
            .command "cite" (some [.string "a"]), .comment "\tc" true]) ∧
      substance "\\(x ^{2}\\)\\cite\n[a]\x00%\tc".toList
        = substance "$x^2$\\cite[a]%\tc\n".toList := by
  have hparse : parse "\\(x ^{2}\\)\\cite\n[a]\x00%\tc"
      = .ok (.list [.inlineMath [.string "x", .script .sup (some (.group [.string "2"]))],
          .command "cite" (some [.string "a"]), .comment "\tc" true]) := by
    unfold parse readDocument
    rw [readDocumentBy_cached]
    rfl
  exact ⟨hparse, parse_substance hparse⟩

end LatexFormatter
