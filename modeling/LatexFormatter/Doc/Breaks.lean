import LatexFormatter.Doc.Basic

/-
  Forced breaks. A group that holds something which has to break cannot be
  printed flat, and neither can the groups around it. A group with further
  states is left to choose by itself, and passes nothing on. This is the
  program's `propagate_breaks`, which marks the groups in place.
-/

namespace LatexFormatter.Doc

mutual

/-- Marks the groups that have to break, and tells whether the document forces
what is around it to break. -/
def propagateBreaks : Doc → Doc × Bool
  | breakParent => (breakParent, true)
  | group contents broken none =>
    let (contents, forced) := propagateBreaks contents
    (group contents (broken || forced) none, broken || forced)
  | group contents broken (some states) =>
    (group (propagateBreaks contents).1 broken (some (propagateAll states).1), broken)
  | concat parts =>
    let (parts, forced) := propagateAll parts
    (concat parts, forced)
  | fill parts =>
    let (parts, forced) := propagateAll parts
    (fill parts, forced)
  | indent contents =>
    let (contents, forced) := propagateBreaks contents
    (indent contents, forced)
  | align alignment contents =>
    let (contents, forced) := propagateBreaks contents
    (align alignment contents, forced)
  | lineSuffix contents =>
    let (contents, forced) := propagateBreaks contents
    (lineSuffix contents, forced)
  | ifBreak broken flat =>
    let (broken, forcedBroken) := propagateBreaks broken
    let (flat, forcedFlat) := propagateBreaks flat
    (ifBreak broken flat, forcedBroken || forcedFlat)
  | text content => (text content, false)
  | line hard soft literal => (line hard soft literal, false)
  | lineSuffixBoundary => (lineSuffixBoundary, false)
  | trim => (trim, false)
  | cursor => (cursor, false)

/-- Marks the groups of several documents, and tells whether any of them forces
a break. -/
def propagateAll : List Doc → List Doc × Bool
  | [] => ([], false)
  | doc :: rest =>
    let (doc, forced) := propagateBreaks doc
    let (rest, forcedRest) := propagateAll rest
    (doc :: rest, forced || forcedRest)

end

end LatexFormatter.Doc
