import LatexFormatter.Doc.Command

/-
  Looking ahead: whether what comes next stays within a number of columns up to
  the first place where the line can end. Text that is kept back to the end of
  the line takes no room here.

  This is the program's `fits`. The program walks the commands that are queued
  behind its own stack; here both are one list, and what is looked at next
  stands first. The width only falls from where it starts, but for blanks that
  are given back, so it never leaves the range of a word.
-/

namespace LatexFormatter.Doc

/-- How many blanks a text ends with, once `content` follows a text that ends
with `trailing` of them. -/
def trailingBlanks (trailing : Nat) (content : List Char) : Nat :=
  content.foldl (fun count c => if isSpace c then count + 1 else 0) trailing

/-- Whether the commands fit in `width` columns up to the first line break, given
whether something is kept back and how many blanks the text looked at so far
ends with. If `mustBeFlat`, nothing that has to break fits. -/
def fits (mustBeFlat : Bool) (width : Int) (kept : Bool) (trailing : Nat)
    (commands : List Command) : Bool :=
  if width < 0 then false
  else match commands with
    | [] => true
    | ⟨indentation, flow, doc⟩ :: rest =>
      match doc with
      | text content =>
        let cs := content.toList
        if cs.contains '\n' then decide (0 ≤ width - (cs.takeWhile (· != '\n')).length)
        else fits mustBeFlat (width - cs.length) kept (trailingBlanks trailing cs) rest
      | concat parts => fits mustBeFlat width kept trailing (Command.all indentation flow parts ++ rest)
      | fill parts => fits mustBeFlat width kept trailing (Command.all indentation flow parts ++ rest)
      | indent contents => fits mustBeFlat width kept trailing (⟨indentation, flow, contents⟩ :: rest)
      | align _ contents => fits mustBeFlat width kept trailing (⟨indentation, flow, contents⟩ :: rest)
      | trim => fits mustBeFlat (width + trailing) kept 0 rest
      | group contents broken states =>
        if mustBeFlat && broken then false
        else
          have := cost_choose_mostExpanded (flow.inside broken) contents states
          fits mustBeFlat width kept trailing
            (⟨indentation, flow.inside broken,
              (flow.inside broken).choose (mostExpanded contents states) contents⟩ :: rest)
      | ifBreak broken flat =>
        have := cost_choose_le flow broken flat
        fits mustBeFlat width kept trailing (⟨indentation, flow, flow.choose broken flat⟩ :: rest)
      | line hard soft _ =>
        if flow == .broken || hard then true
        else if soft then fits mustBeFlat width kept trailing rest
        else fits mustBeFlat (width - 1) kept (trailing + 1) rest
      | lineSuffix _ => fits mustBeFlat width true trailing rest
      | lineSuffixBoundary => if kept then true else fits mustBeFlat width kept trailing rest
      | breakParent => fits mustBeFlat width kept trailing rest
      | cursor => fits mustBeFlat width kept trailing rest
termination_by commandCost commands
decreasing_by
  all_goals simp only [commandCost, commandCost_append, commandCost_all, cost]
  all_goals omega

end LatexFormatter.Doc
