/-
  How printed text ends so far. Both printers follow one discipline for breaks:
  whether a break is wanted, and how many lines it takes, depends only on this.
-/

namespace LatexFormatter

/-- What has been printed last. -/
inductive Ending where
  /-- Nothing has been printed yet. -/
  | start
  /-- A line has just been started. -/
  | newline
  /-- A blank line has just been left. -/
  | paragraph
  /-- Something visible or a space stands on the line. -/
  | content
  deriving Repr, DecidableEq

end LatexFormatter
