import LatexFormatter.CommandLine.Arguments

/-
  The settings a run goes by. Each comes from the command line if it is given
  there, otherwise from the settings file, otherwise from the defaults; the one
  width of the command line counts for both printers. `FileSettings` is the
  program's `FileConfig`, `Configuration` its `Settings`, and
  `Configuration.resolve` its `Settings::resolve`.
-/

namespace LatexFormatter.CommandLine

/-- What a settings file can say. -/
structure FileSettings where
  engine : Option Engine := none
  printWidth : Option Nat := none
  maxWidth : Option Nat := none
  tabWidth : Option Nat := none
  useTabs : Option Bool := none
  parser : Option String := none
  deriving Repr, DecidableEq

/-- Reads the keys of a settings file. A value of the wrong type spoils it. -/
def FileSettings.ofSettings? (settings : Settings) : Option FileSettings := do
  return {
    engine := ← settings.read? "engine" fun setting => setting.choice?.bind Engine.ofName?
    printWidth := ← settings.read? "printWidth" Setting.width?
    maxWidth := ← settings.read? "maxWidth" Setting.width?
    tabWidth := ← settings.read? "tabWidth" Setting.width?
    useTabs := ← settings.read? "useTabs" Setting.boolean?
    parser := ← settings.read? "parser" Setting.text? }

/-- The settings of a run. -/
structure Configuration where
  engine : Engine
  text : TextOptions
  layout : LayoutOptions
  deriving Repr, DecidableEq

/-- Merges what the command line, the settings file and the defaults say. The
options of the layout engine are checked first, then those of the token
printer. -/
def Configuration.resolve (arguments : Arguments) (file : FileSettings) :
    Except OptionFault Configuration := do
  let text : TextOptions := {}
  let layout : LayoutOptions := {}
  let tabWidth := arguments.tabWidth <|> file.tabWidth
  let resolved : Configuration := {
    engine := (arguments.engine <|> file.engine).getD .layout
    text := {
      maxWidth := (arguments.printWidth <|> file.maxWidth).getD text.maxWidth
      tabWidth := tabWidth.getD text.tabWidth }
    layout := {
      printWidth := (arguments.printWidth <|> file.printWidth).getD layout.printWidth
      tabWidth := tabWidth.getD layout.tabWidth
      useTabs := !arguments.useSpaces && file.useTabs.getD layout.useTabs
      parser := file.parser.getD layout.parser } }
  resolved.layout.validate
  resolved.text.validate
  return resolved

end LatexFormatter.CommandLine
