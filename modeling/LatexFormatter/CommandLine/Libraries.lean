import LatexFormatter.CommandLine.Run
import LatexFormatter.JsonValue
import LatexFormatter.Toml.Document

/-
  Libraries to run the command line with: arguments, settings files in TOML and
  trees in JSON, all read and written here.
-/

namespace LatexFormatter.CommandLine

/-- Reads a settings file in TOML. -/
def FileSettings.ofToml (text : String) : Except String FileSettings :=
  match Toml.parse? text with
  | none => .error "this is not a TOML document"
  | some settings =>
    match ofSettings? settings with
    | none => .error "a value has the wrong type"
    | some file => .ok file

/-- The libraries of this project. -/
def Libraries.own : Libraries where
  readArguments := CommandLine.readArguments
  decodeSettings := FileSettings.ofToml
  encodeTree tree := .ok tree.jsonText

end LatexFormatter.CommandLine
