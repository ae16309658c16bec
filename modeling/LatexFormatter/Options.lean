import LatexFormatter.Error
import LatexFormatter.Word

/-
  The options of the two printers, and how they are read from settings. A
  setting is a key with a value, wherever it was written down. Every key is
  optional, keys that an option set does not know are ignored, and a value of
  the wrong type makes the whole set unreadable.
-/

namespace LatexFormatter

/-! ## Settings -/

/-- A value. Values that no option takes in any way are all alike. -/
inductive Setting where
  | integer (value : Int)
  | boolean (value : Bool)
  | text (value : String)
  | list (items : List Setting)
  | table (entries : List (String × Setting))
  | other
  deriving Repr

/-- Values by key. -/
abbrev Settings := List (String × Setting)

namespace Setting

/-- A width: a natural number of at most 64 bits. -/
def width? : Setting → Option Nat
  | integer value => if 0 ≤ value && value < wordLimit then some value.toNat else none
  | _ => none

def boolean? : Setting → Option Bool
  | boolean value => some value
  | _ => none

def text? : Setting → Option String
  | text value => some value
  | _ => none

/-- One of several names: the name itself, or a table that has it as its only key
and nothing under it. -/
def choice? : Setting → Option String
  | text name => some name
  | table [(name, list [])] => some name
  | table [(name, table [])] => some name
  | _ => none

end Setting

namespace Settings

/-- The value of a key, which may be absent but not of the wrong type. -/
def read? {α : Type} (settings : Settings) (key : String) (decode : Setting → Option α) :
    Option (Option α) :=
  match settings.lookup key with
  | none => some none
  | some setting => (decode setting).map some

/-- The value of a key, or a default where it is absent. -/
def readD? {α : Type} (settings : Settings) (key : String) (decode : Setting → Option α)
    (default : α) : Option α :=
  (settings.read? key decode).map (·.getD default)

end Settings

/-- A width that has to be positive. -/
def requirePositive (key : String) (width : Nat) : Except OptionFault Unit :=
  if width == 0 then .error (.notPositive key) else .ok ()

/-! ## The token printer -/

/-- Options of the token printer: the column at which it wraps and the width of
a tab. -/
structure TextOptions where
  maxWidth : Nat := 60
  tabWidth : Nat := 8
  deriving Repr, DecidableEq

namespace TextOptions

/-- The defaults with another width. -/
def withWidth (width : Nat) : TextOptions := { maxWidth := width }

def ofSettings? (settings : Settings) : Option TextOptions := do
  let defaults : TextOptions := {}
  return {
    maxWidth := ← settings.readD? "maxWidth" Setting.width? defaults.maxWidth
    tabWidth := ← settings.readD? "tabWidth" Setting.width? defaults.tabWidth }

/-- Both widths have to be positive; the first that is not is reported. -/
def validate (options : TextOptions) : Except OptionFault Unit := do
  requirePositive "maxWidth" options.maxWidth
  requirePositive "tabWidth" options.tabWidth

end TextOptions

/-! ## The layout engine -/

/-- Options of the layout engine: the width of a line, the width of one level of
indentation, whether to indent by tabs, and the name of the markup, which is
carried along only. -/
structure LayoutOptions where
  printWidth : Nat := 80
  tabWidth : Nat := 8
  useTabs : Bool := true
  parser : String := "latex"
  deriving Repr, DecidableEq

namespace LayoutOptions

/-- The defaults with indentation by the given number of spaces. -/
def spaces (width : Nat) : LayoutOptions := { tabWidth := width, useTabs := false }

/-- The defaults with lines as long as those of the token printer. -/
def compact : LayoutOptions := { printWidth := 60 }

def ofSettings? (settings : Settings) : Option LayoutOptions := do
  let defaults : LayoutOptions := {}
  return {
    printWidth := ← settings.readD? "printWidth" Setting.width? defaults.printWidth
    tabWidth := ← settings.readD? "tabWidth" Setting.width? defaults.tabWidth
    useTabs := ← settings.readD? "useTabs" Setting.boolean? defaults.useTabs
    parser := ← settings.readD? "parser" Setting.text? defaults.parser }

/-- Both widths have to be positive; the first that is not is reported. -/
def validate (options : LayoutOptions) : Except OptionFault Unit := do
  requirePositive "printWidth" options.printWidth
  requirePositive "tabWidth" options.tabWidth

end LayoutOptions

end LatexFormatter
