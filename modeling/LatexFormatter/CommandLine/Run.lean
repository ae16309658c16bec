import LatexFormatter.Check
import LatexFormatter.CommandLine.Configuration
import LatexFormatter.Format

/-
  One run of the command line. What is not the formatter's own work is a
  parameter: libraries read the arguments, decode the settings file and write a
  tree as JSON (`Libraries`), and files are reached only through a `Host`, so what
  a run does to them can be told from its result. The steps come in a fixed
  order: the settings file is read, settings are merged and checked, the input
  is read, then it is checked or parsed and printed, and only then a file is
  opened and written. The first step that fails ends the run.

  Correspondence (program ↔ Lean):
    `Cli::parse`        ↔ `Libraries.readArguments`
    `FileConfig::load`  ↔ `Host.readFile`, `decodeText`, `Libraries.decodeSettings`
    `Settings::resolve` ↔ `Configuration.resolve`
    `read_input`        ↔ `readSource`
    `finish_output`     ↔ `finishOutput`
    `run`               ↔ `run`, with `configure`, `checkOutcome`, `rendered` and `deliver`
    `main`              ↔ `execute`
  Writing to the standard output is taken to succeed, and the log is left out.
-/

namespace LatexFormatter.CommandLine

/-- What a run leaves to libraries. Decoding and encoding say in words what is
wrong. -/
structure Libraries where
  readArguments : List String → Except UsageFault Request
  /-- Reads the text of a settings file. -/
  decodeSettings : String → Except String FileSettings
  /-- Writes a tree as JSON. -/
  encodeTree : Node → Except String String

/-- The files and streams a run can reach. A file is opened for writing first,
which creates it or empties it, and what is written goes to its end. -/
structure Host (m : Type → Type) where
  /-- Files that have been opened. -/
  Handle : Type
  readFile : String → m (Except FileFault ByteArray)
  readInput : m (Except FileFault ByteArray)
  createFile : String → m (Except FileFault Handle)
  writeAll : Handle → ByteArray → m (Except FileFault Unit)

/-- What a run has to say besides its output. -/
inductive Message where
  | nothing
  | usage (fault : UsageFault)
  | failure (error : FormatError)
  | finding (diagnostic : Diagnostic)
  | written (path : String)
  deriving Repr, DecidableEq

def Message.text : Message → String
  | nothing => ""
  | usage fault => s!"error: {fault.message}\n\nFor more information, try '--help'.\n"
  | failure error => s!"Error: {error.message}\n"
  | finding diagnostic => diagnostic.display ++ "\n"
  | written path => s!"✓ Output written to: {path}\n"

/-- How a run ends: its exit code, its output and its message. -/
structure Outcome where
  exit : Nat
  output : String := ""
  message : Message := .nothing
  deriving Repr, DecidableEq

/-- The version, as it is shown. -/
def versionText : String := "texfmt 0.3.5\n"

/-- The forms of the command line, as they are shown. -/
def helpText : String :=
  "\n".intercalate [
    "Usage: texfmt [OPTIONS] [INPUT_FILE]",
    "",
    "Options:",
    "  -o, --output <OUTPUT>            Output file path",
    "  -e, --engine <ENGINE>            Printer to use [possible values: text, layout]",
    "  -w, --print-width <PRINT_WIDTH>  Maximum line width",
    "  -t, --tab-width <TAB_WIDTH>      Width of one indentation level",
    "      --use-spaces                 Indent with spaces instead of tabs",
    "      --check                      Report syntax problems without formatting",
    "      --ast                        Dump the normalized tree as JSON",
    "      --tokens                     Dump the token stream, one token per line",
    "  -c, --config <CONFIG>            Read settings from a TOML file",
    "      --no-color                   Disable colored diagnostics",
    "  -v, --verbose                    More log output",
    "  -h, --help                       Print help",
    "  -V, --version                    Print version",
    ""]

/-- The text of a file, which has to be UTF-8. -/
def decodeText : Except FileFault ByteArray → Except FormatError String
  | .error fault => .error (.file fault)
  | .ok bytes =>
    match String.fromUTF8? bytes with
    | some text => .ok text
    | none => .error (.file .invalidUtf8)

/-- Ends a text with exactly one line feed. -/
def finishOutput (text : String) : String :=
  String.ofList ((text.toList.reverse.dropWhile (· == '\n')).reverse ++ ['\n'])

/-- What is printed of a tree: the tree itself, its token stream, or its text by
one of the printers. -/
def rendered (libraries : Libraries) (arguments : Arguments) (configuration : Configuration)
    (tree : Node) : Except FormatError String :=
  if arguments.tree then
    (libraries.encodeTree tree).mapError fun detail => .malformedTree (.unwritable detail)
  else if arguments.tokens then
    .ok ("\n".intercalate ((Token.ofNode tree).map Token.display))
  else match configuration.engine with
    | .text => .ok (printTokens configuration.text tree)
    | .layout => .ok (printDoc configuration.layout tree)

/-- The outcome of checking a text. -/
def checkOutcome (input : String) (useColor : Bool) : Outcome :=
  let report := check input
  { exit := if report.hasErrors then 1 else 0, output := report.display useColor ++ "\n" }

section

variable {m : Type → Type} [Monad m]

/-- The settings of a run. -/
def configure (libraries : Libraries) (host : Host m) (arguments : Arguments) :
    ExceptT FormatError m Configuration := do
  let file ← match arguments.config with
    | none => pure {}
    | some path =>
      let text ← ExceptT.mk (decodeText <$> host.readFile path)
      liftExcept ((libraries.decodeSettings text).mapError (.unreadable path))
  liftExcept (Configuration.resolve arguments file)
where
  /-- A fault in the settings ends the run. -/
  liftExcept {α : Type} (result : Except OptionFault α) : ExceptT FormatError m α :=
    ExceptT.mk (pure (result.mapError .invalidOptions))

/-- The text to be worked on. -/
def readSource (host : Host m) (arguments : Arguments) : ExceptT FormatError m String :=
  ExceptT.mk (decodeText <$> match arguments.input with
    | some path => host.readFile path
    | none => host.readInput)

/-- Delivers what has been printed, to a file or as output. -/
def deliver (host : Host m) (arguments : Arguments) (text : String) :
    ExceptT FormatError m Outcome := do
  match arguments.output with
  | none => return { exit := 0, output := text }
  | some path =>
    let file ← ExceptT.mk (Except.mapError FormatError.file <$> host.createFile path)
    ExceptT.mk (Except.mapError FormatError.file <$> host.writeAll file text.toUTF8)
    return { exit := 0, message := .written path }

/-- Does what the arguments ask for. Output never goes to a terminal in colour
unless `colored` says that it may. -/
def run (libraries : Libraries) (host : Host m) (colored : Bool) (arguments : Arguments) :
    ExceptT FormatError m Outcome := do
  let configuration ← configure libraries host arguments
  let input ← readSource host arguments
  if arguments.check then return checkOutcome input (colored && !arguments.noColor)
  match parseNormalized input with
  | .error (.outsideGrammar error) =>
    return { exit := 1, message := .finding (Diagnostic.ofSyntaxError error input) }
  | .error error => throw error
  | .ok tree =>
    let text ← ExceptT.mk (pure (rendered libraries arguments configuration tree))
    deliver host arguments (finishOutput text)

/-- Runs the command line on its arguments. -/
def execute (libraries : Libraries) (host : Host m) (colored : Bool) (arguments : List String) :
    m Outcome :=
  match libraries.readArguments arguments with
  | .error fault => pure { exit := 2, message := .usage fault }
  | .ok .version => pure { exit := 0, output := versionText }
  | .ok .help => pure { exit := 0, output := helpText }
  | .ok (.run arguments) => do
    match ← (run libraries host colored arguments).run with
    | .ok outcome => pure outcome
    | .error error => pure { exit := 2, message := .failure error }

end

end LatexFormatter.CommandLine
