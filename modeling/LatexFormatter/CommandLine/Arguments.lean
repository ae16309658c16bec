import LatexFormatter.Options

/-
  The arguments of the command line. Switches stand alone, options take a value,
  and at most one argument is neither. A value follows in the next argument, or
  in the same one: after an equals sign, or directly after a one-letter name.
  Apart from the switch for more output nothing may be given twice.
-/

namespace LatexFormatter.CommandLine

/-- The two printers. -/
inductive Engine where
  | text
  | layout
  deriving Repr, DecidableEq

/-- The printer of a name. -/
def Engine.ofName? : String → Option Engine
  | "text" => some .text
  | "layout" => some .layout
  | _ => none

/-- What the command line asks for. -/
structure Arguments where
  input : Option String := none
  output : Option String := none
  engine : Option Engine := none
  printWidth : Option Nat := none
  tabWidth : Option Nat := none
  useSpaces : Bool := false
  check : Bool := false
  tree : Bool := false
  tokens : Bool := false
  config : Option String := none
  noColor : Bool := false
  verbosity : Nat := 0
  deriving Repr, DecidableEq

/-- Why arguments are refused. -/
inductive UsageFault where
  | unknown (name : String)
  | missingValue (name : String)
  | unexpectedValue (name : String)
  | invalidValue (name value : String)
  | repeated (name : String)
  | conflict (name other : String)
  | unexpected (argument : String)
  deriving Repr, DecidableEq

def UsageFault.message : UsageFault → String
  | .unknown name => s!"unexpected argument '{name}' found"
  | .missingValue name => s!"a value is required for '{name}' but none was supplied"
  | .unexpectedValue name => s!"unexpected value for '{name}' found; no more were expected"
  | .invalidValue name value => s!"invalid value '{value}' for '{name}'"
  | .repeated name => s!"the argument '{name}' cannot be used multiple times"
  | .conflict name other => s!"the argument '{name}' cannot be used with '{other}'"
  | .unexpected argument => s!"unexpected argument '{argument}' found"

/-- What the arguments amount to: something to do, or a text to show. -/
inductive Request where
  | run (arguments : Arguments)
  | version
  | help
  deriving Repr, DecidableEq

/-! ## Names -/

inductive Switch where
  | useSpaces
  | check
  | tree
  | tokens
  | noColor
  | verbose
  | version
  | help
  deriving Repr, DecidableEq

inductive ValueOption where
  | output
  | engine
  | printWidth
  | tabWidth
  | config
  deriving Repr, DecidableEq

/-- What a name on the command line means. -/
inductive Flag where
  | switch (switch : Switch)
  | valued (option : ValueOption)
  deriving Repr, DecidableEq

def Flag.ofLong? : String → Option Flag
  | "use-spaces" => some (.switch .useSpaces)
  | "check" => some (.switch .check)
  | "ast" => some (.switch .tree)
  | "tokens" => some (.switch .tokens)
  | "no-color" => some (.switch .noColor)
  | "verbose" => some (.switch .verbose)
  | "version" => some (.switch .version)
  | "help" => some (.switch .help)
  | "output" => some (.valued .output)
  | "engine" => some (.valued .engine)
  | "print-width" => some (.valued .printWidth)
  | "tab-width" => some (.valued .tabWidth)
  | "config" => some (.valued .config)
  | _ => none

def Flag.ofShort? : Char → Option Flag
  | 'v' => some (.switch .verbose)
  | 'V' => some (.switch .version)
  | 'h' => some (.switch .help)
  | 'o' => some (.valued .output)
  | 'e' => some (.valued .engine)
  | 'w' => some (.valued .printWidth)
  | 't' => some (.valued .tabWidth)
  | 'c' => some (.valued .config)
  | _ => none

/-! ## Values -/

/-- A number of 64 bits in decimal digits, which a plus sign may precede. -/
def width? (value : String) : Option Nat :=
  let digits := match value.toList with
    | '+' :: rest => rest
    | cs => cs
  if digits.isEmpty || !digits.all isDigit then none
  else
    let n := digits.foldl (fun n c => 10 * n + (c.toNat - '0'.toNat)) 0
    if n < wordLimit then some n else none

/-- Sets a field that may be set only once. -/
def once {α : Type} (name : String) (old : Option α) (new : α) : Except UsageFault (Option α) :=
  match old with
  | none => .ok (some new)
  | some _ => .error (.repeated name)

/-- Turns a switch on that may be turned on only once. -/
def turnOn (name : String) (old : Bool) : Except UsageFault Bool :=
  if old then .error (.repeated name) else .ok true

/-- A value that has to be of some form. -/
def decodeValue {α : Type} (decode : String → Option α) (name value : String) :
    Except UsageFault α :=
  match decode value with
  | some decoded => .ok decoded
  | none => .error (.invalidValue name value)

namespace Arguments

/-- Takes an option with its value. -/
def withOption (arguments : Arguments) (option : ValueOption) (name value : String) :
    Except UsageFault Arguments := do
  match option with
  | .output => return { arguments with output := ← once name arguments.output value }
  | .config => return { arguments with config := ← once name arguments.config value }
  | .engine =>
    let engine ← decodeValue Engine.ofName? name value
    return { arguments with engine := ← once name arguments.engine engine }
  | .printWidth =>
    let width ← decodeValue width? name value
    return { arguments with printWidth := ← once name arguments.printWidth width }
  | .tabWidth =>
    let width ← decodeValue width? name value
    return { arguments with tabWidth := ← once name arguments.tabWidth width }

/-- Takes a switch. Two of them ask for a text to be shown and nothing else. -/
def withSwitch (arguments : Arguments) (switch : Switch) (name : String) :
    Except UsageFault Request := do
  match switch with
  | .version => return .version
  | .help => return .help
  | .verbose => return .run { arguments with verbosity := arguments.verbosity + 1 }
  | .useSpaces => return .run { arguments with useSpaces := ← turnOn name arguments.useSpaces }
  | .check => return .run { arguments with check := ← turnOn name arguments.check }
  | .tree => return .run { arguments with tree := ← turnOn name arguments.tree }
  | .tokens => return .run { arguments with tokens := ← turnOn name arguments.tokens }
  | .noColor => return .run { arguments with noColor := ← turnOn name arguments.noColor }

/-- Takes an argument that is neither a switch nor an option. -/
def withInput (arguments : Arguments) (input : String) : Except UsageFault Arguments :=
  match arguments.input with
  | none => .ok { arguments with input := some input }
  | some _ => .error (.unexpected input)

end Arguments

/-! ## Reading arguments -/

/-- Where reading stands after one argument: the request is known already, or
there is more to read, possibly a value first. -/
inductive Progress where
  | done (request : Request)
  | more (arguments : Arguments)
  | value (arguments : Arguments) (option : ValueOption) (name : String)

/-- Reads switches by their letters, up to an option, which the remaining letters
are the value of. -/
def readLetters (arguments : Arguments) : List Char → Except UsageFault Progress
  | [] => .ok (.more arguments)
  | letter :: rest =>
    let name := String.ofList ['-', letter]
    match Flag.ofShort? letter with
    | none => .error (.unknown name)
    | some (.switch switch) => do
      match ← arguments.withSwitch switch name with
      | .run arguments => readLetters arguments rest
      | request => return .done request
    | some (.valued option) =>
      match rest with
      | [] => .ok (.value arguments option name)
      | '=' :: value => .more <$> arguments.withOption option name (String.ofList value)
      | value => .more <$> arguments.withOption option name (String.ofList value)

/-- Reads a switch or an option by its full name. -/
def readLong (arguments : Arguments) (cs : List Char) : Except UsageFault Progress :=
  let long := cs.takeWhile (· != '=')
  let name := String.ofList ('-' :: '-' :: long)
  let attached := match cs.drop long.length with
    | [] => none
    | _ :: value => some (String.ofList value)
  match Flag.ofLong? (String.ofList long), attached with
  | none, _ => .error (.unknown name)
  | some (.switch _), some _ => .error (.unexpectedValue name)
  | some (.switch switch), none => do
    match ← arguments.withSwitch switch name with
    | .run arguments => return .more arguments
    | request => return .done request
  | some (.valued option), none => .ok (.value arguments option name)
  | some (.valued option), some value => .more <$> arguments.withOption option name value

/-- Whether an argument names a switch or an option. A lone hyphen does not. -/
def isFlag (argument : String) : Bool :=
  match argument.toList with
  | '-' :: _ :: _ => true
  | _ => false

/-- Takes all that is left as no switches or options. -/
def readInputs (arguments : Arguments) : List String → Except UsageFault Arguments
  | [] => .ok arguments
  | input :: rest => do readInputs (← arguments.withInput input) rest

/-- What can only be judged once everything has been read. -/
def conclude (arguments : Arguments) : Except UsageFault Request :=
  if arguments.tree && arguments.tokens then .error (.conflict "--ast" "--tokens")
  else .ok (.run arguments)

/-- Reads arguments from left to right. The first fault, and the first switch that
asks for a text to be shown, decide. -/
def readFrom (arguments : Arguments) : List String → Except UsageFault Request
  | [] => conclude arguments
  | argument :: rest => do
    match argument.toList with
    | ['-', '-'] => conclude (← readInputs arguments rest)
    | '-' :: '-' :: long => follow (← readLong arguments long) rest
    | '-' :: letter :: letters => follow (← readLetters arguments (letter :: letters)) rest
    | _ => readFrom (← arguments.withInput argument) rest
where
  /-- Goes on after one argument. -/
  follow (progress : Progress) (rest : List String) : Except UsageFault Request :=
    match progress, rest with
    | .done request, _ => .ok request
    | .more arguments, rest => readFrom arguments rest
    | .value _ _ name, [] => .error (.missingValue name)
    | .value arguments option name, value :: rest =>
      if isFlag value then .error (.missingValue name)
      else do readFrom (← arguments.withOption option name value) rest

/-- Reads the arguments of the command line. -/
def readArguments (arguments : List String) : Except UsageFault Request := readFrom {} arguments

end LatexFormatter.CommandLine
