import MatrixLang.Environment.Json
import MatrixLang.Program.Run
import MatrixLang.Settings.Json

/-!
# The command line

What the command line asks for (`Options.parse`), and what is printed for it (`Options.run`).
Files are read by a function that is handed in, so nothing here touches the outside.
-/

namespace MatrixLang

/-- What a command line asks for. -/
structure Options where
  /-- The file with the program. -/
  file : Option String := none
  /-- The text of the program. -/
  inline : Option String := none
  /-- The variables to print; all of the program's if there are none. -/
  shown : List String := []
  /-- Print JSON. -/
  json : Bool := false
  /-- Print the compiled statements and do not run them. -/
  dump : Bool := false
  /-- Start without the constants. -/
  noConstants : Bool := false
  /-- The file with the settings. -/
  settings : Option String := none
  /-- Print notes. -/
  verbose : Bool := false
deriving Repr, Inhabited

/-- What a command prints, and the code it exits with. -/
structure Report where
  exitCode : Nat
  output : String
  /-- Lines for the standard error stream. -/
  errors : List String
  /-- What was noted, for a verbose command. -/
  notes : List Note
deriving Inhabited

namespace Options

/-! ## Arguments -/

/-- Options that take no value, with their long and short spelling.  None of them may be
given twice. -/
def flag? (o : Options) (word : String) : Option Options :=
  match word with
  | "json" | "j" => if o.json then none else some { o with json := true }
  | "dump" => if o.dump then none else some { o with dump := true }
  | "no-constants" => if o.noConstants then none else some { o with noConstants := true }
  | "verbose" | "v" => if o.verbose then none else some { o with verbose := true }
  | _ => none

/-- Options that take a value, with their long and short spelling.  Only the names of
variables may be given more than once. -/
def valued? (o : Options) (word value : String) : Option Options :=
  match word with
  | "eval" | "e" => if o.inline.isSome then none else some { o with inline := some value }
  | "config" | "c" => if o.settings.isSome then none else some { o with settings := some value }
  | "var" => some { o with shown := o.shown ++ [value] }
  | _ => none

/-- Whether an argument can be the value of the option before it: it does not look like an
option itself.  A lone dash is a value. -/
def isValue (word : String) : Bool :=
  match word.toList with
  | '-' :: _ :: _ => false
  | _ => true

/-- Takes a file name. -/
def positional? (o : Options) (name : String) : Option Options :=
  if o.file.isSome then none else some { o with file := some name }

/-- The value that follows a single letter in the same argument. -/
def attached : List Char → String
  | '=' :: cs => String.ofList cs
  | cs => String.ofList cs

/-- Reads letters after a single dash: options without a value may share one, and an
option with a value ends them.  What is still missing is the letter of an option whose
value is the next argument. -/
def letters? (o : Options) : List Char → Option (Options × Option String)
  | [] => some (o, none)
  | c :: cs =>
    match o.flag? c.toString with
    | some o => o.letters? cs
    | none =>
      match cs with
      | [] => if (o.valued? c.toString "").isSome then some (o, some c.toString) else none
      | cs => (o.valued? c.toString (attached cs)).map fun o => (o, none)

/-- Splits a long option at its first equals sign. -/
def splitLong (cs : List Char) : String × Option String :=
  match cs.dropWhile (· ≠ '=') with
  | '=' :: value => (String.ofList (cs.takeWhile (· ≠ '=')), some (String.ofList value))
  | _ => (String.ofList cs, none)

/-- Reads an option that is spelled out after two dashes. -/
def long? (o : Options) (cs : List Char) : Option (Options × Option String) :=
  match splitLong cs with
  | (name, some value) => (o.valued? name value).map fun o => (o, none)
  | (name, none) =>
    match o.flag? name with
    | some o => some (o, none)
    | none => if (o.valued? name "").isSome then some (o, some name) else none

/-- Reads one argument: the options with it, and the name of the option whose value comes
next, if it is one.  Two dashes spell out a word of at least two letters. -/
def argument? (o : Options) (word : String) : Option (Options × Option String) :=
  match word.toList with
  | '-' :: '-' :: cs => if cs.length ≤ 1 then none else o.long? cs
  | '-' :: c :: cs => o.letters? (c :: cs)
  | _ => (o.positional? word).map fun o => (o, none)

/-- Reads the arguments of a command after the option `pending`, which waits for its
value. -/
def parseFrom (o : Options) (pending : Option String) : List String → Option Options
  | [] => if pending.isNone then some o else none
  | word :: words =>
    match pending with
    | some name =>
      match o.valued? name word with
      | some o => if isValue word then o.parseFrom none words else none
      | none => none
    | none =>
      if word = "--" then words.foldlM positional? o
      else
        match o.argument? word with
        | some (o, pending) => o.parseFrom pending words
        | none => none

/-- Reads the arguments of a command.  A program comes from a file or from the command
line, not from both. -/
def parse (words : List String) : Option Options := do
  let o ← parseFrom {} none words
  if o.file.isSome ∧ o.inline.isSome then none else some o

/-! ## Printing -/

/-- A text that stands at the right of four columns. -/
def padLine (n : Nat) : String :=
  let digits := Number.digitsOf n
  String.ofList (List.replicate (4 - digits.length) ' ' ++ digits)

/-- The listing of a compiled program. -/
def listing (p : Program) : String :=
  let line (s : Statement) : String := s!"  {padLine s.line} {s.text}\n"
  let names := ", ".intercalate p.names
  "Compiled statements\n" ++ String.join (p.statements.map line) ++ s!"Variables: {names}\n"

/-- The names of the variables to print. -/
def selected (o : Options) (p : Program) (env : Environment) : List String :=
  if o.shown.isEmpty then p.names.filter env.contains else o.shown

/-- The line for a variable. -/
def variableLine (env : Environment) (name : String) : String :=
  match env.get? name with
  | some value => s!"{name} ({value.shape.text}) {value.text}\n"
  | none => s!"{name} undefined\n"

/-- What is printed of an environment. -/
def environmentText (o : Options) (p : Program) (env : Environment) : String :=
  let names := o.selected p env
  if o.json then
    let bindings := (Names.ofList names).filterMap fun name => (env.get? name).map (name, ·)
    (Environment.bindingsJson bindings).pretty ++ "\n"
  else String.join (names.map (variableLine env))

/-! ## Running -/

/-- A report of a failure. -/
def failed (message : String) (output : String) (notes : List Note) : Report :=
  ⟨1, output, [s!"Error: {message}"], notes⟩

/-- The text of the program. -/
def source (o : Options) (file : String → Except String String) (input : String) :
    Except String String :=
  match o.inline, o.file with
  | some text, _ => .ok text
  | none, some path => (file path).mapError fun e => s!"Failed to read file '{path}': {e}"
  | none, none => .ok input

/-- The settings, with what the command line says about them. -/
def loadSettings (o : Options) (file : String → Except String String) :
    Except String Settings := do
  let settings ←
    match o.settings with
    | none => pure Settings.standard
    | some path =>
      let text ← (file path).mapError fun e => s!"Failed to read config '{path}': {e}"
      match Settings.read? text with
      | some settings => pure settings
      | none => throw s!"Invalid config '{path}': not valid settings"
  return if o.noConstants then { settings with constants := false } else settings

/-- Runs a compiled program and prints its variables, also after a failure. -/
def execute (o : Options) (fuel : Nat) (settings : Settings) (p : Program) (notes : List Note) :
    Report :=
  let result := p.run fuel (Environment.initial settings)
  let output := o.environmentText p result.env
  let notes := notes ++ result.notes
  match result.outcome with
  | .ok () => ⟨0, output, [], notes⟩
  | .error (.failure failure) => failed failure.message output notes
  | .error .outOfFuel => failed "out of fuel" output notes

/-- What a command prints, where `file` reads files and `input` is the standard input. -/
def run (o : Options) (fuel : Nat) (file : String → Except String String) (input : String) :
    Report :=
  match o.source file input with
  | .error message => failed message "" []
  | .ok text =>
    match o.loadSettings file with
    | .error message => failed message "" []
    | .ok settings =>
      let compiled := compileNoted text
      match compiled.result with
      | .error failure => failed failure.message "" compiled.notes
      | .ok p =>
        if o.dump then ⟨0, listing p, [], compiled.notes⟩
        else o.execute fuel settings p compiled.notes

end Options

end MatrixLang
