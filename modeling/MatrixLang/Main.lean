import MatrixLang.CommandLine

/-!
# The program

Reads what the command line names, and prints what `Options.run` says.
-/

namespace MatrixLang

/-- More steps than a run will ever take. -/
def ampleFuel : Nat :=
  Nat.pow 2 62

/-- The text of a file, or why it could not be read. -/
def readText (path : String) : IO (Except String String) := do
  try
    return .ok (← IO.FS.readFile path)
  catch e =>
    match e with
    | .noFileOrDirectory .. => return .error "No such file or directory (os error 2)"
    | e => return .error (toString e)

/-- The files that a command reads. -/
def namedFiles (o : Options) : List String :=
  o.file.toList ++ o.settings.toList

/-- The texts of the files that a command reads. -/
def readFiles (o : Options) : IO (String → Except String String) := do
  let texts ← (namedFiles o).mapM fun path => return (path, ← readText path)
  return fun path => (texts.lookup path).getD (.error "file was not read")

/-- The standard input, if a command reads it. -/
def readInput (o : Options) : IO String := do
  if o.file.isNone && o.inline.isNone then (← IO.getStdin).readToEnd else return ""

end MatrixLang

open MatrixLang in
def main (arguments : List String) : IO UInt32 := do
  match Options.parse arguments with
  | none =>
    (← IO.getStderr).putStrLn "error: these arguments cannot be used together or are not known"
    return 2
  | some o =>
    let report := o.run ampleFuel (← readFiles o) (← readInput o)
    let stderr ← IO.getStderr
    if o.verbose then
      for note in report.notes do
        if note.level = .debug then stderr.putStrLn s!"[debug] {note.message}"
    (← IO.getStdout).putStr report.output
    for line in report.errors do
      stderr.putStrLn line
    return report.exitCode.toUInt32
