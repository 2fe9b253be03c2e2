import SchemaForge.Command.Run

/-!
The program as it runs on a machine. Everything is decided by `SchemaForge.Command.run`; here the files
that the command line names are read beforehand, and the ending is carried out.
-/

open SchemaForge SchemaForge.Command

def namedFiles (words : List String) : List String :=
  match readArguments words with
  | .error _ => []
  | .ok invocation =>
      let settings := invocation.settings
      settings.config.toList ++ settings.ops.name?.toList ++
        [settings.input.name?.getD invocation.task.defaultInput]

def openNamed (file : String) : IO (Except Obstacle ByteArray) := do
  if file.isEmpty then return .error .missing
  try
    return .ok (← IO.FS.readBinFile file)
  catch
    | .noFileOrDirectory .. => return .error .missing
    | .inappropriateType .. => return .error .isDirectory
    | _ => return .error .notDirectory

def breakdownText : Breakdown → String
  | .namesNothing flag => s!"{flag.label} names nothing"
  | .obstacle _ => "a file cannot be opened"
  | .notUtf8 => "a file is not UTF-8 text"
  | .numeralTooLong count => Numeric.tooLongMessage count
  | .fault f => f.message

def main (words : List String) : IO UInt32 := do
  let stdin ← IO.getStdin
  let piped ← if ← stdin.isTty then pure none else some <$> stdin.readToEnd
  let opened ← (namedFiles words).mapM fun file => return (file, ← openNamed file)
  let around : Surroundings := ⟨piped, fun file => (opened.lookup file).getD (.error .missing)⟩
  let report := run around words
  IO.eprint (joinLines report.lines)
  match report.ending with
  | .help => return 0
  | .text none text =>
      IO.print text
      return 0
  | .text (some file) text =>
      IO.FS.writeFile file text
      return 0
  | .complaint c =>
      IO.eprintln c.line
      return 2
  | .breakdown b =>
      IO.eprintln (breakdownText b)
      return 1
