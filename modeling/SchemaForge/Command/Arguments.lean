import SchemaForge.Command.Usage
import SchemaForge.Text.Digit
import SchemaForge.Text.Uppercase

/-!
Reading the words of a command line. First every word is sorted: a word is plain, or it is a flag with
perhaps a value joined to it, or it looks like a flag and is none. A long flag may be cut short as long as
it stays the only one of its kind, and the value of a short flag may follow at once. After `--` all words
are plain. Then the words are gone through in order. The words before the task are sorted and read by the
general flags, and so are those after it, before the flags of the task sort them anew.

A value that is joined to its flag and is `--` stands for no value. The flag counts as given, and it names
nothing.
-/

namespace SchemaForge.Command

inductive FileChoice where
  /-- The flag is not given. -/
  | absent
  /-- The flag is given and names nothing. -/
  | nameless
  /-- The flag names a file. -/
  | named (file : String)
  deriving DecidableEq

def FileChoice.ofValue : Option String → FileChoice
  | none => .nameless
  | some file => .named file

def FileChoice.name? : FileChoice → Option String
  | .named file => some file
  | _ => none

/-- What a command line asks for. There is no level if the flag for it names nothing. -/
structure Settings where
  logLevel : Option Level
  config : Option String
  input : FileChoice
  title : Option String
  ops : FileChoice
  require : Option Bool
  output : Option String
  minify : Bool

/-- The settings of a command line without flags. -/
def Settings.initial : Settings := ⟨some .warning, none, .absent, none, .absent, none, none, false⟩

inductive Halt where
  | help
  | usage (task : Option Task) (fault : UsageFault)

/-- What a word is. What is joined to a flag stands after an equals sign, or follows a short flag at
once. -/
inductive Role where
  | plain
  | separator
  | flag (flag : Flag) (spelling : String) (joined : Option String)
  | unknown

structure Word where
  given : String
  role : Role

def Word.value? (word : Word) : Option String :=
  match word.role with
  | .plain => some word.given
  | _ => none

/-! ### Sorting words -/

/-- The spellings of some flags, in order. -/
def spellingsOf (flags : List Flag) : List (String × Flag) :=
  flags.flatMap fun f => f.spellings.map (·, f)

def splitEquals (cs : List Char) : List Char × Option (List Char) :=
  match cs.dropWhile (· ≠ '=') with
  | [] => (cs, none)
  | _ :: rest => (cs.takeWhile (· ≠ '='), some rest)

/-- The flags that a word may be short for. -/
def candidates (flags : List Flag) (word : String) : List (Flag × String × Option String) :=
  match word.toList with
  | '-' :: '-' :: _ =>
      let (start, value) := splitEquals word.toList
      (spellingsOf flags).filterMap fun (s, f) =>
        if start.isPrefixOf s.toList then some (f, s, value.map String.ofList) else none
  | '-' :: c :: rest =>
      (spellingsOf flags).filterMap fun (s, f) =>
        if s.toList = ['-', c] then some (f, s, some (String.ofList rest))
        else if word.toList.isPrefixOf s.toList then some (f, s, none)
        else none
  | _ => []

/-- Whether a word looks like a negative number: digits with at most one point before the last of them. A
line feed may follow. -/
def looksNegative (word : String) : Bool :=
  let isDecimal := fun c => (Text.digitValue? c).isSome
  match word.toList with
  | '-' :: cs =>
      let body := if cs.getLast? = some '\n' then cs.dropLast else cs
      let rest := body.dropWhile isDecimal
      match rest with
      | [] => !body.isEmpty
      | '.' :: fraction => !fraction.isEmpty && fraction.all isDecimal
      | _ => false
  | _ => false

/-- What a word is that is not the separator. -/
def roleOf (flags : List Flag) (word : String) : Except UsageFault Role :=
  match word.toList with
  | '-' :: _ :: _ =>
      match (spellingsOf flags).lookup word with
      | some f => .ok (.flag f word none)
      | none =>
          let (start, value) := splitEquals word.toList
          match value, (spellingsOf flags).lookup (String.ofList start) with
          | some v, some f => .ok (.flag f (String.ofList start) (some (String.ofList v)))
          | _, _ =>
              match candidates flags word with
              | [(f, s, joined)] => .ok (.flag f s joined)
              | [] => .ok (if looksNegative word || word.toList.contains ' ' then .plain else .unknown)
              | many => .error (.ambiguous word (many.map (·.2.1)))
  | _ => .ok .plain

def sortWords (flags : List Flag) : List String → Except UsageFault (List Word)
  | [] => .ok []
  | w :: ws =>
      if w = "--" then .ok (⟨w, .separator⟩ :: ws.map (⟨·, .plain⟩))
      else do
        let role ← roleOf flags w
        return ⟨w, role⟩ :: (← sortWords flags ws)

/-! ### Flags with their values -/

/-- What a word with a flag comes to: the flags in it with their values, and whether the next word was used
up as a value. -/
structure Reading where
  flags : List (Flag × Option String)
  usesNext : Bool

/-- The value that is joined to a flag. Two dashes on their own stand for none. -/
def joinedValue (text : String) : Option String := if text = "--" then none else some text

def readAlone (next : Option String) (flag : Flag) : Except UsageFault Reading :=
  if flag.takesValue then
    match next with
    | some value => .ok ⟨[(flag, some value)], true⟩
    | none => .error (.expectedArgument flag)
  else .ok ⟨[(flag, none)], false⟩

def readShort (flags : List Flag) (next : Option String) : List Char → Flag → Except UsageFault Reading
  | [], flag =>
      if flag.takesValue then .ok ⟨[(flag, some "")], false⟩ else .error (.ignoredArgument flag "")
  | c :: rest, flag =>
      if flag.takesValue then .ok ⟨[(flag, joinedValue (String.ofList (c :: rest)))], false⟩
      else
        match (spellingsOf flags).lookup (String.ofList ['-', c]) with
        | none => .error (.ignoredArgument flag (String.ofList (c :: rest)))
        | some inner => do
            let reading ← if rest.isEmpty then readAlone next inner else readShort flags next rest inner
            return { reading with flags := (flag, none) :: reading.flags }

def readLong (flag : Flag) (text : String) : Except UsageFault Reading :=
  if flag.takesValue then .ok ⟨[(flag, joinedValue text)], false⟩
  else .error (.ignoredArgument flag text)

def readFlag (flags : List Flag) (next : Option String) (flag : Flag) (spelling : String)
    (joined : Option String) : Except UsageFault Reading :=
  match joined with
  | none => readAlone next flag
  | some text =>
      if "--".toList.isPrefixOf spelling.toList then readLong flag text
      else readShort flags next text.toList flag

def readLevel (word : String) : Except UsageFault Level :=
  let upper := String.ofList (Text.uppercase word.toList)
  match Level.all.find? (·.name = upper) with
  | some level => .ok level
  | none => .error (.invalidLevel upper)

/-- Applies a flag with its value. The two flags for required fields exclude each other. -/
def applyFlag (task : Option Task) (settings : Settings) (flag : Flag) (value : Option String) :
    Except Halt Settings :=
  match flag with
  | .help => .error .help
  | .logLevel => do
      let level ← (value.mapM readLevel).mapError (Halt.usage task)
      return { settings with logLevel := level }
  | .config => .ok { settings with config := value }
  | .input => .ok { settings with input := .ofValue value }
  | .title => .ok { settings with title := value }
  | .ops => .ok { settings with ops := .ofValue value }
  | .requireAll =>
      if settings.require = some false then .error (.usage task (.notAllowed .requireAll .requireNone))
      else .ok { settings with require := some true }
  | .requireNone =>
      if settings.require = some true then .error (.usage task (.notAllowed .requireNone .requireAll))
      else .ok { settings with require := some false }
  | .output => .ok { settings with output := value }
  | .minify => .ok { settings with minify := true }

def applyFlags (task : Option Task) (settings : Settings) :
    List (Flag × Option String) → Except Halt Settings
  | [] => .ok settings
  | (flag, value) :: rest => do applyFlags task (← applyFlag task settings flag value) rest

def takeFlag (task : Option Task) (flags : List Flag) (settings : Settings) (next : Option Word)
    (flag : Flag) (spelling : String) (joined : Option String) : Except Halt (Settings × Bool) := do
  let reading ← (readFlag flags (next.bind Word.value?) flag spelling joined).mapError (Halt.usage task)
  let settings ← applyFlags task settings reading.flags
  return (settings, reading.usesNext)

/-! ### Lines -/

def readTaskWords (task : Task) : List Word → Settings → Except Halt (Settings × List String)
  | [], settings => .ok (settings, [])
  | w :: rest, settings =>
      match w.role with
      | .flag flag spelling joined => do
          let (settings, usesNext) ←
            takeFlag (some task) (Flag.ofTask task) settings rest.head? flag spelling joined
          if usesNext then
            match rest with
            | _ :: rest => readTaskWords task rest settings
            | [] => .ok (settings, [])
          else readTaskWords task rest settings
      | _ => do
          let (settings, strays) ← readTaskWords task rest settings
          return (settings, w.given :: strays)

def readTask (task : Task) (words : List String) (settings : Settings) :
    Except Halt (Settings × List String) := do
  let sorted ← (sortWords (Flag.ofTask task) words).mapError (Halt.usage (some task))
  let (settings, strays) ← readTaskWords task sorted settings
  if task = .edit ∧ settings.ops = .absent then
    .error (.usage (some task) (.required [Flag.ops.label]))
  else return (settings, strays)

structure Invocation where
  task : Task
  settings : Settings

def readCommand (word : String) (words : List String) (settings : Settings) :
    Except Halt (Invocation × List String) := do
  match Task.ofWord? word with
  | none => .error (.usage none (.invalidTask word))
  | some task =>
      let (settings, strays) ← readTask task words settings
      return (⟨task, settings⟩, strays)

def readLine : List Word → Settings → Except Halt (Option Invocation × List String)
  | [], _ => .ok (none, [])
  | w :: rest, settings =>
      match w.role with
      | .plain => do
          let (invocation, strays) ← readCommand w.given (rest.map Word.given) settings
          return (some invocation, strays)
      | .separator =>
          if rest.isEmpty then .ok (none, [w.given])
          else do
            let (invocation, strays) ← readCommand w.given (rest.map Word.given) settings
            return (some invocation, strays)
      | .flag flag spelling joined => do
          let (settings, usesNext) ←
            takeFlag none Flag.general settings rest.head? flag spelling joined
          if usesNext then
            match rest with
            | _ :: rest => readLine rest settings
            | [] => .ok (none, [])
          else readLine rest settings
      | .unknown => do
          let (invocation, strays) ← readLine rest settings
          return (invocation, w.given :: strays)

def readArguments (words : List String) : Except Halt Invocation := do
  let sorted ← (sortWords Flag.general words).mapError (Halt.usage none)
  match ← readLine sorted .initial with
  | (none, _) => .error (.usage none (.required ["command"]))
  | (some invocation, []) => return invocation
  | (some _, strays) => .error (.usage none (.unrecognized strays))

end SchemaForge.Command
