import FieldTree.Blob.Basic

/-!
# Command Lines

The arguments of a command line are read from left to right. A level of reading knows the options that are
allowed there; the first plain argument names the subcommand, whose level reads the rest. Options that
belong to all levels count from the innermost level at which they are given.

A value that is an argument of its own is not looked at when it is met but with the next option or plain
argument of its level, or at the end. A fault in a last value before the subcommand therefore comes after all
that the subcommand's level has to say, and a request for the version there is still answered.

## Architecture

- `Action`, `Invocation`: what is asked for.
- `Stop`: why nothing is to be done.
- `Level`: what was read at one level, with the value that is still to be looked at.
- `Arguments.read`: from arguments to an invocation.
-/

namespace FieldTree.Command

/-- The subcommands. -/
inductive Subcommand where
  | encode
  | decode
  | dump
  | validate
  deriving DecidableEq, Repr

def Subcommand.name : Subcommand → String
  | encode => "encode"
  | decode => "decode"
  | dump => "dump"
  | validate => "validate"

/-- The subcommand of a given name. -/
def Subcommand.ofName? (name : String) : Option Subcommand :=
  [encode, decode, dump, validate].find? (·.name == name)

/-- What is to be done, with which files. -/
inductive Action where
  | encode (input : String) (output : Option String) (force : Bool)
  | decode (input : String) (pretty : Bool)
  | dump (input : String)
  | validate (input signature : String)
  deriving DecidableEq, Repr

/-- An action and what holds for all actions. -/
structure Invocation where
  action : Action
  verbosity : Nat
  maxSize : Nat
  deriving DecidableEq, Repr

/-- Why a command line is not carried out. -/
inductive Stop where
  | usage
  | help
  | version (subcommand : Option Subcommand)
  deriving DecidableEq, Repr

namespace Arguments

/-- The options that take a value. -/
inductive Valued where
  | maxSize
  | output
  deriving DecidableEq, Repr

/-- What was read at one level. -/
structure Level where
  subcommand : Option Subcommand
  verbosity : Nat := 0
  maxSize : Option Nat := none
  output : Option String := none
  force : Bool := false
  pretty : Bool := false
  /-- plain arguments, last first -/
  plain : List String := []
  /-- an option whose value was met and not yet looked at -/
  pending : Option (Valued × String) := none
  deriving DecidableEq, Repr

/-- A size in decimal, of at most 64 bits. -/
def readSize (text : String) : Option Nat :=
  let ds := match text.toList with
    | '+' :: rest => rest
    | ds => ds
  if ds ≠ [] ∧ ds.all Char.isDigit then
    let n := Nat.ofDigitChars 10 ds 0
    if n < 2 ^ 64 then some n else none
  else none

/-- Takes the value of an option. An option can be given once per level. -/
def Level.take (level : Level) (option : Valued) (value : String) : Except Stop Level :=
  match option with
  | .maxSize =>
    match level.maxSize, readSize value with
    | none, some n => .ok { level with maxSize := some n }
    | _, _ => .error .usage
  | .output =>
    if level.output = none ∧ value ≠ "" then .ok { level with output := some value }
    else .error .usage

/-- Looks at the value that is pending. -/
def Level.settle (level : Level) : Except Stop Level :=
  match level.pending with
  | none => .ok level
  | some (option, value) => { level with pending := none }.take option value

/-- What the name of an option stands for at a level. -/
inductive Named where
  | flag (next : Except Stop Level)
  | valued (option : Valued)
  | unknown

/-- The long options. -/
def Level.long (level : Level) (name : String) : Named :=
  match name, level.subcommand with
  | "verbose", _ => .flag (.ok { level with verbosity := level.verbosity + 1 })
  | "version", subcommand => .flag (.error (.version subcommand))
  | "help", _ => .flag (.error .help)
  | "max-size", _ => .valued .maxSize
  | "output", some .encode => .valued .output
  | "force", some .encode =>
    .flag (if level.force then .error .usage else .ok { level with force := true })
  | "pretty", some .decode =>
    .flag (if level.pretty then .error .usage else .ok { level with pretty := true })
  | _, _ => .unknown

/-- The short options. -/
def Level.short (level : Level) (letter : Char) : Named :=
  match letter, level.subcommand with
  | 'v', _ => .flag (.ok { level with verbosity := level.verbosity + 1 })
  | 'V', subcommand => .flag (.error (.version subcommand))
  | 'h', _ => .flag (.error .help)
  | 'o', some .encode => .valued .output
  | _, _ => .unknown

/-- What an argument that starts with a minus sign comes to. -/
inductive Optional where
  | stop (why : Stop)
  | taken (level : Level)
  /-- the next argument is the value -/
  | awaiting (level : Level) (option : Valued)

/-- An option whose value may have to come from the next argument. -/
def Level.withValue (level : Level) (option : Valued) : Option String → Optional
  | none => .awaiting level option
  | some value =>
    match level.take option value with
    | .error why => .stop why
    | .ok level => .taken level

/-- Reads the letters behind a single minus sign. -/
def Level.letters (level : Level) : List Char → Optional
  | [] => .taken level
  | letter :: rest =>
    match level.short letter with
    | .unknown => .stop .usage
    | .flag (.error why) => .stop why
    | .flag (.ok level) => level.letters rest
    | .valued option =>
      level.withValue option <|
        match rest with
        | [] => none
        | '=' :: value => some (String.ofList value)
        | value => some (String.ofList value)

/-- Reads a name behind two minus signs, with a value behind an equals sign. -/
def Level.named (level : Level) (text : List Char) : Optional :=
  let name := String.ofList (text.takeWhile (· != '='))
  let value :=
    match text.dropWhile (· != '=') with
    | _ :: value => some (String.ofList value)
    | [] => none
  match level.long name, value with
  | .flag (.ok level), none => .taken level
  | .flag (.error why), none => .stop why
  | .valued option, value => level.withValue option value
  | _, _ => .stop .usage

/-- Whether an argument is an option; a lone minus sign is not. -/
def isOption (argument : String) : Bool :=
  match argument.toList with
  | '-' :: _ :: _ => true
  | _ => false

/-- The action at the end of a level. -/
def Level.finish (level : Level) : Except Stop Action :=
  match level.subcommand, level.plain.reverse with
  | some .encode, [input] => .ok (.encode input level.output level.force)
  | some .decode, [input] => .ok (.decode input level.pretty)
  | some .dump, [input] => .ok (.dump input)
  | some .validate, [input, signature] => .ok (.validate input signature)
  | _, _ => .error .usage

/-- How many plain arguments a subcommand takes. -/
def plainCount : Subcommand → Nat
  | .validate => 2
  | _ => 1

/-- Takes a plain argument at the level of a subcommand. -/
def Level.takePlain (level : Level) (subcommand : Subcommand) (argument : String) :
    Except Stop Level :=
  -- the first plain argument is a file, and a file has a name
  if level.plain.length = plainCount subcommand ∨ (level.plain = [] ∧ argument = "") then
    .error .usage
  else .ok { level with plain := argument :: level.plain }

/-- What `help` comes to. It takes the name of at most one subcommand, which may be itself. -/
def helpOn : List String → Stop
  | [] => .help
  | [name] => if name = "help" ∨ (Subcommand.ofName? name).isSome then .help else .usage
  | _ => .usage

/-- Reads an option, which starts with a minus sign. -/
def Level.takeOption (level : Level) (argument : String) : Optional :=
  match argument.toList.drop 1 with
  | '-' :: text => level.named text
  | letters => level.letters letters

/-- What both levels together ask for. -/
def conclude (outer inner : Level) : Except Stop Invocation := do
  let inner ← inner.settle
  let action ← inner.finish
  let outer ← outer.settle
  return {
    action
    verbosity := if inner.verbosity = 0 then outer.verbosity else inner.verbosity
    maxSize := (inner.maxSize.or outer.maxSize).getD ({} : Config).maxSize }

/-- Reads arguments at the level of a subcommand. Behind `--` there are only plain ones. -/
def readInner (outer : Level) (subcommand : Subcommand) (plainOnly : Bool) (level : Level) :
    List String → Except Stop Invocation
  | [] => conclude outer level
  | argument :: rest =>
    if argument = "--" ∧ !plainOnly then readInner outer subcommand true level rest
    else
      match level.settle with
      | .error why => .error why
      | .ok level =>
        if plainOnly ∨ !isOption argument then
          match level.takePlain subcommand argument with
          | .error why => .error why
          | .ok level => readInner outer subcommand plainOnly level rest
        else
          match level.takeOption argument, rest with
          | .stop why, _ => .error why
          | .taken level, rest => readInner outer subcommand plainOnly level rest
          | .awaiting _ _, [] => .error .usage
          | .awaiting level option, value :: rest =>
            if isOption value then .error .usage
            else
              readInner outer subcommand plainOnly { level with pending := some (option, value) } rest

/-- Reads arguments up to the subcommand. Here the only plain argument is its name. -/
def readOuter (level : Level) : List String → Except Stop Invocation
  | [] => .error .usage
  | argument :: rest =>
    if !isOption argument then
      match Subcommand.ofName? argument with
      | some subcommand => readInner level subcommand false { subcommand } rest
      | none => .error (if argument = "help" then helpOn rest else .usage)
    else
      match level.settle with
      | .error why => .error why
      | .ok level =>
        match level.takeOption argument, rest with
        | .stop why, _ => .error why
        | .taken level, rest => readOuter level rest
        | .awaiting _ _, [] => .error .usage
        | .awaiting level option, value :: rest =>
          if isOption value then .error .usage
          else readOuter { level with pending := some (option, value) } rest

/-- Reads a whole command line. -/
def read (arguments : List String) : Except Stop Invocation :=
  readOuter { subcommand := none } arguments

end Arguments

end FieldTree.Command
