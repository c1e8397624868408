import SchemaCodec.Command.Setting

/-!
# Arguments as items

Arguments are read one by one into paths and settings. An argument that starts with a dash makes
settings: `--word`, `--word=value`, or a run of letters after one dash, of which the last may take
the rest of the argument as its value. A value that is not attached is the next argument, which
then may not start with a dash itself, a lone dash apart. After `--` every argument is a path.
-/

namespace SchemaCodec.Command

/-- A part of a command line: a path, or a setting with its value, empty if it takes none. -/
inductive Item where
  | path (path : String)
  | setting (setting : Setting) (value : String)
deriving DecidableEq, Repr

/-- Settings of one argument, and the one of them that still needs a value. -/
abbrev Opening := List Item × Option Setting

/-- Splits characters at the first equals sign. -/
def splitAtEquals : List Char → List Char × Option (List Char)
  | [] => ([], none)
  | c :: rest =>
    if c = '=' then ([], some rest)
    else
      let (word, value) := splitAtEquals rest
      (c :: word, value)

/-- Reads a word with or without an attached value. -/
def readWord (settings : List Setting) (cs : List Char) : Option Opening :=
  let (word, value) := splitAtEquals cs
  match settings.find? fun setting ↦ setting.word? = some (String.ofList word) with
  | none => none
  | some setting =>
    match setting.takesValue, value with
    | true, some value => some ([.setting setting (String.ofList value)], none)
    | true, none => some ([], some setting)
    | false, none => some ([.setting setting ""], none)
    | false, some _ => none

/-- Reads a run of letters. An equals sign in front of an attached value is no part of it. -/
def readLetters (settings : List Setting) : List Char → Option Opening
  | [] => some ([], none)
  | c :: rest =>
    match settings.find? fun setting ↦ setting.letter? = some c with
    | none => none
    | some setting =>
      if setting.takesValue then
        match rest with
        | [] => some ([], some setting)
        | '=' :: value => some ([.setting setting (String.ofList value)], none)
        | value => some ([.setting setting (String.ofList value)], none)
      else
        (readLetters settings rest).map fun (items, open?) ↦ (.setting setting "" :: items, open?)

/-- Reads one argument. A lone dash is a path. -/
def readArgument (settings : List Setting) (argument : String) : Option Opening :=
  match argument.toList with
  | '-' :: '-' :: cs => readWord settings cs
  | '-' :: c :: cs => readLetters settings (c :: cs)
  | _ => some ([.path argument], none)

/-- Whether an argument can be the value of the setting before it. -/
def isValue (argument : String) : Bool := argument = "-" || !argument.startsWith "-"

/-- Reads arguments; none if they cannot be understood. -/
def readItems (settings : List Setting) : List String → Option (List Item)
  | [] => some []
  | argument :: rest =>
    if argument = "--" then some (rest.map .path)
    else
      match readArgument settings argument, rest with
      | none, _ => none
      | some (items, none), rest => (readItems settings rest).map (items ++ ·)
      | some (_, some _), [] => none
      | some (items, some setting), value :: rest =>
        if isValue value then
          (readItems settings rest).map (items ++ .setting setting value :: ·)
        else none

end SchemaCodec.Command
