import SchemaCodec.Command.Item
import SchemaCodec.Json.Writer
import SchemaCodec.Wire.Serializer

/-!
# Commands

A command is what valid arguments ask for. Its type has no place for contradictions: a value comes
from one place only, and a type is named exactly where one is needed. Arguments that ask for no
command are a usage error, which needs no further description.
-/

namespace SchemaCodec

/-- When colors are used. -/
inductive Command.Color where
  /-- When the messages go to a terminal. -/
  | auto
  | always
  | never
deriving DecidableEq, Repr

/-- Where a value is read from. -/
inductive Command.Input where
  /-- The arguments hold it. -/
  | given (text : String)
  | file (path : String)
  | stdin
deriving DecidableEq, Repr

/-- What is done with a schema. -/
inductive Command.Action where
  | check
  /-- Write a JSON value as bytes, raw or in hexadecimal. -/
  | encode (type : String) (input : Command.Input) (hex : Bool)
  /-- Write bytes, given raw or in hexadecimal, as JSON. -/
  | decode (type : String) (input : Command.Input) (layout : Json.Layout)
  | portable (layout : Json.Layout)
deriving DecidableEq, Repr

/-- A run of the program. -/
structure Command where
  paths : List String
  texts : List String
  serializer : Option Wire.Serializer
  color : Command.Color
  action : Command.Action
deriving DecidableEq, Repr

namespace Command

/-- Whether colors are used, given whether the messages go to a terminal. -/
def Color.isOn : Color → (terminal : Bool) → Bool
  | auto, terminal => terminal
  | always, _ => true
  | never, _ => false

def Color.ofName? : String → Option Color
  | "auto" => some auto
  | "always" => some always
  | "never" => some never
  | _ => none

/-! ## Items of one kind -/

def pathsOf (items : List Item) : List String :=
  items.filterMap fun
    | .path path => some path
    | .setting _ _ => none

def valuesOf (setting : Setting) (items : List Item) : List String :=
  items.filterMap fun
    | .path _ => none
    | .setting other value => if other = setting then some value else none

/-- The value of a setting that may be made once. -/
def once? (setting : Setting) (items : List Item) : Option (Option String) :=
  match valuesOf setting items with
  | [] => some none
  | [value] => some (some value)
  | _ => none

/-- Whether a setting without a value is made. -/
def flag? (setting : Setting) (items : List Item) : Option Bool :=
  (once? setting items).map Option.isSome

/-! ## Reading arguments -/

/-- Where the value is read from; `inline` is the setting that holds it. -/
def input? (inline : Setting) (items : List Item) : Option Input := do
  match ← once? inline items, ← once? .input items with
  | some text, none => some (.given text)
  | none, some path =>
    if path.isEmpty then none else some (if path = "-" then .stdin else .file path)
  | none, none => some .stdin
  | some _, some _ => none

def layout? (items : List Item) : Option Json.Layout :=
  (flag? .pretty items).map fun pretty ↦ if pretty then .indented else .compact

def action? (verb : Verb) (items : List Item) : Option Action := do
  match verb with
  | .check => some .check
  | .encode =>
    let type ← (← once? .type items)
    some (.encode type (← input? .json items) (← flag? .hex items))
  | .decode =>
    let type ← (← once? .type items)
    some (.decode type (← input? .hexInput items) (← layout? items))
  | .portable => some (.portable (← layout? items))

/-- The choice that a setting makes by a word, if it is made. -/
def choice? {α : Type} (setting : Setting) (ofName? : String → Option α) (items : List Item) :
    Option (Option α) := do
  match ← once? setting items with
  | none => some none
  | some word => (ofName? word).map some

/-- The command that arguments ask for; none is a usage error. -/
def read? : List String → Option Command
  | [] => none
  | word :: arguments => do
    let verb ← Verb.ofName? word
    let items ← readItems verb.settings arguments
    let paths := pathsOf items
    if paths.contains "" then none
    else
      some {
        paths
        texts := valuesOf .schema items
        serializer := ← choice? .serializer Wire.Serializer.ofName? items
        color := (← choice? .color Color.ofName? items).getD .auto
        action := ← action? verb items }

end Command

end SchemaCodec
