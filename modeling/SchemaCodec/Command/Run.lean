import SchemaCodec.Catalog.Basic
import SchemaCodec.Command.Basic
import SchemaCodec.Diagnostic.Snippet
import SchemaCodec.Hex

/-!
# Running a command

A command is a function of its surroundings: the files, the standard input and whether messages are
read on a terminal. It first loads the schema, then reads its input, then does its work, and the
first failure ends it; so of two faults the one that comes first in this order is reported.
-/

namespace SchemaCodec

namespace Command

/-- What a command can see. -/
structure Surroundings where
  files : FileView
  stdin : List UInt8
  /-- Whether messages go to a terminal. -/
  terminal : Bool

/-- What a command leaves behind. -/
structure Outcome where
  code : Nat
  stdout : List UInt8
  stderr : String

/-- Why a command fails. -/
inductive Failure where
  | noSchema
  | catalog (e : CatalogError)
  | wire (e : WireError)
  | bridge (e : BridgeError)
  | unreadable (path : String) (fault : FileFault)
  /-- A text is no JSON text, for a reason that its reader gives. -/
  | notJson (reason : String)
  | notHex

def Failure.message : Failure → String
  | noSchema => "schema is required: pass a file, a directory, or -s/--schema"
  | catalog e => e.message
  | wire e => e.message
  | bridge e => e.message
  | unreadable path fault => "failed to read " ++ path ++ ": " ++ fault.message
  | notJson reason => "invalid JSON input: " ++ reason
  | notHex => "invalid hex input"

/-- What is printed for a failure: diagnostics against their source, and a line otherwise. -/
def Failure.report (colored : Bool) : Failure → String
  | catalog (.text (.invalid origin text diagnostics)) =>
    Snippet.renderAll ⟨some origin, colored⟩ text diagnostics
  | failure => "error: " ++ failure.message ++ "\n"

/-! ## Input -/

/-- The bytes of a file or of the standard input. -/
def readSource (surroundings : Surroundings) (path : Option String) :
    Except Failure (List UInt8) :=
  match path with
  | none => .ok surroundings.stdin
  | some path => ((surroundings.files path).read).mapError (.unreadable path)

def jsonOfBytes (bytes : List UInt8) : Except Failure Json :=
  match (Text.ofBytes? bytes).bind Json.read? with
  | some json => .ok json
  | none => .error (.notJson Json.refusal)

def readJson (surroundings : Surroundings) : Input → Except Failure Json
  | .given text =>
    match Json.read? text with
    | some json => .ok json
    | none => .error (.notJson Json.refusal)
  | .file path => do jsonOfBytes (← readSource surroundings (some path))
  | .stdin => do jsonOfBytes (← readSource surroundings none)

/-- Reads bytes; those in the arguments are hexadecimal. -/
def readBytes (surroundings : Surroundings) : Input → Except Failure (List UInt8)
  | .given text =>
    match Hex.decode? text with
    | some bytes => .ok bytes
    | none => .error .notHex
  | .file path => readSource surroundings (some path)
  | .stdin => readSource surroundings none

/-! ## Work -/

/-- The schema of a command. Paths are loaded before texts. -/
def loadCatalog (command : Command) (files : FileView) : Except Failure Catalog :=
  if command.paths.isEmpty && command.texts.isEmpty then .error .noSchema
  else
    let settings :=
      { Catalog.Settings.standard with serializer := command.serializer.getD .standard }
    let sources := command.paths.map Source.path ++ command.texts.map Source.text
    (Catalog.load files settings sources).mapError .catalog

/-- A JSON value as bytes of a type. -/
def encodeJson (catalog : Catalog) (type : String) (json : Json) : Except Failure (List UInt8) := do
  let value ← (catalog.ofJson type json).mapError .bridge
  (catalog.encode type value).mapError .wire

/-- Bytes of a type as a JSON value. Bytes after the value are ignored. -/
def decodeJson (catalog : Catalog) (type : String) (bytes : List UInt8) : Except Failure Json := do
  let (value, _) ← (catalog.decode type bytes).mapError .wire
  (catalog.toJson type value).mapError .bridge

def line (text : String) : List UInt8 := Text.toBytes (text.push '\n')

/-- What an action prints. -/
def perform (surroundings : Surroundings) (catalog : Catalog) :
    Action → Except Failure (List UInt8)
  | .check => .ok []
  | .encode type input hex => do
    let json ← readJson surroundings input
    let bytes ← encodeJson catalog type json
    return if hex then line (Hex.encode bytes) else bytes
  | .decode type input layout => do
    let bytes ← readBytes surroundings input
    let json ← decodeJson catalog type bytes
    return line (json.render layout)
  | .portable layout => .ok (line (catalog.toPortable.render layout))

def run (command : Command) (surroundings : Surroundings) : Outcome :=
  match command.loadCatalog surroundings.files >>= (perform surroundings · command.action) with
  | .ok output => ⟨0, output, ""⟩
  | .error failure => ⟨1, [], failure.report (command.color.isOn surroundings.terminal)⟩

def readsStdin (command : Command) : Bool :=
  match command.action with
  | .encode _ .stdin _ | .decode _ .stdin _ => true
  | _ => false

/-- The paths at which a command may look for files. -/
def filePaths (command : Command) : List String :=
  match command.action with
  | .encode _ (.file path) _ | .decode _ (.file path) _ => path :: command.paths
  | _ => command.paths

end Command

end SchemaCodec
