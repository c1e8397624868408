import SchemaCodec.Catalog.Source
import SchemaCodec.Expansion.Basic
import SchemaCodec.Json.Bridge
import SchemaCodec.Json.Reader
import SchemaCodec.Schema.Portable
import SchemaCodec.Wire.Serializer

/-!
# Catalogs

A catalog is a schema that is ready for use: the modules as they were read, the type graph they
expand to, and the serializer that writes their values. Types are named by the dotted form of their
keys.
-/

namespace SchemaCodec

/-- A loaded schema. -/
structure Catalog where
  modules : List Module
  graph : Graph
  serializer : Wire.Serializer

namespace Catalog

/-- How sources are loaded. -/
structure Settings where
  serializer : Wire.Serializer
  reading : Syntax.Limits
  expansion : Expansion.Limits

/-- The settings that hold unless others are made. -/
def Settings.standard : Settings := ⟨.standard, .standard, .standard⟩

/-! ## Loading -/

def ofModules (settings : Settings) (modules : List Module) : Except CatalogError Catalog :=
  match Expansion.graph settings.expansion modules with
  | .ok graph => .ok ⟨modules, graph, settings.serializer⟩
  | .error e => .error (.expansion e)

/-- The catalog of the modules of sources. -/
def load (view : FileView) (settings : Settings) (sources : List Source) :
    Except CatalogError Catalog := do
  let modules ← sources.mapM (Source.load view settings.reading)
  ofModules settings modules.flatten

def toSource (catalog : Catalog) : Source := .modules catalog.modules

/-- Loads further sources after the modules of a catalog, whose serializer is kept. -/
def extend (catalog : Catalog) (view : FileView) (sources : List Source) :
    Except CatalogError Catalog :=
  load view { Settings.standard with serializer := catalog.serializer }
    (catalog.toSource :: sources)

/-! ## The portable form -/

def toPortable (catalog : Catalog) : Json := Portable.ofModules catalog.modules

/-- The catalog of modules, unless they could not be read. -/
def ofRead : Option (List Module) → Except CatalogError Catalog
  | some modules => ofModules .standard modules
  | none => .error .notPortable

def ofPortable (json : Json) : Except CatalogError Catalog := ofRead (Portable.modules? json)

/-- The catalog of a file that holds modules in portable form. -/
def ofPortableFile (view : FileView) (path : String) : Except CatalogError Catalog := do
  ofRead (Portable.ofText? (← Source.readText path (view path)))

/-! ## Values -/

/-- The type that a dotted name denotes. -/
def typeOf (name : String) : Ty := .ref (Key.ofText name)

def encode (catalog : Catalog) (name : String) (value : Value) : Except WireError (List UInt8) :=
  catalog.serializer.encode catalog.graph (typeOf name) value

/-- A value of a named type from the front of the data, and the unread rest. -/
def decode (catalog : Catalog) (name : String) (data : List UInt8) :
    Except WireError (Value × List UInt8) :=
  catalog.serializer.decode catalog.graph (typeOf name) data

def toJson (catalog : Catalog) (name : String) (value : Value) : Except BridgeError Json :=
  Json.ofValue catalog.graph (typeOf name) value

def ofJson (catalog : Catalog) (name : String) (json : Json) : Except BridgeError Value :=
  Json.toValue catalog.graph (typeOf name) json

end Catalog

end SchemaCodec
