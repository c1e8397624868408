import SchemaCodec.Ty

/-!
# Builtin types

The names every schema can use without declaring them. Six stand for a shape of their own; the
other two build a shape from one argument.
-/

namespace SchemaCodec

/-- A name that needs no declaration. -/
inductive Builtin where
  | none | boolean | integer | float | string | bytes | array | optional
deriving DecidableEq, Repr

namespace Builtin

/-- All builtin names, in the order in which they seed a graph. -/
def all : List Builtin := [none, boolean, integer, float, string, bytes, array, optional]

def name : Builtin → String
  | none => "None"
  | boolean => "Boolean"
  | integer => "Integer"
  | float => "Float"
  | string => "String"
  | bytes => "Bytes"
  | array => "Array"
  | optional => "Optional"

def ofName? (text : String) : Option Builtin := all.find? (·.name = text)

def arity : Builtin → Nat
  | array | optional => 1
  | _ => 0

/-- The shape a builtin without arguments stands for. -/
def shape? : Builtin → Option Ty
  | none => some .none
  | boolean => some .boolean
  | integer => some .integer
  | float => some .float
  | string => some .string
  | bytes => some .bytes
  | array | optional => Option.none

/-- The type that a builtin stands for when applied, if the number of arguments is right. -/
def build? : Builtin → List Ty → Option Ty
  | array, [element] => some (.array element)
  | optional, [value] => some (.optional value)
  | b, [] => b.shape?
  | _, _ => Option.none

end Builtin

end SchemaCodec
