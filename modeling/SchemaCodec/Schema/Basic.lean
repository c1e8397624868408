import SchemaCodec.Key
import SchemaCodec.Members

/-!
# Schemas as written

A schema is a list of modules; a module is a list of declarations; a declaration gives a name to a
type expression, with parameters if it is generic. References are names as written: whether one
means a parameter, a declaration or a builtin type is settled when the schema is expanded.
-/

namespace SchemaCodec

/-- The body of a declaration, as written. -/
inductive TypeExpr where
  | none
  | boolean
  | integer
  | float
  | string
  | bytes
  | array (element : TypeExpr)
  | record (fields : List (String × TypeExpr))
  | choice (variants : List (String × TypeExpr))
  /-- A name, applied to arguments if there are any. -/
  | ref (target : Key) (args : List TypeExpr)
deriving Inhabited

/-- A named type, generic if it has parameters. -/
structure Decl where
  name : String
  params : List String
  body : TypeExpr

/-- A named list of declarations. -/
structure Module where
  name : String
  decls : List Decl

namespace Decl

def isGeneric (decl : Decl) : Bool := !decl.params.isEmpty

end Decl

namespace Module

/-- The first declaration of a name. -/
def decl? (module : Module) (name : String) : Option Decl :=
  module.decls.find? (·.name = name)

end Module

/-! ## Equality -/

namespace TypeExpr

mutual

/-- Whether two expressions are the same term. -/
def eqb : TypeExpr → TypeExpr → Bool
  | none, none | boolean, boolean | integer, integer => true
  | float, float | string, string | bytes, bytes => true
  | array s, array t => eqb s t
  | record as, record bs => eqbMembers as bs
  | choice as, choice bs => eqbMembers as bs
  | ref k as, ref l bs => k = l && eqbArgs as bs
  | _, _ => false

/-- Whether two member lists agree in names, expressions and order. -/
def eqbMembers : List (String × TypeExpr) → List (String × TypeExpr) → Bool
  | [], [] => true
  | (m, s) :: as, (n, t) :: bs => m = n && eqb s t && eqbMembers as bs
  | _, _ => false

def eqbArgs : List TypeExpr → List TypeExpr → Bool
  | [], [] => true
  | s :: as, t :: bs => eqb s t && eqbArgs as bs
  | _, _ => false

end

mutual

theorem eqb_iff : (a b : TypeExpr) → (eqb a b = true ↔ a = b)
  | none, b | boolean, b | integer, b | float, b | string, b | bytes, b => by
    cases b <;> simp [eqb]
  | array s, b => by cases b <;> simp [eqb, eqb_iff s]
  | record as, b => by cases b <;> simp [eqb, eqbMembers_iff as]
  | choice as, b => by cases b <;> simp [eqb, eqbMembers_iff as]
  | ref k as, b => by cases b <;> simp [eqb, eqbArgs_iff as]

theorem eqbMembers_iff :
    (as bs : List (String × TypeExpr)) → (eqbMembers as bs = true ↔ as = bs)
  | [], bs => by cases bs <;> simp [eqbMembers]
  | (m, s) :: as, bs => by
    cases bs with
    | nil => simp [eqbMembers]
    | cons b bs => simp [eqbMembers, eqb_iff s, eqbMembers_iff as, Prod.ext_iff]

theorem eqbArgs_iff : (as bs : List TypeExpr) → (eqbArgs as bs = true ↔ as = bs)
  | [], bs => by cases bs <;> simp [eqbArgs]
  | s :: as, bs => by
    cases bs with
    | nil => simp [eqbArgs]
    | cons b bs => simp [eqbArgs, eqb_iff s, eqbArgs_iff as]

end

instance : DecidableEq TypeExpr := fun a b ↦ decidable_of_iff (eqb a b = true) (eqb_iff a b)

end TypeExpr

deriving instance DecidableEq for Decl
deriving instance DecidableEq for Module

end SchemaCodec
