import NwScript.Ty

/-!
# Engine actions

Engine functions are called by number.  A catalog gives the signature of each known number; it
tells how many slots a call pops and pushes and which arguments a script author would leave out.
-/

namespace NwScript

/-- The signature of one engine action. -/
structure ActionSignature where
  /-- Name of the function. -/
  name : String
  /-- Type of the result. -/
  returnType : Ty
  /-- Types of the parameters in declaration order. -/
  params : List Ty
  /-- Source text of each parameter's default value. -/
  defaults : List (Option String)
  deriving DecidableEq, Repr, Inhabited

namespace ActionSignature

/-- A signature without default values. -/
def plain (name : String) (returnType : Ty) (params : List Ty) : ActionSignature :=
  ⟨name, returnType, params, params.map fun _ => none⟩

/-- Overwrite leading entries by given values, as far as both go. -/
def overwrite : List (Option String) → List String → List (Option String)
  | _ :: entries, value :: values => some value :: overwrite entries values
  | entries, _ => entries

/-- Give defaults to the last parameters. -/
def withDefaults (signature : ActionSignature) (values : List String) : ActionSignature :=
  let start := signature.params.length - values.length
  { signature with
    defaults := signature.defaults.take start ++ overwrite (signature.defaults.drop start) values }

end ActionSignature

/-- Signatures by action number. -/
structure ActionCatalog where
  /-- Known actions; no number occurs twice. -/
  entries : List (Nat × ActionSignature)
  deriving Repr, Inhabited

namespace ActionCatalog

/-- The catalog without actions. -/
def empty : ActionCatalog := ⟨[]⟩

/-- Add an action, replacing an earlier one of the same number. -/
def insert (catalog : ActionCatalog) (id : Nat) (signature : ActionSignature) : ActionCatalog :=
  ⟨catalog.entries.filter (·.1 ≠ id) ++ [(id, signature)]⟩

/-- The signature of an action. -/
def find? (catalog : ActionCatalog) (id : Nat) : Option ActionSignature :=
  catalog.entries.lookup id

/-- Number of known actions. -/
def size (catalog : ActionCatalog) : Nat :=
  catalog.entries.length

/-- The type of an action's result, where the action is known. -/
def returnType? (catalog : ActionCatalog) (id : Nat) : Option Ty :=
  (catalog.find? id).map (·.returnType)

/-- Types of the arguments that a call with `argumentCount` arguments passes. -/
def argumentTypes? (catalog : ActionCatalog) (id argumentCount : Nat) : Option (List Ty) :=
  (catalog.find? id).map fun signature => signature.params.take argumentCount

end ActionCatalog
end NwScript
