/-!
# Static types

The types that expressions carry: scalars, wrappers, collections, groupings, classes and
enumerations, with their text and their order.
-/

namespace QueryStage

/-- The static type of an expression. -/
inductive Ty where
  | boolean
  | int32
  | int64
  | double
  | decimal128
  | string
  | dateTime
  | objectId
  | binary
  | document
  | nullable (inner : Ty)
  | array (item : Ty)
  | set (item : Ty)
  | grouping (key element : Ty)
  | record (name : String)
  | enumeration (name : String)
deriving DecidableEq, Repr, Inhabited

namespace Ty

/-- Wrappers print their argument in angle brackets; classes and enumerations print their name. -/
def text : Ty → String
  | boolean => "Boolean"
  | int32 => "Int32"
  | int64 => "Int64"
  | double => "Double"
  | decimal128 => "Decimal128"
  | string => "String"
  | dateTime => "DateTime"
  | objectId => "ObjectId"
  | binary => "Binary"
  | document => "Document"
  | nullable t => "Nullable<" ++ t.text ++ ">"
  | array t => "Array<" ++ t.text ++ ">"
  | set t => "Set<" ++ t.text ++ ">"
  | grouping k e => "Grouping<" ++ k.text ++ ", " ++ e.text ++ ">"
  | record name => name
  | enumeration name => name

/-- The type under all outer nullable wrappers. -/
def underlying : Ty → Ty
  | nullable t => t.underlying
  | t => t

def isString (t : Ty) : Bool := t.underlying = string

def isDate (t : Ty) : Bool := t.underlying = dateTime

/-- The type of one item of a collection; a grouping holds its elements. -/
def item? (t : Ty) : Option Ty :=
  match t.underlying with
  | array i => some i
  | set i => some i
  | grouping _ e => some e
  | _ => none

def isCollection (t : Ty) : Bool := t.item?.isSome

def isGrouping (t : Ty) : Bool :=
  match t.underlying with
  | grouping _ _ => true
  | _ => false

def isNullable : Ty → Bool
  | nullable _ => true
  | _ => false

def enumerable : Ty := record "Enumerable"

def math : Ty := record "Math"

@[simp] theorem underlying_nullable (t : Ty) : (nullable t).underlying = t.underlying := rfl

theorem underlying_ne_nullable (t u : Ty) : t.underlying ≠ nullable u := by
  induction t with
  | nullable t ih => exact ih
  | _ => intro h; cases h

@[simp] theorem underlying_underlying (t : Ty) : t.underlying.underlying = t.underlying := by
  induction t with
  | nullable t ih => exact ih
  | _ => rfl

/-- The place of a type's outermost form in the order of forms. -/
def rank : Ty → Nat
  | boolean => 0
  | int32 => 1
  | int64 => 2
  | double => 3
  | decimal128 => 4
  | string => 5
  | dateTime => 6
  | objectId => 7
  | binary => 8
  | document => 9
  | nullable _ => 10
  | array _ => 11
  | set _ => 12
  | grouping _ _ => 13
  | record _ => 14
  | enumeration _ => 15

/-- Types of one form compare by their contents from left to right, others by their form. -/
def order : Ty → Ty → Ordering
  | nullable a, nullable b => a.order b
  | array a, array b => a.order b
  | set a, set b => a.order b
  | grouping k a, grouping l b => (k.order l).then (a.order b)
  | record a, record b => compare a b
  | enumeration a, enumeration b => compare a b
  | a, b => compare a.rank b.rank

instance : Ord Ty := ⟨order⟩

def sorted (ts : List Ty) : List Ty := ts.mergeSort (fun a b => (a.order b).isLE)

end Ty

end QueryStage
