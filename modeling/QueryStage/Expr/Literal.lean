import QueryStage.Bson
import QueryStage.Ty

/-!
# Literals and operators

The constants and the operator names that expressions are made of.
-/

namespace QueryStage

inductive StringComparison where
  | currentCulture
  | currentCultureIgnoreCase
  | invariantCulture
  | invariantCultureIgnoreCase
  | ordinal
  | ordinalIgnoreCase
deriving DecidableEq, Repr

def StringComparison.text : StringComparison → String
  | currentCulture => "CurrentCulture"
  | currentCultureIgnoreCase => "CurrentCultureIgnoreCase"
  | invariantCulture => "InvariantCulture"
  | invariantCultureIgnoreCase => "InvariantCultureIgnoreCase"
  | ordinal => "Ordinal"
  | ordinalIgnoreCase => "OrdinalIgnoreCase"

inductive Literal where
  | null
  | boolean (b : Bool)
  | int32 (n : Int32)
  | int64 (n : Int64)
  | double (x : Binary64)
  | decimal128 (d : Decimal128)
  | string (s : String)
  | dateTime (d : DateTime)
  | objectId (o : ObjectId)
  | binary (bytes : List UInt8)
  | comparison (c : StringComparison)
deriving DecidableEq, Repr

namespace Literal

/-- The type of a literal that is given none. -/
def ty : Literal → Ty
  | null => .nullable .document
  | boolean _ => .boolean
  | int32 _ => .int32
  | int64 _ => .int64
  | double _ => .double
  | decimal128 _ => .decimal128
  | string _ => .string
  | dateTime _ => .dateTime
  | objectId _ => .objectId
  | binary _ => .binary
  | comparison _ => .enumeration "StringComparison"

/-- Equality of values, with doubles compared as numbers. -/
def valueEq : Literal → Literal → Bool
  | double x, double y => x.valueEq y
  | a, b => a = b

end Literal

inductive BinaryOp where
  | add
  | subtract
  | multiply
  | divide
  | modulo
  | and
  | or
  | equal
  | notEqual
  | lessThan
  | lessThanOrEqual
  | greaterThan
  | greaterThanOrEqual
  | coalesce
  | arrayIndex
deriving DecidableEq, Repr

def BinaryOp.text : BinaryOp → String
  | add => "Add"
  | subtract => "Subtract"
  | multiply => "Multiply"
  | divide => "Divide"
  | modulo => "Modulo"
  | and => "And"
  | or => "Or"
  | equal => "Equal"
  | notEqual => "NotEqual"
  | lessThan => "LessThan"
  | lessThanOrEqual => "LessThanOrEqual"
  | greaterThan => "GreaterThan"
  | greaterThanOrEqual => "GreaterThanOrEqual"
  | coalesce => "Coalesce"
  | arrayIndex => "ArrayIndex"

inductive UnaryOp where
  | not
  | convert
  | arrayLength
deriving DecidableEq, Repr

def UnaryOp.text : UnaryOp → String
  | not => "Not"
  | convert => "Convert"
  | arrayLength => "ArrayLength"

inductive AccumulatorFn where
  | first
  | last
  | min
  | max
  | avg
  | sum
  | push
  | addToSet
deriving DecidableEq, Repr

inductive NodeKind where
  | literal
  | parameter
  | memberAccess
  | binary (op : BinaryOp)
  | unary (op : UnaryOp)
  | conditional
  | call
  | lambda
  | construction
  | accumulator
  | field
  | document
deriving DecidableEq, Repr

def NodeKind.text : NodeKind → String
  | literal => "Literal"
  | parameter => "Parameter"
  | memberAccess => "MemberAccess"
  | binary op => "Binary(" ++ op.text ++ ")"
  | unary op => "Unary(" ++ op.text ++ ")"
  | conditional => "Conditional"
  | call => "Call"
  | lambda => "Lambda"
  | construction => "New"
  | accumulator => "Accumulator"
  | field => "Field"
  | document => "Document"

end QueryStage
