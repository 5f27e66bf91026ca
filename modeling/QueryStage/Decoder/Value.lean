import QueryStage.Bson
import QueryStage.Ty
import QueryStage.Number.Shortest

/-!
# Decoded values

What decoding yields: scalars, opaque documents, arrays, and composites that hold the arguments of
a constructor by name, or the reason why there is no value.
-/

namespace QueryStage

inductive Value where
  | null
  | boolean (b : Bool)
  | int32 (n : Int32)
  | int64 (n : Int64)
  | double (x : Binary64)
  | decimal128 (d : Decimal128)
  | string (s : String)
  | dateTime (d : DateTime)
  | objectId (o : ObjectId)
  | binary (bytes : List UInt8)
  | document (fields : Entries Bson)
  | array (items : List Value)
  | composite (typeName : String) (arguments : List (String × Value))
deriving Inhabited

namespace Value

def argument? (name : String) : Value → Option Value
  | composite _ arguments => Entries.get? name arguments
  | _ => none

mutual

/-- Equality of values, with doubles compared as numbers. -/
def valueEq : Value → Value → Bool
  | null, null => true
  | boolean a, boolean b => a = b
  | int32 a, int32 b => a = b
  | int64 a, int64 b => a = b
  | double a, double b => a.valueEq b
  | decimal128 a, decimal128 b => a = b
  | string a, string b => a = b
  | dateTime a, dateTime b => a = b
  | objectId a, objectId b => a = b
  | binary a, binary b => a = b
  | document a, document b => (Bson.document a).valueEq (Bson.document b)
  | array as, array bs => itemsEq as bs
  | composite n as, composite m bs => n = m && argumentsEq as bs
  | _, _ => false

def itemsEq : List Value → List Value → Bool
  | [], [] => true
  | a :: as, b :: bs => valueEq a b && itemsEq as bs
  | _, _ => false

def argumentsEq : List (String × Value) → List (String × Value) → Bool
  | [], [] => true
  | (k, a) :: as, (l, b) :: bs => k = l && valueEq a b && argumentsEq as bs
  | _, _ => false

end

end Value

inductive DecodeFault where
  | typeMismatch (expected : Ty) (found : String)
  | missingElement (typeName element : String)
  | unknownCreatorParameter (typeName parameter : String)
  | outOfRange (written : String) (ty : Ty)
deriving DecidableEq, Repr

namespace DecodeFault

def message : DecodeFault → String
  | typeMismatch expected found =>
    "expected a value of type " ++ expected.text ++ ", found " ++ found
  | missingElement typeName element =>
    "missing element '" ++ element ++ "' while decoding " ++ typeName
  | unknownCreatorParameter typeName parameter =>
    "constructor parameter '" ++ parameter ++ "' of " ++ typeName ++ " is not a declared member"
  | outOfRange written ty => written ++ " is out of range for " ++ ty.text

end DecodeFault

/-- Two decoding results are equal if they are equal values or the same fault. -/
def decodedEq : Except DecodeFault Value → Except DecodeFault Value → Bool
  | .ok a, .ok b => a.valueEq b
  | .error a, .error b => a = b
  | _, _ => false

end QueryStage
