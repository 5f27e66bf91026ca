import QueryStage.Entries
import QueryStage.Number.Binary64

/-!
# BSON values

The values that stages are made of and that pipeline outputs hold, with the names of their element
types and their equality.
-/

namespace QueryStage

/-- Twelve bytes that identify a document. -/
structure ObjectId where
  bytes : Vector UInt8 12
deriving DecidableEq, Repr

/-- Sixteen bytes of a decimal number, never interpreted. -/
structure Decimal128 where
  bytes : Vector UInt8 16
deriving DecidableEq, Repr

/-- Milliseconds from the epoch. -/
structure DateTime where
  milliseconds : Int64
deriving DecidableEq, Repr

inductive Bson where
  | null
  | boolean (b : Bool)
  | int32 (n : Int32)
  | int64 (n : Int64)
  | double (x : Binary64)
  | decimal128 (d : Decimal128)
  | string (s : String)
  | dateTime (d : DateTime)
  | objectId (o : ObjectId)
  | binary (subtype : UInt8) (bytes : List UInt8)
  | array (items : List Bson)
  | document (fields : List (String × Bson))
  | undefined
  | minKey
  | maxKey
  | symbol (name : String)
  | code (text : String)
  | scopedCode (text : String) (scope : List (String × Bson))
  | regularExpression (pattern options : String)
  | timestamp (time increment : UInt32)
  | dbPointer (collection : String) (target : ObjectId)
deriving Inhabited

namespace Bson

def elementType : Bson → String
  | null => "Null"
  | boolean _ => "Boolean"
  | int32 _ => "Int32"
  | int64 _ => "Int64"
  | double _ => "Double"
  | decimal128 _ => "Decimal128"
  | string _ => "String"
  | dateTime _ => "DateTime"
  | objectId _ => "ObjectId"
  | binary _ _ => "Binary"
  | array _ => "Array"
  | document _ => "EmbeddedDocument"
  | undefined => "Undefined"
  | minKey => "MinKey"
  | maxKey => "MaxKey"
  | symbol _ => "Symbol"
  | code _ => "JavaScriptCode"
  | scopedCode _ _ => "JavaScriptCodeWithScope"
  | regularExpression _ _ => "RegularExpression"
  | timestamp _ _ => "Timestamp"
  | dbPointer _ _ => "DbPointer"

def apply (operator : String) (argument : Bson) : Bson := document [(operator, argument)]

def applyAll (operator : String) (operands : List Bson) : Bson := apply operator (array operands)

mutual

/-- Equality of values. Doubles compare as numbers, and the order of a document's fields does not
matter. -/
def valueEq : Bson → Bson → Bool
  | null, null => true
  | boolean a, boolean b => a = b
  | int32 a, int32 b => a = b
  | int64 a, int64 b => a = b
  | double a, double b => a.valueEq b
  | decimal128 a, decimal128 b => a = b
  | string a, string b => a = b
  | dateTime a, dateTime b => a = b
  | objectId a, objectId b => a = b
  | binary s a, binary t b => s = t && a = b
  | array as, array bs => itemsEq as bs
  | document as, document bs => as.length = bs.length && fieldsIn as bs
  | undefined, undefined => true
  | minKey, minKey => true
  | maxKey, maxKey => true
  | symbol a, symbol b => a = b
  | code a, code b => a = b
  | scopedCode a as, scopedCode b bs => a = b && as.length = bs.length && fieldsIn as bs
  | regularExpression p o, regularExpression q r => p = q && o = r
  | timestamp t i, timestamp u j => t = u && i = j
  | dbPointer c o, dbPointer d p => c = d && o = p
  | _, _ => false

def itemsEq : List Bson → List Bson → Bool
  | [], [] => true
  | a :: as, b :: bs => valueEq a b && itemsEq as bs
  | _, _ => false

def fieldsIn : List (String × Bson) → Entries Bson → Bool
  | [], _ => true
  | (k, a) :: as, bs =>
    (match Entries.get? k bs with
      | some b => valueEq a b
      | none => false) && fieldsIn as bs

end

end Bson

end QueryStage
