import QueryStage.Lowering.Operator
import QueryStage.Options

/-!
# Computed members

The members that binding leaves in place and a stage can still compute: parts of dates, sizes of
collections, lengths of strings and the value of a nullable.
-/

namespace QueryStage

namespace StringUnit

def lengthOperator : StringUnit → String
  | bytes => "$strLenBytes"
  | codePoints => "$strLenCP"

def substringOperator : StringUnit → String
  | bytes => "$substrBytes"
  | codePoints => "$substrCP"

def indexOperator : StringUnit → String
  | bytes => "$indexOfBytes"
  | codePoints => "$indexOfCP"

end StringUnit

namespace Ty

/-- The part of a date that a member reads. Days of the week are numbered from one in a stage and
from zero in the member. -/
def datePart? : String → Option (Bson → Bson)
  | "DayOfWeek" => some fun date =>
    Bson.applyAll "$subtract" [Bson.apply "$dayOfWeek" date, .int32 1]
  | "Day" => some (Bson.apply "$dayOfMonth")
  | "DayOfYear" => some (Bson.apply "$dayOfYear")
  | "Hour" => some (Bson.apply "$hour")
  | "Millisecond" => some (Bson.apply "$millisecond")
  | "Minute" => some (Bson.apply "$minute")
  | "Month" => some (Bson.apply "$month")
  | "Second" => some (Bson.apply "$second")
  | "Year" => some (Bson.apply "$year")
  | _ => none

/-- The member as a function of its target, which has this type. -/
def computed? (unit : StringUnit) (ty : Ty) (name : String) : Option (Bson → Bson) :=
  match (if ty.isDate then datePart? name else none) with
  | some f => some f
  | none =>
    match name with
    | "Count" => if ty.isCollection then some (Bson.apply "$size") else none
    | "Length" =>
      if ty.isCollection then some (Bson.apply "$size")
      else if ty.isString then some (Bson.apply unit.lengthOperator)
      else none
    | "Value" => if ty.isNullable then some id else none
    | _ => none

end Ty

end QueryStage
