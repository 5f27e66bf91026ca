import QueryStage.Expr.Basic
import QueryStage.Fault

/-!
# Operators and literals in stages

The aggregation operators that stand for the operators, accumulators and constants of expressions.
-/

namespace QueryStage

abbrev Lowered := Except Fault Bson

namespace BinaryOp

def operator : BinaryOp → String
  | add => "$add"
  | subtract => "$subtract"
  | multiply => "$multiply"
  | divide => "$divide"
  | modulo => "$mod"
  | and => "$and"
  | or => "$or"
  | equal => "$eq"
  | notEqual => "$ne"
  | lessThan => "$lt"
  | lessThanOrEqual => "$lte"
  | greaterThan => "$gt"
  | greaterThanOrEqual => "$gte"
  | coalesce => "$ifNull"
  | arrayIndex => "$arrayElemAt"

/-- The operator for a left operand of this type: strings are added by concatenation. -/
def operatorOn (op : BinaryOp) (left : Ty) : String :=
  if op = add && left.isString then "$concat" else op.operator

/-- Whether a chain that nests to the left is one operator with many operands. -/
def flattens : BinaryOp → Bool
  | add => true
  | multiply => true
  | and => true
  | or => true
  | _ => false

/-- Applies an operator to two operands. A left operand that already applies the same flattening
operator takes the right one at its end. -/
def emit (op : BinaryOp) (leftTy : Ty) (left right : Bson) : Bson :=
  let operator := op.operatorOn leftTy
  match left with
  | .document [(key, .array operands)] =>
    if op.flattens && key = operator then Bson.applyAll operator (operands ++ [right])
    else Bson.applyAll operator [left, right]
  | _ => Bson.applyAll operator [left, right]

end BinaryOp

namespace UnaryOp

/-- A document under `$not` is put into a list. -/
def emit : UnaryOp → Bson → Bson
  | not, .document fields => Bson.applyAll "$not" [.document fields]
  | not, operand => Bson.apply "$not" operand
  | convert, operand => operand
  | arrayLength, operand => Bson.apply "$size" operand

end UnaryOp

namespace AccumulatorFn

def operator : AccumulatorFn → String
  | first => "$first"
  | last => "$last"
  | min => "$min"
  | max => "$max"
  | avg => "$avg"
  | sum => "$sum"
  | push => "$push"
  | addToSet => "$addToSet"

end AccumulatorFn

namespace Literal

def readsAsReference (s : String) : Bool := s.toList.head? = some '$'

/-- A literal as a value in a stage. A text that would be read as a reference is quoted. A string
comparison has no value of its own. -/
def lower (v : Literal) (ty : Ty) : Lowered :=
  match v with
  | null => .ok .null
  | boolean b => .ok (.boolean b)
  | int32 n => .ok (.int32 n)
  | int64 n => .ok (.int64 n)
  | double x => .ok (.double x)
  | decimal128 d => .ok (.decimal128 d)
  | string s =>
    .ok (if readsAsReference s then Bson.apply "$literal" (.string s) else .string s)
  | dateTime d => .ok (.dateTime d)
  | objectId o => .ok (.objectId o)
  | binary bytes => .ok (.binary 0 bytes)
  | comparison _ => .error (.unsupportedNode .literal ty)

end Literal

end QueryStage
