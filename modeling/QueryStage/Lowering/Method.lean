import QueryStage.Lowering.Member
import QueryStage.Lowering.Sequence

/-!
# Methods in stages

Calls by the type that declares the method: sequence methods, numeric functions, string methods,
methods of collections, and the comparisons that every type has. A rule sees a call through its
lowered operands.
-/

namespace QueryStage

/-- The rules that apply to a call. -/
inductive MethodFamily where
  | sequence
  | math
  | string
  | collection
  | general
deriving DecidableEq, Repr

def MethodFamily.of (declaring : Ty) : MethodFamily :=
  if declaring = .enumerable then sequence
  else if declaring = .math then math
  else match declaring.underlying with
    | .string => string
    | .array _ => collection
    | .set _ => collection
    | _ => general

/-- A call as its method sees it. -/
structure MethodCall where
  method : String
  declaring : Ty
  receiver : Option Lowered
  args : List Lowered
  /-- The string comparison that the last argument names. -/
  comparison : Option StringComparison
  /-- Whether the first argument stands for the elements of a group. -/
  overGroup : Bool
  /-- The loop of the second and last argument over the first. -/
  loop : Option Loop

namespace MethodCall

def unsupported (c : MethodCall) : Fault := .unsupportedMethod c.method c.declaring

def operands (c : MethodCall) : List Lowered := c.receiver.toList ++ c.args

def lowered (c : MethodCall) : Except Fault (List Bson) := c.operands.mapM id

/-- A single operand stands by itself, several in a list. -/
def spread (operator : String) : List Bson → Bson
  | [operand] => Bson.apply operator operand
  | operands => Bson.applyAll operator operands

def mathOperator? : String → Nat → Option String
  | "Abs", 1 => some "$abs"
  | "Ceiling", 1 => some "$ceil"
  | "Floor", 1 => some "$floor"
  | "Sqrt", 1 => some "$sqrt"
  | "Exp", 1 => some "$exp"
  | "Log", 1 => some "$ln"
  | "Log", 2 => some "$log"
  | "Log10", 1 => some "$log10"
  | "Pow", 2 => some "$pow"
  | "Truncate", 1 => some "$trunc"
  | _, _ => none

def lowerMath (c : MethodCall) : Lowered :=
  match mathOperator? c.method c.args.length with
  | some operator => do return spread operator (← c.lowered)
  | none => .error c.unsupported

def lowerGeneral (c : MethodCall) : Lowered :=
  match c.method, c.receiver.isSome, c.args.length with
  | "CompareTo", true, 1 => do return Bson.applyAll "$cmp" (← c.lowered)
  | "Equals", true, 1 => do return Bson.applyAll "$eq" (← c.lowered)
  | _, _, _ => .error c.unsupported

/-- Membership takes the item before the collection. -/
def lowerCollection (c : MethodCall) : Lowered :=
  match c.method, c.args.length with
  | "IsSubsetOf", 1 => do return Bson.applyAll "$setIsSubset" (← c.lowered)
  | "SetEquals", 1 => do return Bson.applyAll "$setEquals" (← c.lowered)
  | "Contains", 1 => do return Bson.applyAll "$in" (← c.lowered).reverse
  | _, _ => c.lowerGeneral

def lowerFunction (c : MethodCall) (operator : String) (arity : Nat) : Lowered := do
  let operands ← c.lowered
  if operands.length = arity then return spread operator operands else .error c.unsupported

/-- Without a length, a substring goes to the end. -/
def lowerSubstring (c : MethodCall) (unit : StringUnit) : Lowered := do
  match ← c.lowered with
  | [s, start] => return Bson.applyAll unit.substringOperator [s, start, .int32 (-1)]
  | [s, start, length] => return Bson.applyAll unit.substringOperator [s, start, length]
  | _ => .error c.unsupported

/-- Strings compare by code unit unless the last of three operands names another way; only the
comparison that ignores case is known beside it. -/
def lowerStringEquals (c : MethodCall) : Lowered :=
  match c.operands.length, c.comparison with
  | 2, _ => compareAs .ordinal
  | 3, some comparison => compareAs comparison
  | _, _ => .error c.unsupported
where
  compareAs (comparison : StringComparison) : Lowered :=
    match comparison with
    | .ordinal => do return Bson.applyAll "$eq" (← (c.operands.take 2).mapM id)
    | .ordinalIgnoreCase => do
      let operands ← (c.operands.take 2).mapM id
      return Bson.applyAll "$eq" [Bson.applyAll "$strcasecmp" operands, .int32 0]
    | comparison => .error (.unsupportedComparison comparison)

def lowerTrim (c : MethodCall) (operator : String) : Lowered := do
  match ← c.lowered with
  | [input] => return Bson.apply operator (.document [("input", input)])
  | [input, chars] =>
    return Bson.apply operator (.document [("input", input), ("chars", chars)])
  | _ => .error c.unsupported

def lowerString (c : MethodCall) (unit : StringUnit) : Lowered :=
  match c.method with
  | "Substring" => c.lowerSubstring unit
  | "ToLower" => c.lowerFunction "$toLower" 1
  | "ToLowerInvariant" => c.lowerFunction "$toLower" 1
  | "ToUpper" => c.lowerFunction "$toUpper" 1
  | "ToUpperInvariant" => c.lowerFunction "$toUpper" 1
  | "Equals" => c.lowerStringEquals
  | "IndexOf" =>
    if c.args.length = 1 || c.args.length = 2 then
      c.lowerFunction unit.indexOperator (c.args.length + 1)
    else c.lowerGeneral
  | "Split" => c.lowerFunction "$split" 2
  | "Trim" => c.lowerTrim "$trim"
  | "TrimStart" => c.lowerTrim "$ltrim"
  | "TrimEnd" => c.lowerTrim "$rtrim"
  | _ => c.lowerGeneral

/-- A sequence method needs a source, and what is left of a group is none. -/
def lowerSequence (c : MethodCall) : Lowered :=
  match c.args with
  | [] => .error c.unsupported
  | source :: operands =>
    if c.overGroup then .error c.unsupported
    else (SequenceMethod.named c.method).emit c.unsupported source c.loop operands

def lower (unit : StringUnit) (c : MethodCall) : Lowered :=
  match MethodFamily.of c.declaring with
  | .sequence => c.lowerSequence
  | .math => c.lowerMath
  | .string => c.lowerString unit
  | .collection => c.lowerCollection
  | .general => c.lowerGeneral

end MethodCall

end QueryStage
