import QueryStage.Decoder.Value
import QueryStage.Path
import QueryStage.Stage

/-!
# Running a projection

What a projection stage made of references, quoted values and nested documents yields for one
document, and what its projector says it should yield: the value that the same members and
constructions give on the decoded document.
-/

namespace QueryStage

namespace Bson

/-- The value below a document, one element after another. -/
def below? : List String → Bson → Option Bson
  | [], b => some b
  | s :: ss, document fields => (Entries.get? s fields).bind (below? ss)
  | _ :: _, _ => none

/-- What a text stands for in a stage over `root`: the whole document, a value below it, or the text
itself. -/
def evaluateText (root : Bson) (s : String) : Option Bson :=
  if s = "$$ROOT" then some root
  else match s.toList with
    | '$' :: path => root.below? (Path.ofText (String.ofList path)).segments
    | _ => some (string s)

def quoted? : List (String × Bson) → Option Bson
  | [(key, b)] => if key = "$literal" then some b else none
  | _ => none

mutual

/-- The value of an expression of a stage over `root`. A document is evaluated field by field unless
it quotes a value. -/
def evaluate (root : Bson) : Bson → Option Bson
  | string s => evaluateText root s
  | document fields =>
    match quoted? fields with
    | some b => some b
    | none => some (document (evaluateFields root fields))
  | b => some b

def evaluateFields (root : Bson) : List (String × Bson) → List (String × Bson)
  | [] => []
  | (key, b) :: fields =>
    match evaluate root b with
    | some v => (key, v) :: evaluateFields root fields
    | none => evaluateFields root fields

end

def suppresses : String × Bson → Bool
  | (key, int32 n) => key = "_id" && n = 0
  | _ => false

end Bson

namespace Stage

def output (s : Stage) (fields : Entries Bson) : Entries Bson :=
  Bson.evaluateFields (.document fields) (s.specification.filter fun e => !Bson.suppresses e)

end Stage

namespace Value

def follow : List String → Value → Option Value
  | [], v => some v
  | m :: ms, v => (v.argument? m).bind (follow ms)

end Value

namespace Expr

mutual

/-- What an expression made of members and constructions is worth where its parameter is `c`. -/
def reading (c : Value) : Expr → Option Value
  | parameter _ => some c
  | member target name _ _ => (target.reading c).bind (Value.argument? name)
  | construct ty parameters args _ =>
    (readings c args).map fun values =>
      .composite (Decoder.constructedName ty) (parameters.zip values)
  | _ => none

def readings (c : Value) : List Expr → Option (List Value)
  | [] => some []
  | e :: es => (e.reading c).bind fun v => (readings c es).map (v :: ·)

end

mutual

/-- The member chains that an expression follows from its parameter. -/
def chains : Expr → List (List String)
  | parameter _ => [[]]
  | member target name _ _ => target.chains.map (· ++ [name])
  | construct _ _ args _ => chainsAll args
  | _ => []

def chainsAll : List Expr → List (List String)
  | [] => []
  | e :: es => e.chains ++ chainsAll es

end

@[simp] theorem chainsAll_eq_flatMap (es : List Expr) : chainsAll es = es.flatMap chains := by
  induction es with
  | nil => rfl
  | cons e es ih => simp [chainsAll, ih]

end Expr

end QueryStage
