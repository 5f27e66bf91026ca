import QueryStage.Lowering.Method

/-!
# Lowering

Turns bound expressions into aggregation expressions. Inside a loop over a bound array, the paths
under the array are moved to the loop variable: lowering carries the map that does so, and applies
it wherever it meets a path.
-/

namespace QueryStage

/-- A document keyed by the parameters of a construction. -/
def shapeOf (ty : Ty) (parameters : List String) (args : List Lowered) :
    Except Fault (Entries Bson) :=
  if parameters.length ≠ args.length then
    .error (.argumentCount ty parameters.length args.length)
  else do
    let fields ← (parameters.zip args).mapM fun (name, arg) => do return (name, ← arg)
    return Entries.collect fields

/-- A construction without fields is quoted, since an empty document is no expression. -/
def emitShape (shape : Entries Bson) : Bson :=
  if shape.isEmpty then Bson.apply "$literal" (.document []) else .document shape

namespace Expr

def comparison? : Expr → Option StringComparison
  | literal (.comparison c) _ => some c
  | _ => none

/-- Whether an expression stands for the elements of a group, and so is no sequence of its own. -/
def overGroup (e : Expr) : Bool := e.isAccumulator || e.ty.isGrouping

/-- The map of paths inside a loop over a source that the outer map leaves at `source?`. -/
def loopPaths (paths : Path → Path) (source? : Option Path) (params : List Parameter) :
    Path → Path :=
  match source?, params with
  | some source, [p] => fun q => Path.reroot source (Path.loopVariable p.name) (paths q)
  | _, _ => paths

/-- What a body selects that is a field below the source or the element itself. -/
def selection? (paths : Path → Path) (source? : Option Path) (body : Expr) : Option Selection :=
  match source?, body with
  | some source, field path _ _ =>
    if (paths path).startsWith source then some (.field (paths path).reference) else none
  | some source, document _ (some path) _ => if paths path = source then some .element else none
  | _, _ => none

mutual

/-- The aggregation expression for a bound expression, with its paths moved by `paths`. -/
def lower (unit : StringUnit) (paths : Path → Path) : Expr → Lowered
  | literal value ty => value.lower ty
  | parameter p => .error (.unsupportedNode .parameter p.ty)
  | member target name declaring _ =>
    match target.ty.computed? unit name with
    | some f => do return f (← target.lower unit paths)
    | none => .error (.unsupportedMember name declaring)
  | binary op left right _ => do
    let l ← left.lower unit paths
    return op.emit left.ty l (← right.lower unit paths)
  | unary op operand _ => do return op.emit (← operand.lower unit paths)
  | conditional test ifTrue ifFalse _ => do
    let test ← test.lower unit paths
    let ifTrue ← ifTrue.lower unit paths
    return Bson.applyAll "$cond" [test, ifTrue, ← ifFalse.lower unit paths]
  | call receiver method declaring args _ =>
    MethodCall.lower unit
      { method, declaring
        receiver := lowerReceiver unit paths receiver
        args := lowerEach unit paths args
        comparison := args.getLast?.bind comparison?
        overGroup := args.head?.any overGroup
        loop := lowerLoop unit paths args }
  | lambda ⟨_, body⟩ => .error (.unsupportedNode .lambda body.ty)
  | construct ty parameters args _ => do
    return emitShape (← shapeOf ty parameters (lowerEach unit paths args))
  | accumulate fn source none _ => do return Bson.apply fn.operator (← source.lower unit paths)
  | accumulate fn _ (some ⟨_, body⟩) _ => do
    return Bson.apply fn.operator (← body.lower unit paths)
  | field path _ _ => .ok (.string (paths path).reference)
  | document _ (some path) _ => .ok (.string (paths path).reference)
  | document inner none _ =>
    if inner.isParameter then .ok (.string "$$ROOT") else inner.lower unit paths

def lowerReceiver (unit : StringUnit) (paths : Path → Path) : Option Expr → Option Lowered
  | none => none
  | some e => some (e.lower unit paths)

def lowerEach (unit : StringUnit) (paths : Path → Path) : List Expr → List Lowered
  | [] => []
  | e :: es => e.lower unit paths :: lowerEach unit paths es

def lowerLoop (unit : StringUnit) (paths : Path → Path) : List Expr → Option Loop
  | [source, lambda ⟨params, body⟩] =>
    let source? := source.boundPath?.map paths
    some
      { params
        body := body.lower unit (loopPaths paths source? params)
        selection := selection? paths source? body }
  | _ => none

end

@[simp] theorem lowerReceiver_eq_map (unit : StringUnit) (paths : Path → Path) (e : Option Expr) :
    lowerReceiver unit paths e = e.map (lower unit paths) := by
  cases e <;> rfl

@[simp] theorem lowerEach_eq_map (unit : StringUnit) (paths : Path → Path) (es : List Expr) :
    lowerEach unit paths es = es.map (lower unit paths) := by
  induction es with
  | nil => rfl
  | cons e es ih => simp [lowerEach, ih]

def lowerShape (unit : StringUnit) : Expr → Except Fault (Entries Bson)
  | construct ty parameters args _ => shapeOf ty parameters (args.map (lower unit id))
  | e => .error (.unsupportedNode e.kind e.ty)

end Expr

end QueryStage
