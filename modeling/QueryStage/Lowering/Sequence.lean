import QueryStage.Lowering.Operator

/-!
# Sequence methods in stages

What each sequence method emits: by itself, over the elements with a lambda, or with a further
operand. An element lambda becomes a loop over its source.
-/

namespace QueryStage

inductive LoopKind where
  | map
  | filter
deriving DecidableEq, Repr

def LoopKind.emit (kind : LoopKind) (binder : String) (input body : Bson) : Bson :=
  match kind with
  | map =>
    Bson.apply "$map" (.document [("input", input), ("as", .string binder), ("in", body)])
  | filter =>
    Bson.apply "$filter" (.document [("input", input), ("as", .string binder), ("cond", body)])

/-- The forms in which a sequence method can be called. -/
structure SequenceMethod where
  /-- The method of the source alone. -/
  alone : Option (Bson → Bson) := none
  /-- The loop that an element lambda makes, and what is done with its result. -/
  each : Option (LoopKind × (Bson → Bson)) := none
  /-- The method of the source and one operand. -/
  pair : Option (Bson → Bson → Bson) := none

namespace SequenceMethod

def elementAt (source index : Bson) : Bson := Bson.applyAll "$arrayElemAt" [source, index]

def reduce (operator : String) : SequenceMethod where
  alone := some (Bson.apply operator)
  each := some (.map, Bson.apply operator)

def count : SequenceMethod where
  alone := some (Bson.apply "$size")
  each := some (.filter, Bson.apply "$size")

/-- A method that only changes the static type of the source. -/
def keep : SequenceMethod where
  alone := some id

def combine (operator : String) : SequenceMethod where
  pair := some fun source other => Bson.applyAll operator [source, other]

def named : String → SequenceMethod
  | "Select" => { each := some (.map, id) }
  | "Where" => { each := some (.filter, id) }
  | "Any" =>
    { alone := some fun source => Bson.applyAll "$gt" [Bson.apply "$size" source, .int32 0]
      each := some (.map, fun tests => Bson.applyAll "$anyElementTrue" [tests]) }
  | "All" => { each := some (.map, fun tests => Bson.applyAll "$allElementsTrue" [tests]) }
  | "Count" => count
  | "LongCount" => count
  | "Except" => combine "$setDifference"
  | "Intersect" => combine "$setIntersection"
  | "Union" => combine "$setUnion"
  | "Distinct" => { alone := some fun source => Bson.applyAll "$setUnion" [source] }
  | "Contains" => { pair := some fun source item => Bson.applyAll "$in" [item, source] }
  | "First" =>
    { alone := some fun source => elementAt source (.int32 0)
      each := some (.filter, fun matching => elementAt matching (.int32 0)) }
  | "Last" => { alone := some fun source => elementAt source (.int32 (-1)) }
  | "ElementAt" => { pair := some elementAt }
  | "Take" => { pair := some fun source n => Bson.applyAll "$slice" [source, n] }
  | "Sum" => reduce "$sum"
  | "Min" => reduce "$min"
  | "Max" => reduce "$max"
  | "Average" => reduce "$avg"
  | "ToList" => keep
  | "ToArray" => keep
  | "AsEnumerable" => keep
  | _ => {}

end SequenceMethod

/-- What the body of an element lambda selects if it needs no loop: a field of every element, by
the dotted reference that yields it, or the element itself. -/
inductive Selection where
  | field (reference : String)
  | element
deriving DecidableEq, Repr

structure Loop where
  params : List Parameter
  body : Lowered
  selection : Option Selection

namespace Loop

def binder (l : Loop) : Except Fault String :=
  match l.params with
  | [p] => .ok p.name
  | params => .error (.elementParameterCount params.length)

/-- The loop over `source`. A map that only selects needs none. -/
def emit (l : Loop) (kind : LoopKind) (source : Lowered) : Lowered :=
  match kind, l.selection with
  | .map, some (.field reference) => .ok (.string reference)
  | .map, some .element => source
  | kind, _ => do
    let binder ← l.binder
    let body ← l.body
    return kind.emit binder (← source) body

end Loop

namespace SequenceMethod

/-- A call of the method on a source, with the operands after it. A single operand may be an
element lambda, and then there is a loop for it. -/
def emit (m : SequenceMethod) (unsupported : Fault) (source : Lowered) (loop : Option Loop) :
    List Lowered → Lowered
  | [] =>
    match m.alone with
    | some f => do return f (← source)
    | none => .error unsupported
  | [operand] =>
    match loop, m.each with
    | some loop, some (kind, f) => do return f (← loop.emit kind source)
    | _, _ =>
      match m.pair with
      | some f => do
        let source ← source
        return f source (← operand)
      | none => .error unsupported
  | _ => .error unsupported

end SequenceMethod

end QueryStage
