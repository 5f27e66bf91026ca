import QueryStage.Binding.Basic
import QueryStage.Lowering.Basic

/-!
# Stages

A stage is made from a projector, or from a key selector and a group projector. It comes with the
decoder that rebuilds each output document as the constructed type.
-/

namespace QueryStage

inductive StageKind where
  | project
  | group
deriving DecidableEq, Repr

namespace StageKind

def operator : StageKind → String
  | project => "$project"
  | group => "$group"

end StageKind

structure Stage where
  kind : StageKind
  specification : Entries Bson
  decoder : Decoder

namespace Stage

def document (s : Stage) : Bson := Bson.apply s.kind.operator (.document s.specification)

/-- The body of a projector has to construct its result. -/
def requireConstruction (projector : Lambda) : Except Fault Unit :=
  if projector.body.isConstruction then .ok ()
  else .error (.notConstruction projector.body.kind projector.body.ty)

/-- The identifier is left out of the output unless the shape declares it. -/
def projection (shape : Entries Bson) : Entries Bson :=
  if shape.contains "_id" then shape else ("_id", .int32 0) :: shape

/-- The identifier of a group comes first: the declared one, or else the key. -/
def grouping (key : Bson) (shape : Entries Bson) : Entries Bson :=
  ("_id", (shape.get? "_id").getD key) :: shape.erase "_id"

/-- The projection stage of a projector over documents that `source` decodes. -/
def ofProjector (ds : Decoders) (options : Options) (source : Decoder) (projector : Lambda) :
    Except Fault Stage := do
  requireConstruction projector
  let body ← projector.bindProjector ds source
  let decoder ← body.decoder ds
  let shape ← body.lowerShape options.stringUnit
  return { kind := .project, specification := projection shape, decoder }

/-- A computed key is held as a document, so that its members are found in its own decoder. -/
def keyOf (ds : Decoders) (bound : Expr) : Except Fault Expr :=
  match bound with
  | .field path decoder ty => .ok (.field path decoder ty)
  | .document inner path decoder => .ok (.document inner path decoder)
  | computed => do return .document computed none (← computed.decoder ds)

/-- The group stage of a key selector and a projector over the groups. -/
def ofGroup (ds : Decoders) (options : Options) (source : Decoder)
    (keySelector projector : Lambda) : Except Fault Stage := do
  requireConstruction projector
  let key ← keyOf ds (← keySelector.bindProjector ds source)
  let keyValue ← key.lower options.stringUnit id
  let body ← projector.bindGroupProjector ds source key
  let decoder ← body.decoder ds
  let shape ← body.lowerShape options.stringUnit
  return { kind := .group, specification := grouping keyValue shape, decoder }

end Stage

end QueryStage
