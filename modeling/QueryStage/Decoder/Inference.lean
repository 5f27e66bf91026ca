import QueryStage.Decoder.Builder
import QueryStage.Decoder.Registry
import QueryStage.Expr.Basic
import QueryStage.Fault

/-!
# Decoders of expressions

The decoder for the values that a bound expression yields. Bound nodes carry theirs, constructions
and accumulators build one from their parts, and all else is decoded by its static type.
-/

namespace QueryStage

namespace Decoders

def decoderFor (ds : Decoders) (ty : Ty) : Except Fault Decoder :=
  match ds.lookup ty with
  | some d => .ok d
  | none => .error (.noDecoder ty)

end Decoders

namespace Decoder

def constructedName : Ty → String
  | .record name => name
  | ty => ty.text

/-- The decoder of a construction, from the decoders of its arguments. Each parameter is a member,
read from the element of the same name. -/
def ofConstruction (ty : Ty) (parameters : List String) (members : Option (List String))
    (args : List (Except Fault Decoder)) : Except Fault Decoder :=
  match members with
  | none => .error (.constructionWithoutMembers ty)
  | some members =>
    if parameters.length ≠ args.length then
      .error (.argumentCount ty parameters.length args.length)
    else do
      let declared ← (parameters.zip args).mapM fun (parameter, decoder) =>
        if members.contains parameter then return (parameter, ← decoder)
        else .error (.unmatchedParameter parameter ty)
      return .document (declared.foldl declare (DecoderBuilder.new (constructedName ty))).build
where
  /-- Declares a parameter as a member and as the next argument of the constructor. -/
  declare (b : DecoderBuilder) (entry : String × Decoder) : DecoderBuilder :=
    (b.member entry.1 entry.1 entry.2).creatorParameter entry.1

def ofAccumulator (ds : Decoders) (fn : AccumulatorFn) (element : Decoder) : Except Fault Decoder :=
  match fn with
  | .push | .addToSet => .ok (array element)
  | .avg => ds.decoderFor .double
  | .first | .last | .min | .max | .sum => .ok element

def itemOf (ty : Ty) (decoder : Decoder) : Except Fault Decoder :=
  match decoder.item? with
  | some d => .ok d
  | none => .error (.noDecoder ty)

end Decoder

namespace Expr

mutual

def decoder (ds : Decoders) : Expr → Except Fault Decoder
  | field _ d _ => .ok d
  | document _ _ d => .ok d
  | construct ty parameters args members =>
    Decoder.ofConstruction ty parameters members (decoders ds args)
  | accumulate fn source none _ => do
    let element ← Decoder.itemOf source.ty (← source.decoder ds)
    Decoder.ofAccumulator ds fn element
  | accumulate fn _ (some ⟨_, body⟩) _ => do
    let element ← body.decoder ds
    Decoder.ofAccumulator ds fn element
  | call _ method declaring args ty =>
    if method = "Select" && declaring = .enumerable then
      match selectedDecoder ds args with
      | some item => do return .array (← item)
      | none => ds.decoderFor ty
    else ds.decoderFor ty
  | conditional _ ifTrue _ ty =>
    if ifTrue.isConstruction then ifTrue.decoder ds else ds.decoderFor ty
  | binary op left _ ty =>
    if op = .coalesce && left.isConstruction then left.decoder ds else ds.decoderFor ty
  | literal _ ty => ds.decoderFor ty
  | parameter p => ds.decoderFor p.ty
  | member _ _ _ ty => ds.decoderFor ty
  | unary _ _ ty => ds.decoderFor ty
  | lambda ⟨_, body⟩ => ds.decoderFor body.ty

def decoders (ds : Decoders) : List Expr → List (Except Fault Decoder)
  | [] => []
  | e :: es => e.decoder ds :: decoders ds es

/-- The decoder of the items that a selector constructs. -/
def selectedDecoder (ds : Decoders) : List Expr → Option (Except Fault Decoder)
  | _ :: lambda ⟨_, body⟩ :: _ => if body.isConstruction then some (body.decoder ds) else none
  | _ => none

end

def itemDecoder (ds : Decoders) (e : Expr) : Except Fault Decoder := do
  Decoder.itemOf e.ty (← e.decoder ds)

@[simp] theorem decoders_eq_map (ds : Decoders) (es : List Expr) :
    decoders ds es = es.map (decoder ds) := by
  induction es with
  | nil => rfl
  | cons e es ih => simp [decoders, ih]

end Expr

end QueryStage
