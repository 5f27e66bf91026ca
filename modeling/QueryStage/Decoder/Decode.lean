import QueryStage.Decoder.Basic
import QueryStage.Decoder.Value

/-!
# Decoding

Rebuilds typed values from pipeline outputs. Integers are read from wider integers and from doubles
when they fit; a document is read through the constructor parameters of its decoder, in order, and
elements that no parameter names are ignored.
-/

namespace QueryStage

namespace Binary64

/-- The value as a 64-bit integer if it is whole and between `-2 ^ 63` and `2 ^ 63`; the upper end
becomes the largest integer. -/
def toInt64? (x : Binary64) : Option Int64 :=
  match x.toInt? with
  | some n =>
    if n < -Int.pow 2 63 || Int.pow 2 63 < n then none
    else if n = Int.pow 2 63 then some Int64.maxValue
    else some (Int64.ofInt n)
  | none => none

end Binary64

def narrow? (n : Int64) : Option Int32 :=
  if -Int.pow 2 31 ≤ n.toInt && n.toInt < Int.pow 2 31 then some (Int32.ofInt n.toInt) else none

namespace Ty

private def narrowed (ty : Ty) (n : Int64) : Except DecodeFault Value :=
  match narrow? n with
  | some i => .ok (.int32 i)
  | none => .error (.outOfRange (toString n.toInt) ty)

theorem narrowed_cases {motive : Except DecodeFault Value → Prop} (ty : Ty) (n : Int64)
    (ok : ∀ i, motive (.ok (.int32 i)))
    (error : motive (.error (.outOfRange (toString n.toInt) ty))) : motive (ty.narrowed n) := by
  unfold narrowed
  split
  · exact ok _
  · exact error

theorem fault_of_narrowed {ty : Ty} {n : Int64} {fault : DecodeFault}
    (h : ty.narrowed n = .error fault) : fault = .outOfRange (toString n.toInt) ty := by
  unfold narrowed at h
  split at h
  · cases h
  · exact (Except.error.inj h).symm

def decode (ty : Ty) (b : Bson) : Except DecodeFault Value :=
  match ty, b with
  | boolean, .boolean b => .ok (.boolean b)
  | int32, .int32 n => .ok (.int32 n)
  | enumeration _, .int32 n => .ok (.int32 n)
  | int32, .int64 n => ty.narrowed n
  | enumeration _, .int64 n => ty.narrowed n
  | int32, .double x =>
    match x.toInt64?.bind narrow? with
    | some i => .ok (.int32 i)
    | none => .error (.outOfRange x.text ty)
  | int64, .int32 n => .ok (.int64 n.toInt64)
  | int64, .int64 n => .ok (.int64 n)
  | int64, .double x =>
    match x.toInt64? with
    | some n => .ok (.int64 n)
    | none => .error (.outOfRange x.text ty)
  | double, .double x => .ok (.double x)
  | double, .int32 n => .ok (.double (.ofInt n.toInt))
  | double, .int64 n => .ok (.double (.ofInt n.toInt))
  | decimal128, .decimal128 d => .ok (.decimal128 d)
  | string, .string s => .ok (.string s)
  | dateTime, .dateTime d => .ok (.dateTime d)
  | objectId, .objectId o => .ok (.objectId o)
  | binary, .binary _ bytes => .ok (.binary bytes)
  | document, .document fields => .ok (.document fields)
  | ty, b => .error (.typeMismatch ty b.elementType)

end Ty

namespace Decoder

mutual

def decode : Decoder → Bson → Except DecodeFault Value
  | value ty, b => ty.decode b
  | nullable _, .null => .ok .null
  | nullable _, .undefined => .ok .null
  | nullable d, b => d.decode b
  | array d, .array items => do return .array (← items.mapM d.decode)
  | array _, b => .error (.typeMismatch (.array .document) b.elementType)
  | document ⟨typeName, members, creator⟩, .document fields => do
    let arguments ← creator.mapM fun parameter => do
      return (parameter, ← decodeMember typeName fields parameter members)
    return .composite typeName arguments
  | document _, .null => .ok .null
  | document d, b => .error (.typeMismatch (.record d.typeName) b.elementType)

/-- Decodes the element of a constructor parameter, which has to be one of the declared members. -/
def decodeMember (typeName : String) (fields : Entries Bson) (parameter : String) :
    List (String × MemberDecoder) → Except DecodeFault Value
  | [] => .error (.unknownCreatorParameter typeName parameter)
  | (name, ⟨element, d⟩) :: members =>
    if name = parameter then
      match fields.get? element with
      | some b => d.decode b
      | none => .error (.missingElement typeName element)
    else decodeMember typeName fields parameter members

end

theorem decodeMember_eq (typeName : String) (fields : Entries Bson) (parameter : String)
    (members : Entries MemberDecoder) :
    decodeMember typeName fields parameter members =
      match members.get? parameter with
      | none => .error (.unknownCreatorParameter typeName parameter)
      | some m =>
        match fields.get? m.element with
        | some b => m.decoder.decode b
        | none => .error (.missingElement typeName m.element) := by
  induction members with
  | nil => rfl
  | cons e members ih =>
    obtain ⟨name, element, d⟩ := e
    by_cases h : name = parameter
    · subst h
      simp [decodeMember, Entries.get?]
    · simp [decodeMember, Entries.get?, h, ih]

end Decoder

end QueryStage
