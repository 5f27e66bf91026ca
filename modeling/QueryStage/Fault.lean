import QueryStage.Expr.Literal

/-!
# Faults

Why a lambda has no stage. Every fault has a number and a technical message; some also have advice
for the user, and then the full message gives the technical one as its cause.
-/

namespace QueryStage

inductive Fault where
  | unsupportedNode (kind : NodeKind) (ty : Ty)
  | unsupportedMember (member : String) (declaring : Ty)
  | unsupportedMethod (method : String) (declaring : Ty)
  | unsupportedComparison (comparison : StringComparison)
  | noDecoder (ty : Ty)
  | constructionWithoutMembers (ty : Ty)
  | unsupported (reason : String)
deriving DecidableEq, Repr

namespace Fault

def code : Fault → Nat
  | unsupportedNode _ _ => 5001
  | unsupportedMember _ _ => 5002
  | unsupportedMethod _ _ => 5003
  | unsupportedComparison _ => 5004
  | noDecoder _ => 5005
  | constructionWithoutMembers _ => 5006
  | unsupported _ => 5007

def advice? : Fault → Option String
  | unsupportedComparison _ =>
    some "Only StringComparison.Ordinal and StringComparison.OrdinalIgnoreCase are supported."
  | constructionWithoutMembers _ =>
    some "Result shapes must be built with named fields, e.g. an anonymous type or record."
  | _ => none

def technical : Fault → String
  | unsupportedNode kind ty => "unsupported expression node " ++ kind.text ++ " of type " ++ ty.text
  | unsupportedMember member declaring =>
    "unsupported member access " ++ declaring.text ++ "." ++ member
  | unsupportedMethod method declaring =>
    "unsupported method call " ++ declaring.text ++ "." ++ method
  | unsupportedComparison comparison => "unsupported string comparison " ++ comparison.text
  | noDecoder ty => "no decoder registered for type " ++ ty.text
  | constructionWithoutMembers ty =>
    "construction of " ++ ty.text ++ " does not declare its member names"
  | unsupported reason => reason

def message (f : Fault) : String :=
  let head := "Error " ++ toString f.code ++ ": "
  match f.advice? with
  | some advice => head ++ advice ++ "\n\tCaused by:\n\t" ++ f.technical
  | none => head ++ f.technical

/-- A projector or key selector has to have one parameter. -/
def parameterCount (found : Nat) : Fault :=
  unsupported ("expected a lambda with exactly one parameter, found " ++ toString found)

/-- A lambda over the elements of a sequence has to have one parameter. -/
def elementParameterCount (found : Nat) : Fault :=
  unsupported ("expected an element lambda with one parameter, found " ++ toString found)

def argumentCount (ty : Ty) (parameters arguments : Nat) : Fault :=
  unsupported ("construction of " ++ ty.text ++ " has " ++ toString parameters ++
    " parameters but " ++ toString arguments ++ " arguments")

/-- Every constructor parameter has to be a declared member. -/
def unmatchedParameter (parameter : String) (ty : Ty) : Fault :=
  unsupported ("constructor parameter '" ++ parameter ++ "' of " ++ ty.text ++
    " has no matching member")

def notConstruction (kind : NodeKind) (ty : Ty) : Fault :=
  unsupported ("projector must construct a named shape, found " ++ kind.text ++ " of type " ++
    ty.text)

end Fault

end QueryStage
