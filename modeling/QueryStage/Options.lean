import QueryStage.Bson

/-!
# Options

The one option is the unit in which strings are counted and cut.
-/

namespace QueryStage

/-- What a position in a string counts. -/
inductive StringUnit where
  | bytes
  | codePoints
deriving DecidableEq, Repr, Inhabited

structure Options where
  stringUnit : StringUnit := .bytes
deriving DecidableEq, Repr, Inhabited

namespace StringUnit

def text : StringUnit → String
  | bytes => "bytes"
  | codePoints => "codePoints"

def ofText? : String → Option StringUnit
  | "bytes" => some bytes
  | "codePoints" => some codePoints
  | _ => none

theorem ofText?_text (u : StringUnit) : ofText? u.text = some u := by
  cases u <;> rfl

end StringUnit

namespace Options

def stringUnitKey : String := "stringTranslationMode"

/-- Reads a configuration document. A missing key takes its default and unknown keys are ignored. -/
def ofConfig? : Bson → Option Options
  | .document fields =>
    match Entries.get? stringUnitKey fields with
    | none => some {}
    | some (.string s) => (StringUnit.ofText? s).map fun u => { stringUnit := u }
    | some _ => none
  | _ => none

def toConfig (o : Options) : Bson := .document [(stringUnitKey, .string o.stringUnit.text)]

theorem ofConfig?_toConfig (o : Options) : ofConfig? o.toConfig = some o := by
  simp [ofConfig?, toConfig, Entries.get?, StringUnit.ofText?_text]

end Options

end QueryStage
