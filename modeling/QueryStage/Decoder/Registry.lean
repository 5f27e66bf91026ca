import QueryStage.Decoder.Basic

/-!
# Decoder registries

Decoders are found by static type. A registry holds the classes whose decoders are known, by name;
every other type is decoded by its structure.
-/

namespace QueryStage

/-- The decoders of static types, as far as they are known. -/
structure Decoders where
  lookup : Ty → Option Decoder

structure Registry where
  classes : Entries DocumentDecoder := []

namespace Registry

/-- Makes a class known, and gives the decoder that was registered under its name before. -/
def register (r : Registry) (d : DocumentDecoder) : Option DocumentDecoder × Registry :=
  (r.classes.get? d.typeName, ⟨r.classes.insert d.typeName d⟩)

def withClass (r : Registry) (d : DocumentDecoder) : Registry := (r.register d).2

/-- Wrappers and collections follow their item; the key of a grouping does not matter. -/
def lookup (r : Registry) : Ty → Option Decoder
  | .nullable t => (r.lookup t).map .nullable
  | .array t => (r.lookup t).map .array
  | .set t => (r.lookup t).map .array
  | .grouping _ t => (r.lookup t).map .array
  | .record name => (r.classes.get? name).map .document
  | t => some (.value t)

theorem lookup_withClass_record (r : Registry) (d : DocumentDecoder) (name : String) :
    (r.withClass d).lookup (.record name) =
      if d.typeName = name then some (.document d) else r.lookup (.record name) := by
  simp only [withClass, register, lookup, Entries.get?_insert]
  split <;> rfl

def decoders (r : Registry) : Decoders := ⟨r.lookup⟩

instance : Coe Registry Decoders := ⟨decoders⟩

end Registry

end QueryStage
