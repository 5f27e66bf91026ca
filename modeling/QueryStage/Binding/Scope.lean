import QueryStage.Decoder.Inference

/-!
# Scopes

What the parameters in scope stand for and, inside a group projector, the grouping parameter with
the bound key of the group.
-/

namespace QueryStage

/-- The grouping parameter of a group projector and the key it gives access to. -/
structure GroupScope where
  parameter : String
  key : Expr

structure Scope where
  lookup : String → Option Expr := fun _ => none
  group : Option GroupScope := none

namespace Scope

def bind (s : Scope) (name : String) (e : Expr) : Scope :=
  { s with lookup := fun n => if n = name then some e else s.lookup n }

def hide (s : Scope) (name : String) : Scope :=
  { s with lookup := fun n => if n = name then none else s.lookup n }

@[simp] theorem lookup_bind_self (s : Scope) (name : String) (e : Expr) :
    (s.bind name e).lookup name = some e := by
  simp [bind]

@[simp] theorem lookup_hide_self (s : Scope) (name : String) :
    (s.hide name).lookup name = none := by
  simp [hide]

theorem lookup_bind_of_ne (s : Scope) {name other : String} (h : other ≠ name) (e : Expr) :
    (s.bind name e).lookup other = s.lookup other := by
  simp [bind, h]

theorem lookup_hide_of_ne (s : Scope) {name other : String} (h : other ≠ name) :
    (s.hide name).lookup other = s.lookup other := by
  simp [hide, h]

@[simp] theorem group_bind (s : Scope) (name : String) (e : Expr) :
    (s.bind name e).group = s.group := rfl

@[simp] theorem group_hide (s : Scope) (name : String) : (s.hide name).group = s.group := rfl

/-- Whether an expression is the grouping parameter, before or after binding. -/
def isGrouping (s : Scope) (e : Expr) : Bool :=
  match s.group, e with
  | some g, .parameter p => p.name = g.parameter
  | some g, .document (.parameter p) none _ => p.name = g.parameter
  | _, _ => false

/-- The key of the group, if this member of this expression denotes it. -/
def key? (s : Scope) (target : Expr) (name : String) : Option Expr :=
  match s.group with
  | some g => if name = "Key" && s.isGrouping target then some g.key else none
  | none => none

end Scope

namespace Expr

/-- The argument that a construction gives for one of its declared members. -/
def constructed? (name : String) (parameters : List String) (args : List Expr)
    (members : Option (List String)) : Option Expr :=
  match members with
  | some members =>
    if members.contains name then Entries.get? name (parameters.zip args) else none
  | none => none

/-- A member of a bound node: a deeper field, or the argument of a construction. -/
def resolve? (name : String) (ty : Ty) : Expr → Option Expr
  | field path decoder _ =>
    (decoder.member? name).map fun m => field (path.child m.element) m.decoder ty
  | document (construct _ parameters args members) path decoder =>
    match constructed? name parameters args members with
    | some e => some e
    | none => declared? path decoder
  | document _ path decoder => declared? path decoder
  | construct _ parameters args members => constructed? name parameters args members
  | _ => none
where
  /-- A declared member of a document at `path`, or of the current document. -/
  declared? (path : Option Path) (decoder : Decoder) : Option Expr :=
    (decoder.member? name).map fun m => field ((path.getD ⟨[]⟩).child m.element) m.decoder ty

/-- What a parameter stands for that ranges over the items of `source`. Items of a bound array live
under its path, and items of a computed one under the loop variable named after the parameter. -/
def element? (ds : Decoders) (source : Expr) (p : Parameter) : Except Fault (Option Expr) :=
  match source with
  | field path decoder _ => .ok (decoder.item?.map (document (parameter p) (some path)))
  | document _ path decoder => .ok (decoder.item?.map (document (parameter p) path))
  | e => do
    let path := Path.loopVariable p.name
    return some (document (parameter p) (some path) (← e.itemDecoder ds))

end Expr

namespace Scope

/-- The scope of a lambda's body. Its one parameter ranges over the items of `source`, and stands
for itself where the items are unknown. -/
def enter (s : Scope) (ds : Decoders) (params : List Parameter) (source : Option Expr) :
    Except Fault Scope :=
  match params, source with
  | [p], some source => do
    match ← source.element? ds p with
    | some e => return s.bind p.name e
    | none => return s.hide p.name
  | [p], none => .ok (s.hide p.name)
  | _, _ => .ok s

end Scope

end QueryStage
