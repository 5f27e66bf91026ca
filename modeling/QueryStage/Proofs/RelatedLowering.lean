import QueryStage.Proofs.Shapes
import QueryStage.Stage

/-!
# Lowering related operands

A relation of values that the forms of stages keep is kept by all that is emitted for operators,
members, methods and constructions. Which form is emitted does not depend on which of two related
values an operand has, and neither does the fault. The two sides may count strings in different
units: then the relation has to keep the forms of plain operators, and to relate the operators of
the one unit to those of the other.
-/

namespace QueryStage

namespace Entries

variable {α β : Type} {R : α → β → Prop}

/-- Entries with the same keys and related values, in order. -/
inductive Rel (R : α → β → Prop) : Entries α → Entries β → Prop
  | nil : Rel R [] []
  | cons (key : String) {a : α} {b : β} {as : Entries α} {bs : Entries β} (h : R a b)
    (rest : Rel R as bs) : Rel R ((key, a) :: as) ((key, b) :: bs)

namespace Rel

variable {as : Entries α} {bs : Entries β}

theorem of_forall₂ (h : List.Forall₂ (fun a b => a.1 = b.1 ∧ R a.2 b.2) as bs) : Rel R as bs := by
  induction h with
  | nil => exact .nil
  | @cons a b as bs hab _ ih =>
    obtain ⟨key, a⟩ := a
    obtain ⟨key', b⟩ := b
    obtain ⟨rfl, hab⟩ : key = key' ∧ R a b := hab
    exact .cons key hab ih

theorem forall₂ (h : Rel R as bs) : List.Forall₂ (fun a b => a.1 = b.1 ∧ R a.2 b.2) as bs := by
  induction h with
  | nil => exact .nil
  | cons key hab _ ih => exact .cons ⟨rfl, hab⟩ ih

theorem keys (h : Rel R as bs) : as.keys = bs.keys := by
  induction h with
  | nil => rfl
  | cons key _ _ ih => exact congrArg (key :: ·) ih

theorem insert (h : Rel R as bs) (key : String) {a : α} {b : β} (hab : R a b) :
    Rel R (as.insert key a) (bs.insert key b) := by
  induction h with
  | nil => exact .cons key hab .nil
  | cons k hxy hrest ih =>
    simp only [Entries.insert]
    split
    · exact .cons k hab hrest
    · exact .cons k hxy ih

theorem extend (h : Rel R as bs) {es : Entries α} {es' : Entries β} (hes : Rel R es es') :
    Rel R (as.extend es) (bs.extend es') := by
  induction hes generalizing as bs with
  | nil => exact h
  | cons key hxy _ ih => exact ih (h.insert key hxy)

theorem collect (h : Rel R as bs) : Rel R (Entries.collect as) (Entries.collect bs) :=
  extend .nil h

theorem erase (h : Rel R as bs) (key : String) : Rel R (as.erase key) (bs.erase key) := by
  unfold Entries.erase
  induction h with
  | nil => exact .nil
  | cons k hxy _ ih =>
    simp only [List.filter_cons]
    split
    · exact .cons k hxy ih
    · exact ih

end Rel

end Entries

/-- The operators that count in a unit. -/
def StringUnit.operators (u : StringUnit) : List String :=
  [u.lengthOperator, u.substringOperator, u.indexOperator]

namespace Bson

def items? : Bson → Option (List Bson)
  | array items => some items
  | _ => none

/-- The operands of this operator, if it is applied to a list of them. -/
def chained? (operator : String) : Bson → Option (List Bson)
  | document [(key, argument)] => if key = operator then argument.items? else none
  | _ => none

theorem eq_of_chained? {operator : String} {b : Bson} {operands : List Bson}
    (h : b.chained? operator = some operands) : b = applyAll operator operands := by
  unfold chained? at h
  split at h
  · rename_i key argument
    split at h
    · rename_i hkey
      cases argument with
      | array items =>
        cases h
        rw [hkey, applyAll, apply]
      | _ => cases h
    · cases h
  · cases h

def isDocument : Bson → Bool
  | document _ => true
  | _ => false

/-- The operators that take a chain of operands in one list. -/
def joining : List String := ["$add", "$multiply", "$and", "$or", "$concat"]

/-- Operators that take no chains and do not count in strings. -/
def isPlain (operator : String) : Bool :=
  !(joining ++ (StringUnit.bytes.operators ++ StringUnit.codePoints.operators)).contains operator

theorem not_mem_of_isPlain {operator : String} (h : isPlain operator = true) :
    operator ∉ joining ∧ ∀ u : StringUnit, operator ∉ u.operators := by
  simp only [isPlain, List.contains_eq_mem, List.mem_append, Bool.not_eq_true',
    decide_eq_false_iff_not, not_or] at h
  refine ⟨h.1, fun u => ?_⟩
  cases u with
  | bytes => exact h.2.1
  | codePoints => exact h.2.2

/-- A relation that is kept by the forms in which members and methods are emitted, where the one
side counts strings in `u` and the other in `u'`. Fields have names of a given kind. -/
structure Forms (u u' : StringUnit) (N : String → Prop) (B : Bson → Bson → Prop) : Prop where
  literal : ∀ {value : Literal} {ty : Ty} {b : Bson}, value.lower ty = .ok b → B b b
  current : B (string "$$ROOT") (string "$$ROOT")
  plain : ∀ {operator : String} {a b : Bson}, isPlain operator = true → B a b →
    B (apply operator a) (apply operator b)
  plainAll : ∀ {operator : String} {as bs : List Bson}, isPlain operator = true →
    List.Forall₂ B as bs → B (applyAll operator as) (applyAll operator bs)
  fields : ∀ {as bs : Entries Bson}, (∀ key ∈ as.keys, N key) → as.Rel B bs →
    B (document as) (document bs)
  argument : ∀ key ∈ ["input", "as", "in", "cond", "chars"], N key
  length : ∀ {a b : Bson}, B a b → B (apply u.lengthOperator a) (apply u'.lengthOperator b)
  substring : ∀ {as bs : List Bson}, List.Forall₂ B as bs →
    B (applyAll u.substringOperator as) (applyAll u'.substringOperator bs)
  index : ∀ {as bs : List Bson}, List.Forall₂ B as bs →
    B (applyAll u.indexOperator as) (applyAll u'.indexOperator bs)
  negated : ∀ {a b : Bson}, B a b → B (UnaryOp.not.emit a) (UnaryOp.not.emit b)

/-- A relation that holds of literals and the current document, and of what is built in the same way
from related values. -/
structure Congruence (B : Bson → Bson → Prop) : Prop where
  literal : ∀ {value : Literal} {ty : Ty} {b : Bson}, value.lower ty = .ok b → B b b
  current : B (string "$$ROOT") (string "$$ROOT")
  array : ∀ {as bs : List Bson}, List.Forall₂ B as bs → B (array as) (array bs)
  document : ∀ {as bs : Entries Bson}, as.Rel B bs → B (document as) (document bs)
  binary : ∀ (op : BinaryOp) (ty : Ty) {a b c d : Bson}, B a b → B c d →
    B (op.emit ty a c) (op.emit ty b d)
  negated : ∀ {a b : Bson}, B a b → B (UnaryOp.not.emit a) (UnaryOp.not.emit b)

/-- Related values have the same form where operators look at it. -/
structure KeepsForm (B : Bson → Bson → Prop) : Prop where
  array : ∀ {as bs : List Bson}, List.Forall₂ B as bs → B (array as) (array bs)
  document : ∀ {as bs : Entries Bson}, as.Rel B bs → B (document as) (document bs)
  chained : ∀ (op : BinaryOp) (ty : Ty) {a b : Bson}, op.flattens = true → B a b →
    Option.Rel (List.Forall₂ B) (a.chained? (op.operatorOn ty)) (b.chained? (op.operatorOn ty))
  isDocument : ∀ {a b : Bson}, B a b → a.isDocument = b.isDocument

end Bson

theorem BinaryOp.emit_eq (op : BinaryOp) (ty : Ty) (left right : Bson) :
    op.emit ty left right = Bson.applyAll (op.operatorOn ty)
      (match (if op.flattens then left.chained? (op.operatorOn ty) else none) with
        | some operands => operands ++ [right]
        | none => [left, right]) := by
  unfold emit
  cases op.flattens with
  | false => split <;> simp
  | true =>
    split
    · rename_i key operands
      by_cases hkey : key = op.operatorOn ty <;> simp [Bson.chained?, Bson.items?, hkey]
    · rename_i hshape
      have hnone : left.chained? (op.operatorOn ty) = none := by
        unfold Bson.chained?
        split
        · rename_i key argument
          cases argument with
          | array operands => exact (hshape key operands rfl).elim
          | _ => simp [Bson.items?]
        · rfl
      simp [hnone]

theorem UnaryOp.emit_not (b : Bson) :
    emit .not b = if b.isDocument then Bson.applyAll "$not" [b] else Bson.apply "$not" b := by
  cases b <;> rfl

namespace Bson.KeepsForm

variable {B : Bson → Bson → Prop} {a b c d : Bson}

theorem applyAll (hB : KeepsForm B) (operator : String) {as bs : List Bson}
    (h : List.Forall₂ B as bs) : B (Bson.applyAll operator as) (Bson.applyAll operator bs) :=
  hB.document (.cons operator (hB.array h) .nil)

theorem binary (hB : KeepsForm B) (op : BinaryOp) (ty : Ty) (hab : B a b) (hcd : B c d) :
    B (op.emit ty a c) (op.emit ty b d) := by
  rw [BinaryOp.emit_eq, BinaryOp.emit_eq]
  refine hB.applyAll _ ?_
  cases hflattens : op.flattens with
  | false => exact .cons hab (.cons hcd .nil)
  | true =>
    have hchained := hB.chained op ty hflattens hab
    simp only [if_true]
    generalize a.chained? (op.operatorOn ty) = x at hchained
    generalize b.chained? (op.operatorOn ty) = y at hchained
    cases hchained with
    | none => exact .cons hab (.cons hcd .nil)
    | some h => exact List.rel_append h (.cons hcd .nil)

theorem negated (hB : KeepsForm B) (h : B a b) :
    B (UnaryOp.not.emit a) (UnaryOp.not.emit b) := by
  rw [UnaryOp.emit_not, UnaryOp.emit_not, hB.isDocument h]
  split
  · exact hB.applyAll _ (.cons h .nil)
  · exact hB.document (.cons _ h .nil)

end Bson.KeepsForm

theorem Ty.computed?_of_ne_length {name : String} (h : name ≠ "Length") (u u' : StringUnit)
    (ty : Ty) : ty.computed? u name = ty.computed? u' name := by
  unfold computed?
  split
  · rfl
  · split <;> simp_all

namespace Bson.Forms

variable {u u' : StringUnit} {N : String → Prop} {B : Bson → Bson → Prop} {a b c d : Bson}

theorem int32 (hB : Forms u u' N B) (n : Int32) : B (.int32 n) (.int32 n) := by
  have hlower : (Literal.int32 n).lower .int32 = .ok (.int32 n) := rfl
  exact hB.literal hlower

theorem loop (hB : Forms u u' N B) (kind : LoopKind) {binder : String}
    (hbinder : B (.string binder) (.string binder)) (hinput : B a b) (hbody : B c d) :
    B (kind.emit binder a c) (kind.emit binder b d) := by
  have hfields (last : String) (hlast : N last) :=
    hB.fields
      (by simpa [Entries.keys, hlast] using ⟨hB.argument _ (by simp), hB.argument _ (by simp)⟩)
      (.cons "input" hinput (.cons "as" hbinder (.cons last hbody .nil)))
  cases kind with
  | map => exact hB.plain rfl (hfields "in" (hB.argument _ (by simp)))
  | filter => exact hB.plain rfl (hfields "cond" (hB.argument _ (by simp)))

theorem unary (hB : Forms u u' N B) (op : UnaryOp) (h : B a b) : B (op.emit a) (op.emit b) := by
  cases op with
  | not => exact hB.negated h
  | convert => exact h
  | arrayLength => exact hB.plain rfl h

theorem emitShape (hB : Forms u u' N B) {as bs : Entries Bson} (hkeys : ∀ key ∈ as.keys, N key)
    (h : as.Rel B bs) : B (emitShape as) (emitShape bs) := by
  unfold QueryStage.emitShape
  cases h with
  | nil => exact hB.plain rfl (hB.fields (List.forall_mem_nil _) .nil)
  | cons key hab hrest => exact hB.fields hkeys (.cons key hab hrest)

theorem computed (hB : Forms u u' N B) (ty : Ty) (name : String) :
    Option.Rel (fun f g => ∀ a b, B a b → B (f a) (g b)) (ty.computed? u name)
      (ty.computed? u' name) := by
  have hsize : Option.Rel (fun f g => ∀ a b, B a b → B (f a) (g b)) (some (Bson.apply "$size"))
      (some (Bson.apply "$size")) :=
    .some fun a b h => hB.plain rfl h
  by_cases hlength : name = "Length"
  · subst hlength
    have hpart : Ty.datePart? "Length" = none := rfl
    simp only [Ty.computed?, hpart, ite_self]
    split
    · exact hsize
    · split
      · exact .some fun a b h => hB.length h
      · exact .none
  · rw [Ty.computed?_of_ne_length hlength u u']
    unfold Ty.computed?
    split
    · rename_i f hf
      refine .some fun a b h => ?_
      split at hf
      · unfold Ty.datePart? at hf
        split at hf
        · cases hf
          exact hB.plainAll rfl (.cons (hB.plain rfl h) (.cons (hB.int32 1) .nil))
        all_goals first | cases hf; exact hB.plain rfl h | cases hf
      · cases hf
    · split
      · split
        · exact hsize
        · exact .none
      · exact absurd rfl hlength
      · split
        · exact .some fun a b h => h
        · exact .none
      · exact .none

end Bson.Forms

namespace Bson.Congruence

variable {B : Bson → Bson → Prop} {a b c d : Bson}

theorem apply (hB : Congruence B) (operator : String) (h : B a b) :
    B (Bson.apply operator a) (Bson.apply operator b) :=
  hB.document (.cons operator h .nil)

theorem applyAll (hB : Congruence B) (operator : String) {as bs : List Bson}
    (h : List.Forall₂ B as bs) : B (Bson.applyAll operator as) (Bson.applyAll operator bs) :=
  hB.apply operator (hB.array h)

theorem forms (hB : Congruence B) (u : StringUnit) : Forms u u (fun _ => True) B where
  literal := hB.literal
  current := hB.current
  plain _ h := hB.apply _ h
  plainAll _ h := hB.applyAll _ h
  fields _ h := hB.document h
  argument _ _ := trivial
  length h := hB.apply _ h
  substring h := hB.applyAll _ h
  index h := hB.applyAll _ h
  negated := hB.negated

theorem int32 (hB : Congruence B) (n : Int32) : B (.int32 n) (.int32 n) :=
  (hB.forms .bytes).int32 n

theorem loop (hB : Congruence B) (kind : LoopKind) {binder : String}
    (hbinder : B (.string binder) (.string binder)) (hinput : B a b) (hbody : B c d) :
    B (kind.emit binder a c) (kind.emit binder b d) :=
  (hB.forms .bytes).loop kind hbinder hinput hbody

theorem unary (hB : Congruence B) (op : UnaryOp) (h : B a b) : B (op.emit a) (op.emit b) :=
  (hB.forms .bytes).unary op h

theorem computed (hB : Congruence B) {unit : StringUnit} {ty : Ty} {name : String}
    {f : Bson → Bson} (hf : ty.computed? unit name = some f) (h : B a b) : B (f a) (f b) := by
  have hrel := (hB.forms unit).computed ty name
  rw [hf] at hrel
  cases hrel with
  | some hrel => exact hrel a b h

theorem emitShape (hB : Congruence B) {as bs : Entries Bson} (h : as.Rel B bs) :
    B (emitShape as) (emitShape bs) :=
  (hB.forms .bytes).emitShape (fun _ _ => trivial) h

end Bson.Congruence

variable {u u' : StringUnit} {N : String → Prop} {B : Bson → Bson → Prop}

/-- The forms of a method keep a relation. -/
structure SequenceMethod.Keeps (B : Bson → Bson → Prop) (m : SequenceMethod) : Prop where
  alone : ∀ f, m.alone = some f → ∀ a b, B a b → B (f a) (f b)
  each : ∀ kind f, m.each = some (kind, f) → ∀ a b, B a b → B (f a) (f b)
  pair : ∀ f, m.pair = some f → ∀ a b c d, B a b → B c d → B (f a c) (f b d)

theorem SequenceMethod.keeps_named (hB : Bson.Forms u u' N B) (method : String) :
    (named method).Keeps B := by
  have hzero {a b : Bson} (operator : String) (hplain : Bson.isPlain operator = true) (h : B a b) :
      B (Bson.apply operator a) (Bson.apply operator b) :=
    hB.plain hplain h
  have hone {a b : Bson} (operator : String) (hplain : Bson.isPlain operator = true) (h : B a b) :
      B (Bson.applyAll operator [a]) (Bson.applyAll operator [b]) :=
    hB.plainAll hplain (.cons h .nil)
  have htwo {a b c d : Bson} (operator : String) (hplain : Bson.isPlain operator = true)
      (hab : B a b) (hcd : B c d) :
      B (Bson.applyAll operator [a, c]) (Bson.applyAll operator [b, d]) :=
    hB.plainAll hplain (.cons hab (.cons hcd .nil))
  unfold named
  split <;> constructor <;>
    simp +contextual [count, combine, reduce, keep, elementAt, hzero, hB.int32, hone, htwo,
      Bson.isPlain, Bson.joining, StringUnit.operators, StringUnit.lengthOperator,
      StringUnit.substringOperator, StringUnit.indexOperator]

/-- What two lambdas select without a loop: fields with related references, or the elements. -/
inductive Selection.Rel (B : Bson → Bson → Prop) : Selection → Selection → Prop
  | field {a b : String} (h : B (.string a) (.string b)) : Selection.Rel B (.field a) (.field b)
  | element : Selection.Rel B .element .element

/-- The loop itself, whatever its lambda selects. -/
def Loop.iterate (l : Loop) (kind : LoopKind) (source : Lowered) : Lowered := do
  let binder ← l.binder
  let body ← l.body
  return kind.emit binder (← source) body

/-- Two loops that select the same way and make related loops of related sources. -/
structure Loop.Rel (B : Bson → Bson → Prop) (l l' : Loop) : Prop where
  selection : Option.Rel (Selection.Rel B) l.selection l'.selection
  iterate : ∀ (kind : LoopKind) {a b : Lowered}, Lifted B a b →
    Lifted B (l.iterate kind a) (l'.iterate kind b)

theorem Loop.emit_eq (l : Loop) (kind : LoopKind) (source : Lowered) :
    l.emit kind source = match kind, l.selection with
      | .map, some (.field reference) => .ok (.string reference)
      | .map, some .element => source
      | kind, _ => l.iterate kind source := by
  unfold emit
  split <;> simp_all [iterate]

theorem Loop.Rel.emit {l l' : Loop} (h : l.Rel B l') (kind : LoopKind) {a b : Lowered}
    (hab : Lifted B a b) : Lifted B (l.emit kind a) (l'.emit kind b) := by
  have hselection := h.selection
  rw [emit_eq, emit_eq]
  generalize l.selection = x at hselection
  generalize l'.selection = y at hselection
  cases kind with
  | filter => exact h.iterate .filter hab
  | map =>
    cases hselection with
    | none => exact h.iterate .map hab
    | some hselection =>
      cases hselection with
      | field h => exact .ok h
      | element => exact hab

theorem Loop.Rel.refl (hB : Bson.Congruence B) (hrefl : ∀ b, B b b) (l : Loop) : l.Rel B l where
  selection := by
    cases l.selection with
    | none => exact .none
    | some selection =>
      cases selection with
      | field reference => exact .some (.field (hrefl _))
      | element => exact .some .element
  iterate kind a b hab := by
    refine (Lifted.refl l.binder).bind ?_
    rintro binder _ rfl
    refine (Lifted.refl l.body).bind ?_
    rintro body _ rfl
    exact hab.bind fun _ _ hinput => .ok (hB.loop kind (hrefl _) hinput (hrefl _))

/-- A method keeps the relation if the loops over these two sources do. -/
theorem SequenceMethod.Keeps.emit_over {m : SequenceMethod} (hm : m.Keeps B) (unsupported : Fault)
    {source source' : Lowered} (hsource : Lifted B source source') {loop loop' : Option Loop}
    (hloop : Option.Rel (fun l l' => ∀ kind, Lifted B (l.emit kind source) (l'.emit kind source'))
      loop loop')
    {operands operands' : List Lowered}
    (hoperands : List.Forall₂ (Lifted B) operands operands') :
    Lifted B (m.emit unsupported source loop operands)
      (m.emit unsupported source' loop' operands') := by
  have hpair {x y : Lowered} (hxy : Lifted B x y) (f : Bson → Bson → Bson)
      (hf : m.pair = some f) := hsource.bind fun a b hab =>
    hxy.bind fun c d hcd => Lifted.ok (hm.pair f hf a b c d hab hcd)
  cases hoperands with
  | nil =>
    simp only [SequenceMethod.emit]
    split
    · rename_i f hf
      exact hsource.bind fun a b hab => .ok (hm.alone f hf a b hab)
    · exact .error _
  | cons hoperand hrest =>
    cases hrest with
    | cons => exact .error _
    | nil =>
      simp only [SequenceMethod.emit]
      cases heach : m.each with
      | none =>
        cases hloop <;> cases hf : m.pair with
        | none => exact .error _
        | some f => exact hpair hoperand f hf
      | some form =>
        obtain ⟨kind, f⟩ := form
        cases hloop with
        | none =>
          cases hf : m.pair with
          | none => exact .error _
          | some f => exact hpair hoperand f hf
        | some hloop =>
          exact (hloop kind).bind fun a b hab => .ok (hm.each kind f heach a b hab)

theorem SequenceMethod.Keeps.emit {m : SequenceMethod} (hm : m.Keeps B) (unsupported : Fault)
    {source source' : Lowered} (hsource : Lifted B source source') {loop loop' : Option Loop}
    (hloop : Option.Rel (Loop.Rel B) loop loop') {operands operands' : List Lowered}
    (hoperands : List.Forall₂ (Lifted B) operands operands') :
    Lifted B (m.emit unsupported source loop operands)
      (m.emit unsupported source' loop' operands') := by
  refine hm.emit_over unsupported hsource ?_ hoperands
  cases hloop with
  | none => exact .none
  | some hloop => exact .some fun kind => hloop.emit kind hsource

namespace MethodCall

theorem isPlain_mathOperator? {method operator : String} {n : Nat}
    (h : mathOperator? method n = some operator) : Bson.isPlain operator = true := by
  unfold mathOperator? at h
  split at h
  all_goals first | cases h; rfl | cases h

/-- Calls of the same method with related operands. -/
structure Rel (B : Bson → Bson → Prop) (c c' : MethodCall) : Prop where
  method : c.method = c'.method
  declaring : c.declaring = c'.declaring
  receiver : Option.Rel (Lifted B) c.receiver c'.receiver
  args : List.Forall₂ (Lifted B) c.args c'.args
  comparison : c.comparison = c'.comparison
  overGroup : c.overGroup = c'.overGroup
  loop : Option.Rel (Loop.Rel B) c.loop c'.loop

namespace Rel

variable {c c' : MethodCall}

theorem unsupported_eq (h : c.Rel B c') : c.unsupported = c'.unsupported := by
  rw [unsupported, unsupported, h.method, h.declaring]

theorem isSome_receiver (h : c.Rel B c') : c.receiver.isSome = c'.receiver.isSome := by
  have hreceiver := h.receiver
  generalize c.receiver = x at hreceiver
  generalize c'.receiver = y at hreceiver
  cases hreceiver <;> rfl

theorem operands (h : c.Rel B c') : List.Forall₂ (Lifted B) c.operands c'.operands := by
  refine List.rel_append ?_ h.args
  have hreceiver := h.receiver
  generalize c.receiver = x at hreceiver
  generalize c'.receiver = y at hreceiver
  cases hreceiver with
  | none => exact .nil
  | some h => exact .cons h .nil

theorem lowered (h : c.Rel B c') : Lifted (List.Forall₂ B) c.lowered c'.lowered :=
  .mapM h.operands

variable (hB : Bson.Forms u u' N B)
include hB

theorem spread {operator : String} (hplain : Bson.isPlain operator = true) {as bs : List Bson}
    (h : List.Forall₂ B as bs) :
    B (MethodCall.spread operator as) (MethodCall.spread operator bs) := by
  match h with
  | .nil => exact hB.plainAll hplain .nil
  | .cons hab .nil => exact hB.plain hplain hab
  | .cons hab (.cons hcd h) => exact hB.plainAll hplain (.cons hab (.cons hcd h))

theorem lowerGeneral (h : c.Rel B c') : Lifted B c.lowerGeneral c'.lowerGeneral := by
  unfold MethodCall.lowerGeneral
  rw [h.method, h.isSome_receiver, h.args.length_eq, h.unsupported_eq]
  generalize c'.method = method, c'.receiver.isSome = received, c'.args.length = count
  split
  · exact h.lowered.bind fun _ _ hs => .ok (hB.plainAll rfl hs)
  · exact h.lowered.bind fun _ _ hs => .ok (hB.plainAll rfl hs)
  · exact .error _

theorem lowerMath (h : c.Rel B c') : Lifted B c.lowerMath c'.lowerMath := by
  unfold MethodCall.lowerMath
  rw [h.method, h.args.length_eq, h.unsupported_eq]
  cases hoperator : mathOperator? c'.method c'.args.length with
  | none => exact .error _
  | some operator =>
    exact h.lowered.bind fun _ _ hs => .ok (spread hB (isPlain_mathOperator? hoperator) hs)

theorem lowerCollection (h : c.Rel B c') : Lifted B c.lowerCollection c'.lowerCollection := by
  unfold MethodCall.lowerCollection
  have hgeneral := lowerGeneral hB h
  rw [h.method, h.args.length_eq]
  generalize c'.method = method, c'.args.length = count
  split
  · exact h.lowered.bind fun _ _ hs => .ok (hB.plainAll rfl hs)
  · exact h.lowered.bind fun _ _ hs => .ok (hB.plainAll rfl hs)
  · exact h.lowered.bind fun _ _ hs => .ok (hB.plainAll rfl (List.rel_reverse hs))
  · exact hgeneral

theorem lowerFunction (h : c.Rel B c') {operator : String} (hplain : Bson.isPlain operator = true)
    (arity : Nat) :
    Lifted B (c.lowerFunction operator arity) (c'.lowerFunction operator arity) := by
  unfold MethodCall.lowerFunction
  refine h.lowered.bind fun as bs hs => ?_
  rw [hs.length_eq, h.unsupported_eq]
  split
  · exact .ok (spread hB hplain hs)
  · exact .error _

theorem lowerIndex (h : c.Rel B c') (arity : Nat) :
    Lifted B (c.lowerFunction u.indexOperator (arity + 2))
      (c'.lowerFunction u'.indexOperator (arity + 2)) := by
  unfold MethodCall.lowerFunction
  refine h.lowered.bind fun as bs hs => ?_
  rw [hs.length_eq, h.unsupported_eq]
  split
  · rename_i hlength
    match hs with
    | .nil => cases hlength
    | .cons _ .nil => simp at hlength
    | .cons ha (.cons hb hs) => exact .ok (hB.index (.cons ha (.cons hb hs)))
  · exact .error _

theorem lowerSubstring (h : c.Rel B c') : Lifted B (c.lowerSubstring u) (c'.lowerSubstring u') := by
  unfold MethodCall.lowerSubstring
  refine h.lowered.bind fun as bs hs => ?_
  rw [h.unsupported_eq]
  match hs with
  | .nil => exact .error _
  | .cons _ .nil => exact .error _
  | .cons ha (.cons hb .nil) =>
    exact .ok (hB.substring (.cons ha (.cons hb (.cons (hB.int32 _) .nil))))
  | .cons ha (.cons hb (.cons hc .nil)) =>
    exact .ok (hB.substring (.cons ha (.cons hb (.cons hc .nil))))
  | .cons _ (.cons _ (.cons _ (.cons _ _))) => exact .error _

theorem lowerTrim (h : c.Rel B c') {operator : String} (hplain : Bson.isPlain operator = true) :
    Lifted B (c.lowerTrim operator) (c'.lowerTrim operator) := by
  have hinput : N "input" := hB.argument _ (by simp)
  have hchars : N "chars" := hB.argument _ (by simp)
  unfold MethodCall.lowerTrim
  refine h.lowered.bind fun as bs hs => ?_
  rw [h.unsupported_eq]
  match hs with
  | .nil => exact .error _
  | .cons ha .nil =>
    exact .ok (hB.plain hplain (hB.fields (by simpa [Entries.keys]) (.cons _ ha .nil)))
  | .cons ha (.cons hb .nil) =>
    have hkeys : ∀ key ∈ ["input", "chars"], N key := by simp [hinput, hchars]
    exact .ok (hB.plain hplain (hB.fields hkeys (.cons _ ha (.cons _ hb .nil))))
  | .cons _ (.cons _ (.cons _ _)) => exact .error _

theorem lowerStringEquals (h : c.Rel B c') :
    Lifted B c.lowerStringEquals c'.lowerStringEquals := by
  have htwo : Lifted (List.Forall₂ B) ((c.operands.take 2).mapM id)
      ((c'.operands.take 2).mapM id) := .mapM (List.forall₂_take 2 h.operands)
  have hcompare (comparison : StringComparison) :
      Lifted B (lowerStringEquals.compareAs c comparison)
        (lowerStringEquals.compareAs c' comparison) := by
    unfold lowerStringEquals.compareAs
    split
    · exact htwo.bind fun _ _ hs => .ok (hB.plainAll rfl hs)
    · refine htwo.bind fun _ _ hs => .ok (hB.plainAll rfl ?_)
      exact .cons (hB.plainAll rfl hs) (.cons (hB.int32 0) .nil)
    · exact .error _
  unfold MethodCall.lowerStringEquals
  rw [h.operands.length_eq, h.comparison, h.unsupported_eq]
  generalize c'.operands.length = count, c'.comparison = comparison
  split
  · exact hcompare _
  · exact hcompare _
  · exact .error _

theorem lowerString (h : c.Rel B c') : Lifted B (c.lowerString u) (c'.lowerString u') := by
  unfold MethodCall.lowerString
  rw [h.method, h.args.length_eq]
  generalize c'.method = method
  split
  · exact lowerSubstring hB h
  · exact lowerFunction hB h rfl _
  · exact lowerFunction hB h rfl _
  · exact lowerFunction hB h rfl _
  · exact lowerFunction hB h rfl _
  · exact lowerStringEquals hB h
  · split
    · rename_i hcount
      rw [Bool.or_eq_true, decide_eq_true_eq, decide_eq_true_eq] at hcount
      rcases hcount with hcount | hcount
      · rw [hcount]
        exact lowerIndex hB h 0
      · rw [hcount]
        exact lowerIndex hB h 1
    · exact lowerGeneral hB h
  · exact lowerFunction hB h rfl _
  · exact lowerTrim hB h rfl
  · exact lowerTrim hB h rfl
  · exact lowerTrim hB h rfl
  · exact lowerGeneral hB h

theorem lowerSequence (h : c.Rel B c') : Lifted B c.lowerSequence c'.lowerSequence := by
  have hargs := h.args
  have hkeeps := SequenceMethod.keeps_named hB c'.method
  unfold MethodCall.lowerSequence
  rw [h.method, h.overGroup, h.unsupported_eq]
  generalize c.args = xs at hargs
  generalize c'.args = ys at hargs
  cases hargs with
  | nil => exact .error _
  | cons hsource hoperands =>
    dsimp only
    split
    · exact .error _
    · exact hkeeps.emit _ hsource h.loop hoperands

/-- Calls of the same method with related operands are emitted alike. -/
theorem lower_forms (h : c.Rel B c') : Lifted B (c.lower u) (c'.lower u') := by
  unfold MethodCall.lower
  rw [h.declaring]
  generalize MethodFamily.of c'.declaring = family
  split
  · exact lowerSequence hB h
  · exact lowerMath hB h
  · exact lowerString hB h
  · exact lowerCollection hB h
  · exact lowerGeneral hB h

omit hB in
theorem lower (hB : Bson.Congruence B) (h : c.Rel B c') (unit : StringUnit) :
    Lifted B (c.lower unit) (c'.lower unit) :=
  lower_forms (hB.forms unit) h

end Rel

end MethodCall

theorem shapeOf_rel (ty : Ty) (parameters : List String) {xs ys : List Lowered}
    (h : List.Forall₂ (Lifted B) xs ys) :
    Lifted (Entries.Rel B) (shapeOf ty parameters xs) (shapeOf ty parameters ys) := by
  unfold shapeOf
  rw [h.length_eq]
  split
  · exact .error _
  · refine (Lifted.mapM ?_).bind fun as bs hs => .ok (Entries.Rel.of_forall₂ hs).collect
    refine (Entries.forall₂_zip parameters h).imp ?_
    rintro ⟨name, x⟩ ⟨name', y⟩ ⟨hname, hxy⟩
    exact hxy.bind fun a b hab => .ok ⟨hname, hab⟩

theorem Expr.lowerShape_of_kind (unit : StringUnit) {e : Expr} (h : e.kind ≠ .construction) :
    e.lowerShape unit = .error (.unsupportedNode e.kind e.ty) := by
  cases e with
  | construct => exact absurd rfl h
  | _ => rfl

namespace Stage

variable {as bs : Entries Bson}

theorem projection_rel_of_zero (hzero : B (.int32 0) (.int32 0)) (h : as.Rel B bs) :
    (projection as).Rel B (projection bs) := by
  rw [projection, projection, Entries.contains, h.keys, ← Entries.contains]
  split
  · exact h
  · exact .cons "_id" hzero h

theorem projection_rel (hB : Bson.Congruence B) (h : as.Rel B bs) :
    (projection as).Rel B (projection bs) :=
  projection_rel_of_zero (hB.int32 0) h

theorem grouping_rel {key key' : Bson} (hkey : B key key') (h : as.Rel B bs) :
    (grouping key as).Rel B (grouping key' bs) := by
  refine .cons "_id" ?_ (h.erase "_id")
  have hid := Entries.get?_rel "_id" h.forall₂
  generalize Entries.get? "_id" as = a at hid
  generalize Entries.get? "_id" bs = b at hid
  cases hid with
  | none => exact hkey
  | some h => exact h

end Stage

end QueryStage
