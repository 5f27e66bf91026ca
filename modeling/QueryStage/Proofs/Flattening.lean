import QueryStage.Proofs.JoinedLowering

/-!
# Flattened chains

A chain of one operator that nests to the left is emitted as a single application to all operands.
Nesting every such application again gives what is emitted if each operator is applied to its own
two operands. So a flattened chain has the operands of the nested one in their order, and operators
of other kinds, and chains that nest to the right, stay apart.
-/

namespace QueryStage

/-- Applies an operator to two operands, whatever the left one is. -/
def BinaryOp.pair (op : BinaryOp) (leftTy : Ty) (left right : Bson) : Bson :=
  Bson.applyAll (op.operatorOn leftTy) [left, right]

namespace Bson

/-- A joining operator with a chain of operands is applied to two at a time, from the left. -/
def leftNested : Entries Bson → Bson
  | [(operator, array (a :: b :: rest))] =>
    if operator ∈ joining then
      rest.foldl (fun left right => applyAll operator [left, right]) (applyAll operator [a, b])
    else document [(operator, array (a :: b :: rest))]
  | fields => document fields

mutual

/-- Nests the chains inside a value, the inner ones first. -/
def nest : Bson → Bson
  | array items => array (nestEach items)
  | document fields => leftNested (nestFields fields)
  | scopedCode text scope => scopedCode text (nestFields scope)
  | b => b

def nestEach : List Bson → List Bson
  | [] => []
  | b :: bs => b.nest :: nestEach bs

def nestFields : List (String × Bson) → List (String × Bson)
  | [] => []
  | (key, b) :: fields => (key, b.nest) :: nestFields fields

end

@[simp] theorem nestEach_eq_map (items : List Bson) : nestEach items = items.map nest := by
  induction items with
  | nil => rfl
  | cons b bs ih => simp [nestEach, ih]

@[simp] theorem nestFields_eq_map (fields : Entries Bson) :
    nestFields fields = fields.map fun field => (field.1, field.2.nest) := by
  induction fields with
  | nil => rfl
  | cons field fields ih =>
    obtain ⟨key, b⟩ := field
    simp [nestFields, ih]

theorem isDocument_foldl (operator : String) (rest : List Bson) {b : Bson}
    (h : b.isDocument = true) :
    (rest.foldl (fun left right => applyAll operator [left, right]) b).isDocument = true := by
  induction rest generalizing b with
  | nil => exact h
  | cons c rest ih => exact ih rfl

theorem isDocument_leftNested (fields : Entries Bson) : (leftNested fields).isDocument = true := by
  unfold leftNested
  split
  · split
    · exact isDocument_foldl _ _ rfl
    · rfl
  · rfl

@[simp] theorem isDocument_nest (b : Bson) : b.nest.isDocument = b.isDocument := by
  cases b with
  | document fields =>
    rw [nest]
    exact isDocument_leftNested _
  | _ => rfl

theorem items?_of_isDocument {b : Bson} (h : b.isDocument = true) : b.items? = none := by
  cases b with
  | document => rfl
  | _ => cases h

theorem items?_nest {b : Bson} (h : b.items? = none) : b.nest.items? = none := by
  cases b with
  | array => cases h
  | document fields => exact items?_of_isDocument (isDocument_leftNested _)
  | _ => rfl

theorem leftNested_eq_document {fields : Entries Bson}
    (h : ∀ operator ∈ joining, (document fields).chained? operator = none) :
    leftNested fields = document fields := by
  unfold leftNested
  split
  · rename_i operator a b rest
    split
    · rename_i hjoining
      have hnone := h operator hjoining
      simp [chained?, items?] at hnone
    · rfl
  · rfl

theorem leftNested_pair {operator : String} (h : operator ∈ joining) (a b : Bson) :
    leftNested [(operator, array [a, b])] = applyAll operator [a, b] := by
  rw [leftNested, if_pos h, List.foldl_nil]

theorem leftNested_append {operator : String} (h : operator ∈ joining) {operands : List Bson}
    (hlength : 2 ≤ operands.length) (b : Bson) :
    leftNested [(operator, array (operands ++ [b]))] =
      applyAll operator [leftNested [(operator, array operands)], b] := by
  rcases operands with _ | ⟨a₁, _ | ⟨a₂, rest⟩⟩
  · simp at hlength
  · simp at hlength
  · rw [List.cons_append, List.cons_append, leftNested, if_pos h, leftNested, if_pos h,
      List.foldl_append, List.foldl_cons, List.foldl_nil]

/-- An expression, whose chains have two operands at least, and what it is with chains nested. -/
structure NestsTo (a b : Bson) : Prop where
  single : a.items? = none
  chains : ∀ operator ∈ joining, ∀ operands, a.chained? operator = some operands →
    2 ≤ operands.length
  nest : a.nest = b

variable {a b c d : Bson}

theorem chained?_document {fields : Entries Bson} (h : ∀ field ∈ fields, field.2.items? = none)
    (operator : String) : (document fields).chained? operator = none := by
  rcases fields with _ | ⟨⟨key, b⟩, _ | ⟨next, rest⟩⟩
  · rfl
  · rw [chained?, h _ List.mem_cons_self, ite_self]
  · rfl

theorem chained?_applyAll (operator other : String) (operands : List Bson) :
    (applyAll operator operands).chained? other =
      if operator = other then some operands else none := rfl

theorem NestsTo.document {as bs : Entries Bson} (h : as.Rel NestsTo bs) :
    NestsTo (.document as) (.document bs) := by
  have hsingle : ∀ field ∈ as, field.2.items? = none := by
    intro field hfield
    induction h with
    | nil => cases hfield
    | cons key hab _ ih =>
      rcases List.mem_cons.mp hfield with rfl | hfield
      · exact hab.single
      · exact ih hfield
  have hnest : (as.map fun field => (field.1, field.2.nest)) = bs := by
    clear hsingle
    induction h with
    | nil => rfl
    | cons key hab _ ih => rw [List.map_cons, hab.nest, ih]
  refine ⟨rfl, fun operator _ operands hchained => ?_, ?_⟩
  · rw [chained?_document hsingle] at hchained
    cases hchained
  · rw [Bson.nest, nestFields_eq_map, leftNested_eq_document, hnest]
    intro operator _
    refine chained?_document (fun field hfield => ?_) operator
    obtain ⟨field, hmem, rfl⟩ := List.mem_map.mp hfield
    exact items?_nest (hsingle field hmem)

theorem NestsTo.apply (operator : String) (h : NestsTo a b) :
    NestsTo (Bson.apply operator a) (Bson.apply operator b) :=
  .document (.cons operator h .nil)

theorem nest_applyAll (operator : String) (operands : List Bson) :
    (applyAll operator operands).nest =
      leftNested [(operator, array (operands.map Bson.nest))] := by
  simp [applyAll, Bson.apply, Bson.nest]

theorem map_nest_of_forall₂ {as bs : List Bson} (h : List.Forall₂ NestsTo as bs) :
    as.map Bson.nest = bs := by
  induction h with
  | nil => rfl
  | cons hab _ ih => rw [List.map_cons, hab.nest, ih]

theorem NestsTo.applyAll {operator : String} (hoperator : operator ∉ joining) {as bs : List Bson}
    (h : List.Forall₂ NestsTo as bs) :
    NestsTo (Bson.applyAll operator as) (Bson.applyAll operator bs) := by
  have hne (other : String) (hother : other ∈ joining) : operator ≠ other := by
    rintro rfl
    exact hoperator hother
  refine ⟨rfl, fun other hother operands hchained => ?_, ?_⟩
  · rw [chained?_applyAll, if_neg (hne other hother)] at hchained
    cases hchained
  · rw [nest_applyAll, map_nest_of_forall₂ h]
    apply leftNested_eq_document
    intro other hother
    exact (chained?_applyAll operator other bs).trans (if_neg (hne other hother))

theorem NestsTo.not (h : NestsTo a b) : NestsTo (UnaryOp.not.emit a) (UnaryOp.not.emit b) := by
  have hdocument : a.isDocument = b.isDocument := by rw [← h.nest, isDocument_nest]
  rw [UnaryOp.emit_not, UnaryOp.emit_not, hdocument]
  split
  · exact .applyAll (by decide) (.cons h .nil)
  · exact h.apply _

theorem operatorOn_mem_joining (op : BinaryOp) (ty : Ty) :
    op.operatorOn ty ∈ joining ↔ op.flattens = true := by
  unfold BinaryOp.operatorOn
  split
  · rename_i hadd
    rw [Bool.and_eq_true, decide_eq_true_eq] at hadd
    rw [hadd.1]
    decide
  · cases op <;> decide

/-- A flattened chain nests to the application of the operator to both operands. -/
theorem NestsTo.binary (op : BinaryOp) (ty : Ty) (hab : NestsTo a b) (hcd : NestsTo c d) :
    NestsTo (op.emit ty a c) (op.pair ty b d) := by
  have hjoining := operatorOn_mem_joining op ty
  rw [BinaryOp.emit_eq, BinaryOp.pair]
  generalize op.operatorOn ty = operator at hjoining
  cases hflattens : op.flattens with
  | false =>
    have hoperator : operator ∉ joining := by simp [hjoining, hflattens]
    exact .applyAll hoperator (.cons hab (.cons hcd .nil))
  | true =>
    have hoperator : operator ∈ joining := hjoining.mpr hflattens
    simp only [if_true]
    have hlength (operands : List Bson) (h : 2 ≤ operands.length) : ∀ other ∈ joining, ∀ operands',
        (Bson.applyAll operator operands).chained? other = some operands' →
          2 ≤ operands'.length := by
      intro other _ operands' hchained
      rw [chained?_applyAll] at hchained
      split at hchained
      · cases hchained
        exact h
      · cases hchained
    cases hchained : a.chained? operator with
    | none =>
      refine ⟨rfl, hlength _ (Nat.le_refl 2), ?_⟩
      rw [nest_applyAll, List.map_cons, List.map_singleton, leftNested_pair hoperator, hab.nest,
        hcd.nest]
    | some operands =>
      have hoperands := hab.chains operator hoperator operands hchained
      have ha : leftNested [(operator, array (operands.map Bson.nest))] = b := by
        rw [← nest_applyAll, ← eq_of_chained? hchained, hab.nest]
      refine ⟨rfl, hlength _ (by simp; omega), ?_⟩
      rw [nest_applyAll, List.map_append, List.map_singleton, leftNested_append hoperator
        (by simpa using hoperands), ha, hcd.nest]

theorem NestsTo.of_scalar (hsingle : a.items? = none) (hdocument : a.isDocument = false)
    (hnest : a.nest = a) : NestsTo a a := by
  refine ⟨hsingle, fun operator _ operands hchained => ?_, hnest⟩
  rw [eq_of_chained? hchained] at hdocument
  cases hdocument

theorem NestsTo.string (s : String) : NestsTo (.string s) (.string s) := .of_scalar rfl rfl rfl

theorem NestsTo.literal {value : Literal} {ty : Ty} (h : value.lower ty = .ok b) :
    NestsTo b b := by
  cases value with
  | string s =>
    rw [Literal.lower, Except.ok.injEq] at h
    subst h
    split
    · exact (NestsTo.string s).apply _
    · exact .string s
  | comparison => cases h
  | _ => cases h; exact .of_scalar rfl rfl rfl

theorem forms_nestsTo (unit : StringUnit) : Forms unit unit (fun _ => True) NestsTo where
  literal := .literal
  current := .string _
  plain _ h := h.apply _
  plainAll hplain h := .applyAll (not_mem_of_isPlain hplain).1 h
  fields _ h := .document h
  argument _ _ := trivial
  length h := h.apply _
  substring h := .applyAll (by cases unit <;> decide) h
  index h := .applyAll (by cases unit <;> decide) h
  negated := .not

end Bson

namespace Expr

/-- Lowering is lowering by pairs, but for the chains that it flattens: nested again, they are the
same expressions, and there is the same fault if there is one. -/
theorem map_nest_lower (unit : StringUnit) (paths : Path → Path) (e : Expr) :
    e.lower unit paths = e.lowerBy BinaryOp.emit unit paths ∧
      (e.lower unit paths).map Bson.nest = e.lowerBy BinaryOp.pair unit paths := by
  have hjoins : Joins unit unit (fun _ => True) BinaryOp.emit BinaryOp.pair Bson.NestsTo :=
    ⟨Bson.forms_nestsTo unit, .string, fun op ty => .binary op ty⟩
  have hlower := lowerBy_emit unit e paths
  have hrel := hjoins.lowerBy (e := e) (fun _ _ _ _ => trivial) paths
  rw [hlower] at hrel
  exact ⟨hlower.symm, hrel.map_eq fun a b h => h.nest⟩

/-- A chain on the left is flattened, and one on the right is an operand. -/
example :
    (binary .add (binary .add (ofLiteral (.int32 1)) (ofLiteral (.int32 2)) .int32)
      (binary .add (ofLiteral (.int32 3)) (ofLiteral (.int32 4)) .int32) .int32).lower .bytes id =
    .ok (Bson.applyAll "$add" [.int32 1, .int32 2, Bson.applyAll "$add" [.int32 3, .int32 4]]) :=
  rfl

end Expr

end QueryStage
