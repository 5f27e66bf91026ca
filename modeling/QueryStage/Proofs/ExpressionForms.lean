import QueryStage.Proofs.BindingInvariant
import QueryStage.Proofs.Orders
import QueryStage.Proofs.References
import QueryStage.Proofs.RelatedLowering

/-!
# Forms of aggregation expressions

Lowering emits well-formed expressions only. An expression is no list, and every document in it
constructs a value or applies one of the known operators to an argument of the form that this
operator takes. Each rule of lowering has its own way of counting operands, and all of them agree
with one table of operators.
-/

namespace QueryStage

namespace Bson

/-- What an operator is applied to. -/
inductive Operands where
  /-- One expression by itself. -/
  | single
  /-- A list of expressions, with bounds on their number. -/
  | list (least : Nat) (most : Option Nat)
  /-- A document in a list, and anything else by itself. -/
  | negated
  /-- An input, the name of a variable, and under this key what is done with each item. -/
  | loop (body : String)
  /-- An input and perhaps the characters to be trimmed. -/
  | trimmed
  /-- A value that would be read as something else. -/
  | quoted
deriving DecidableEq, Repr

/-- The operators that are emitted. -/
def operands? : String → Option Operands
  | "$subtract" | "$divide" | "$mod" | "$eq" | "$ne" | "$lt" | "$lte" | "$gt" | "$gte" | "$ifNull"
  | "$arrayElemAt" | "$in" | "$cmp" | "$slice" | "$split" | "$strcasecmp" | "$log" | "$pow"
  | "$setDifference" | "$setIntersection" | "$setIsSubset" | "$setEquals" =>
    some (.list 2 (some 2))
  | "$add" | "$multiply" | "$and" | "$or" | "$concat" => some (.list 2 none)
  | "$cond" | "$substrBytes" | "$substrCP" => some (.list 3 (some 3))
  | "$indexOfBytes" | "$indexOfCP" => some (.list 2 (some 3))
  | "$setUnion" => some (.list 1 (some 2))
  | "$anyElementTrue" | "$allElementsTrue" => some (.list 1 (some 1))
  | "$map" => some (.loop "in")
  | "$filter" => some (.loop "cond")
  | "$trim" | "$ltrim" | "$rtrim" => some .trimmed
  | "$not" => some .negated
  | "$literal" => some .quoted
  | "$size" | "$sum" | "$min" | "$max" | "$avg" | "$first" | "$last" | "$push" | "$addToSet"
  | "$abs" | "$ceil" | "$floor" | "$sqrt" | "$exp" | "$ln" | "$log10" | "$trunc"
  | "$toLower" | "$toUpper" | "$strLenBytes" | "$strLenCP"
  | "$dayOfMonth" | "$dayOfWeek" | "$dayOfYear" | "$hour" | "$millisecond" | "$minute" | "$month"
  | "$second" | "$year" => some .single
  | _ => none

def isArray (b : Bson) : Bool := b.items?.isSome

/-- Whether an argument has the form that an operator takes. -/
def Operands.admits : Operands → Bson → Bool
  | single, b => !b.isArray
  | list least most, array items =>
    least ≤ items.length && most.all (items.length ≤ ·) && items.all (!·.isArray)
  | negated, array [document _] => true
  | negated, b => !b.isArray && !b.isDocument
  | loop body, document [(input, a), (as, string _), (last, b)] =>
    [input, as, last] = ["input", "as", body] && !a.isArray && !b.isArray
  | trimmed, document [(input, a)] => input = "input" && !a.isArray
  | trimmed, document [(input, a), (chars, b)] =>
    [input, chars] = ["input", "chars"] && !a.isArray && !b.isArray
  | quoted, string s => Literal.readsAsReference s
  | quoted, document fields => fields.isEmpty
  | _, _ => false

attribute [local simp] Operands.admits

mutual

/-- The documents inside a value, each before those inside of it. What is quoted is not looked
into. -/
def documents : Bson → List (Entries Bson)
  | array items => documentsAmong items
  | document fields => fields :: documentsOf fields
  | _ => []

def documentsAmong : List Bson → List (Entries Bson)
  | [] => []
  | b :: bs => b.documents ++ documentsAmong bs

def documentsOf : List (String × Bson) → List (Entries Bson)
  | [] => []
  | (key, b) :: fields => (if key = "$literal" then [] else b.documents) ++ documentsOf fields

end

/-- A document that constructs a value, or applies a known operator to what it takes. -/
inductive WellFormed : Entries Bson → Prop
  | construction {fields : Entries Bson} (hne : fields ≠ [])
    (h : ∀ field ∈ fields, Literal.readsAsReference field.1 = false ∧ field.2.isArray = false) :
    WellFormed fields
  | application {operator : String} {operands : Operands} {argument : Bson}
    (hoperator : operands? operator = some operands) (h : operands.admits argument = true) :
    WellFormed [(operator, argument)]

/-- A well-formed aggregation expression. -/
structure Expression (b : Bson) : Prop where
  isArray : b.isArray = false
  documents : ∀ fields ∈ b.documents, WellFormed fields

theorem mem_documentsAmong {fields : Entries Bson} {items : List Bson} :
    fields ∈ documentsAmong items ↔ ∃ b ∈ items, fields ∈ b.documents := by
  induction items with
  | nil => simp [documentsAmong]
  | cons b bs ih => simp [documentsAmong, ih]

theorem mem_documentsOf {fields inner : Entries Bson} (h : inner ∈ documentsOf fields) :
    ∃ field ∈ fields, inner ∈ field.2.documents := by
  induction fields with
  | nil => cases h
  | cons field fields ih =>
    obtain ⟨key, b⟩ := field
    rw [documentsOf, List.mem_append] at h
    rcases h with h | h
    · split at h
      · cases h
      · exact ⟨(key, b), List.mem_cons_self, h⟩
    · obtain ⟨field, hfield, hinner⟩ := ih h
      exact ⟨field, List.mem_cons_of_mem _ hfield, hinner⟩

namespace Expression

variable {a b c : Bson}

theorem of_documents (h : b.isArray = false) (hnil : b.documents = []) : Expression b := by
  refine ⟨h, ?_⟩
  rw [hnil]
  exact List.forall_mem_nil _

theorem string (s : String) : Expression (.string s) := of_documents rfl rfl

theorem int32 (n : Int32) : Expression (.int32 n) := of_documents rfl rfl

theorem document {fields : Entries Bson} (hself : WellFormed fields)
    (h : ∀ field ∈ fields, ∀ inner ∈ field.2.documents, WellFormed inner) :
    Expression (.document fields) := by
  refine ⟨rfl, fun inner hinner => ?_⟩
  rw [Bson.documents, List.mem_cons] at hinner
  rcases hinner with rfl | hinner
  · exact hself
  · obtain ⟨field, hfield, hinner⟩ := mem_documentsOf hinner
    exact h field hfield inner hinner

theorem application {operator : String} {operands : Operands}
    (hoperator : operands? operator = some operands) (h : operands.admits b = true)
    (hdocuments : ∀ fields ∈ b.documents, WellFormed fields) : Expression (apply operator b) :=
  document (.application hoperator h) (by simpa using hdocuments)

theorem single {operator : String} (hoperator : operands? operator = some .single)
    (h : Expression b) : Expression (apply operator b) :=
  application hoperator (by rw [Operands.admits, h.isArray, Bool.not_false]) h.documents

theorem list {operator : String} {least : Nat} {most : Option Nat}
    (hoperator : operands? operator = some (.list least most)) {items : List Bson}
    (hleast : least ≤ items.length) (hmost : ∀ n, most = some n → items.length ≤ n)
    (h : ∀ b ∈ items, Expression b) : Expression (applyAll operator items) := by
  apply application hoperator
  · have hmost : most.all (items.length ≤ ·) = true := by
      cases most with
      | none => rfl
      | some n => simpa using hmost n rfl
    have hitems : items.all (!·.isArray) = true := by
      rw [List.all_eq_true]
      intro b hb
      rw [(h b hb).isArray, Bool.not_false]
    rw [Operands.admits, hmost, hitems, decide_eq_true hleast]
    rfl
  · intro fields hfields
    obtain ⟨b, hb, hfields⟩ := mem_documentsAmong.mp hfields
    exact (h b hb).documents fields hfields

theorem exactly {operator : String} {n : Nat}
    (hoperator : operands? operator = some (.list n (some n))) {items : List Bson}
    (hlength : items.length = n) (h : ∀ b ∈ items, Expression b) :
    Expression (applyAll operator items) :=
  list hoperator (Nat.le_of_eq hlength.symm) (by simp [hlength]) h

theorem pair {operator : String} (hoperator : operands? operator = some (.list 2 (some 2)))
    (ha : Expression a) (hb : Expression b) : Expression (applyAll operator [a, b]) :=
  exactly hoperator rfl (by simp [ha, hb])

theorem construction {fields : Entries Bson} (hne : fields ≠ [])
    (hkeys : ∀ key ∈ fields.keys, Literal.readsAsReference key = false)
    (h : ∀ field ∈ fields, Expression field.2) : Expression (.document fields) := by
  apply document
  · apply WellFormed.construction hne
    intro field hfield
    exact ⟨hkeys field.1 (List.mem_map_of_mem hfield), (h field hfield).isArray⟩
  · exact fun field hfield => (h field hfield).documents

theorem loop (kind : LoopKind) (binder : String) (hinput : Expression a) (hbody : Expression b) :
    Expression (kind.emit binder a b) := by
  have each {operator last : String} (hoperator : operands? operator = some (.loop last))
      (hlast : Literal.readsAsReference last = false) :
      Expression (apply operator
        (.document [("input", a), ("as", .string binder), (last, b)])) := by
    apply application hoperator
    · simp [hinput.isArray, hbody.isArray]
    · apply Expression.documents
      apply construction (List.cons_ne_nil _ _)
      · have hinput : Literal.readsAsReference "input" = false := by decide
        have has : Literal.readsAsReference "as" = false := by decide
        simp [Entries.keys, hinput, has, hlast]
      · simp [hinput, hbody, string]
  cases kind with
  | map => exact each rfl (by decide)
  | filter => exact each rfl (by decide)

theorem trim {operator : String} (hoperator : operands? operator = some .trimmed)
    (h : Expression a) : Expression (apply operator (.document [("input", a)])) := by
  apply application hoperator
  · simp [h.isArray]
  · apply Expression.documents
    apply construction (List.cons_ne_nil _ _)
    · have hinput : Literal.readsAsReference "input" = false := by decide
      simp [Entries.keys, hinput]
    · simpa using h

theorem trimChars {operator : String} (hoperator : operands? operator = some .trimmed)
    (ha : Expression a) (hb : Expression b) :
    Expression (apply operator (.document [("input", a), ("chars", b)])) := by
  apply application hoperator
  · simp [ha.isArray, hb.isArray]
  · apply Expression.documents
    apply construction (List.cons_ne_nil _ _)
    · have hinput : Literal.readsAsReference "input" = false := by decide
      have hchars : Literal.readsAsReference "chars" = false := by decide
      simp [Entries.keys, hinput, hchars]
    · simp [ha, hb]

theorem quote (h : Operands.quoted.admits b = true) : Expression (apply "$literal" b) := by
  refine ⟨rfl, fun fields hfields => ?_⟩
  have hself : fields = [("$literal", b)] := by
    simpa [apply, Bson.documents, documentsOf] using hfields
  rw [hself]
  exact .application rfl h

/-- The operands of an expression that applies an operator to a list of them are expressions, and
there are as many as the operator takes. -/
theorem of_applyAll {operator : String} {least : Nat} {most : Option Nat}
    (hoperator : operands? operator = some (.list least most))
    (hreads : Literal.readsAsReference operator = true) {items : List Bson}
    (h : Expression (applyAll operator items)) :
    least ≤ items.length ∧ ∀ b ∈ items, Expression b := by
  have hliteral : operator ≠ "$literal" := by
    rintro rfl
    cases hoperator
  have hself : WellFormed [(operator, .array items)] :=
    h.documents _ (by simp [applyAll, apply, Bson.documents])
  cases hself with
  | construction _ hfields =>
    have hkey := (hfields _ List.mem_cons_self).1
    rw [hreads] at hkey
    cases hkey
  | application hoperator' hadmits =>
    rw [hoperator, Option.some.injEq] at hoperator'
    subst hoperator'
    rw [Operands.admits, Bool.and_eq_true, Bool.and_eq_true, decide_eq_true_eq,
      List.all_eq_true] at hadmits
    refine ⟨hadmits.1.1, fun b hb => ⟨by simpa using hadmits.2 b hb, fun fields hfields => ?_⟩⟩
    apply h.documents
    have hmem : fields ∈ documentsAmong items := mem_documentsAmong.mpr ⟨b, hb, hfields⟩
    simp [applyAll, apply, Bson.documents, documentsOf, hliteral, hmem]

theorem operands?_operatorOn (op : BinaryOp) (ty : Ty) :
    operands? (op.operatorOn ty) = some (.list 2 (if op.flattens then none else some 2)) ∧
      Literal.readsAsReference (op.operatorOn ty) = true := by
  unfold BinaryOp.operatorOn
  split
  · rename_i hadd
    rw [Bool.and_eq_true, decide_eq_true_eq] at hadd
    rw [hadd.1]
    exact ⟨rfl, by decide⟩
  · cases op <;> exact ⟨rfl, by decide⟩

theorem binary (op : BinaryOp) (ty : Ty) (ha : Expression a) (hb : Expression b) :
    Expression (op.emit ty a b) := by
  obtain ⟨hoperator, hreads⟩ := operands?_operatorOn op ty
  rw [BinaryOp.emit_eq]
  cases hflattens : op.flattens with
  | false =>
    rw [hflattens] at hoperator
    exact pair hoperator ha hb
  | true =>
    rw [hflattens] at hoperator
    simp only [if_true] at hoperator ⊢
    cases hchained : a.chained? (op.operatorOn ty) with
    | none => exact list hoperator (Nat.le_refl 2) (by simp) (by simp [ha, hb])
    | some operands =>
      obtain ⟨hleast, hoperands⟩ := of_applyAll hoperator hreads (eq_of_chained? hchained ▸ ha)
      apply list hoperator
      · rw [List.length_append]
        omega
      · simp
      · intro x hx
        rcases List.mem_append.mp hx with hx | hx
        · exact hoperands x hx
        · rw [List.mem_singleton.mp hx]
          exact hb

theorem not (h : Expression b) : Expression (UnaryOp.not.emit b) := by
  have hoperator : operands? "$not" = some .negated := rfl
  cases b with
  | document fields =>
    apply application hoperator rfl
    intro inner hinner
    obtain ⟨x, hx, hinner⟩ := mem_documentsAmong.mp hinner
    rw [List.mem_singleton.mp hx] at hinner
    exact h.documents inner hinner
  | array => cases h.isArray
  | _ => exact application hoperator rfl h.documents

theorem unary (op : UnaryOp) (h : Expression b) : Expression (op.emit b) := by
  cases op with
  | not => exact h.not
  | convert => exact h
  | arrayLength => exact single rfl h

theorem emitShape {shape : Entries Bson}
    (hkeys : ∀ key ∈ shape.keys, Literal.readsAsReference key = false)
    (h : ∀ field ∈ shape, Expression field.2) : Expression (emitShape shape) := by
  unfold QueryStage.emitShape
  cases shape with
  | nil => exact quote rfl
  | cons field shape => exact construction (List.cons_ne_nil _ _) hkeys h

end Expression

end Bson

open Bson (Expression operands?)

theorem Literal.expression_of_lower {value : Literal} {ty : Ty} {b : Bson}
    (h : value.lower ty = .ok b) : Expression b := by
  cases value with
  | string s =>
    rw [lower, Except.ok.injEq] at h
    subst h
    split
    · rename_i hs
      exact .quote hs
    · exact .string s
  | comparison => cases h
  | _ => cases h; exact .of_documents rfl rfl

theorem AccumulatorFn.operands?_operator (fn : AccumulatorFn) :
    operands? fn.operator = some .single := by
  cases fn <;> rfl

theorem Ty.expression_of_computed? {unit : StringUnit} {ty : Ty} {name : String} {f : Bson → Bson}
    (hf : ty.computed? unit name = some f) {b : Bson} (h : Expression b) : Expression (f b) := by
  have hpart {f : Bson → Bson} (hf : datePart? name = some f) : Expression (f b) := by
    unfold datePart? at hf
    split at hf
    · cases hf
      exact .pair rfl (.single rfl h) (.int32 1)
    all_goals first | cases hf; exact .single rfl h | cases hf
  unfold computed? at hf
  split at hf
  · rename_i g hg
    cases hf
    split at hg
    · exact hpart hg
    · cases hg
  · split at hf
    all_goals
      repeat' split at hf
      all_goals first
        | cases hf; exact .single rfl h
        | cases hf; cases unit <;> exact .single rfl h
        | cases hf; exact h
        | cases hf

/-- The forms of a method make expressions of expressions. -/
structure SequenceMethod.Forms (m : SequenceMethod) : Prop where
  alone : ∀ f, m.alone = some f → ∀ a, Expression a → Expression (f a)
  each : ∀ kind f, m.each = some (kind, f) → ∀ a, Expression a → Expression (f a)
  pair : ∀ f, m.pair = some f → ∀ a b, Expression a → Expression b → Expression (f a b)

namespace SequenceMethod

variable {f g : Bson → Bson}

theorem forms_alone (hf : ∀ a, Expression a → Expression (f a)) : Forms { alone := some f } :=
  ⟨by simpa using hf, by simp, by simp⟩

theorem forms_each (kind : LoopKind) (hg : ∀ a, Expression a → Expression (g a)) :
    Forms { each := some (kind, g) } :=
  ⟨by simp, by simpa using hg, by simp⟩

theorem forms_both (kind : LoopKind) (hf : ∀ a, Expression a → Expression (f a))
    (hg : ∀ a, Expression a → Expression (g a)) :
    Forms { alone := some f, each := some (kind, g) } :=
  ⟨by simpa using hf, by simpa using hg, by simp⟩

theorem forms_pair {f : Bson → Bson → Bson}
    (hf : ∀ a b, Expression a → Expression b → Expression (f a b)) : Forms { pair := some f } :=
  ⟨by simp, by simp, by simpa using hf⟩

theorem forms_reduce {operator : String} (hoperator : operands? operator = some .single) :
    (reduce operator).Forms :=
  forms_both .map (fun _ h => .single hoperator h) fun _ h => .single hoperator h

theorem forms_count : count.Forms :=
  forms_both .filter (fun _ h => .single rfl h) fun _ h => .single rfl h

theorem forms_keep : keep.Forms := forms_alone fun _ h => h

theorem forms_combine {operator : String}
    (hoperator : operands? operator = some (.list 2 (some 2))) : (combine operator).Forms :=
  forms_pair fun _ _ ha hb => .pair hoperator ha hb

theorem forms_named (method : String) : (named method).Forms := by
  have elementAt (n : Int32) (a : Bson) (h : Expression a) : Expression (elementAt a (.int32 n)) :=
    .pair rfl h (.int32 n)
  have one {operator : String} (hoperator : operands? operator = some (.list 1 (some 1))) (a : Bson)
      (h : Expression a) : Expression (Bson.applyAll operator [a]) :=
    .list hoperator (Nat.le_refl 1) (by simp) (by simpa using h)
  have union : operands? "$setUnion" = some (.list 1 (some 2)) := rfl
  have notEmpty (a : Bson) (h : Expression a) :
      Expression (Bson.applyAll "$gt" [Bson.apply "$size" a, .int32 0]) :=
    .pair rfl (.single rfl h) (.int32 0)
  unfold named
  split
  · exact forms_each .map fun _ h => h
  · exact forms_each .filter fun _ h => h
  · exact forms_both .map notEmpty (one rfl)
  · exact forms_each .map (one rfl)
  · exact forms_count
  · exact forms_count
  · exact forms_combine rfl
  · exact forms_combine rfl
  · exact forms_pair fun a b ha hb => .list union (by simp) (by simp) (by simp [ha, hb])
  · exact forms_alone fun a h => .list union (by simp) (by simp) (by simpa using h)
  · exact forms_pair fun _ _ ha hb => .pair rfl hb ha
  · exact forms_both .filter (elementAt 0) (elementAt 0)
  · exact forms_alone (elementAt (-1))
  · exact forms_pair fun _ _ ha hb => .pair rfl ha hb
  · exact forms_pair fun _ _ ha hb => .pair rfl ha hb
  · exact forms_reduce rfl
  · exact forms_reduce rfl
  · exact forms_reduce rfl
  · exact forms_reduce rfl
  · exact forms_keep
  · exact forms_keep
  · exact forms_keep
  · exact ⟨by simp, by simp, by simp⟩

end SequenceMethod

theorem Loop.expression_of_emit {l : Loop} (hbody : Ensures Expression l.body) (kind : LoopKind)
    {source : Lowered} (hsource : Ensures Expression source) :
    Ensures Expression (l.emit kind source) := by
  have hiterate : Ensures Expression (l.iterate kind source) := by
    unfold iterate
    cases l.binder with
    | error fault => exact .error fault
    | ok binder =>
      exact hbody.bind fun _ hbody => hsource.bind fun _ hinput =>
        .ok (.loop kind binder hinput hbody)
  rw [emit_eq]
  split
  · exact .ok (.string _)
  · exact hsource
  · exact hiterate

theorem SequenceMethod.Forms.emit {m : SequenceMethod} (hm : m.Forms) (unsupported : Fault)
    {source : Lowered} (hsource : Ensures Expression source) {loop : Option Loop}
    (hloop : ∀ l, loop = some l → Ensures Expression l.body) {operands : List Lowered}
    (hoperands : ∀ x ∈ operands, Ensures Expression x) :
    Ensures Expression (m.emit unsupported source loop operands) := by
  rcases operands with _ | ⟨operand, _ | ⟨next, rest⟩⟩
  · simp only [SequenceMethod.emit]
    split
    · rename_i f hf
      exact hsource.bind fun a ha => .ok (hm.alone f hf a ha)
    · exact .error _
  · simp only [SequenceMethod.emit]
    split
    · rename_i l kind f heach
      exact (Loop.expression_of_emit (hloop l rfl) kind hsource).bind fun a ha =>
        .ok (hm.each kind f heach a ha)
    · split
      · rename_i f hf
        exact hsource.bind fun a ha => (hoperands operand List.mem_cons_self).bind fun b hb =>
          .ok (hm.pair f hf a b ha hb)
      · exact .error _
  · exact .error _

namespace MethodCall

/-- A call whose operands are lowered to expressions, with a receiver as its family expects it:
numeric functions have none, and methods of collections have one. -/
structure Regular (c : MethodCall) : Prop where
  operands : ∀ x ∈ c.operands, Ensures Expression x
  body : ∀ l, c.loop = some l → Ensures Expression l.body
  math : MethodFamily.of c.declaring = .math → c.receiver = none
  collection : MethodFamily.of c.declaring = .collection → c.receiver.isSome = true

variable {c : MethodCall}

theorem length_operands (c : MethodCall) :
    c.operands.length = c.args.length + if c.receiver.isSome then 1 else 0 := by
  cases hreceiver : c.receiver <;> simp [operands, hreceiver]

theorem expressions_of_lowered {xs : List Lowered} (h : ∀ x ∈ xs, Ensures Expression x) :
    Ensures (fun bs => bs.length = xs.length ∧ ∀ b ∈ bs, Expression b) (xs.mapM id) := by
  intro bs hbs
  have hlength := (mapM_eq_ok_iff.mp hbs).length_eq
  exact ⟨hlength.symm, Ensures.mapM h bs hbs⟩

theorem expression_spread {operator : String} {bs : List Bson} (h : ∀ b ∈ bs, Expression b)
    (hoperator : bs.length = 1 ∧ operands? operator = some .single ∨
      2 ≤ bs.length ∧ ∃ most, operands? operator = some (.list 2 most) ∧
        ∀ n, most = some n → bs.length ≤ n) : Expression (spread operator bs) := by
  rcases bs with _ | ⟨a, _ | ⟨b, bs⟩⟩
  · simp at hoperator
  · rcases hoperator with ⟨-, hoperator⟩ | ⟨hlength, -⟩
    · exact .single hoperator (h a List.mem_cons_self)
    · simp at hlength
  · rcases hoperator with ⟨hlength, -⟩ | ⟨hlength, most, hoperator, hmost⟩
    · simp at hlength
    · exact .list hoperator hlength hmost h

theorem expression_general (hc : c.Regular) : Ensures Expression c.lowerGeneral := by
  have htwo {operator : String} (hoperator : operands? operator = some (.list 2 (some 2)))
      (hreceiver : c.receiver.isSome = true) (hargs : c.args.length = 1) :
      Ensures Expression (do return Bson.applyAll operator (← c.lowered)) := by
    refine (expressions_of_lowered hc.operands).bind fun bs hbs => .ok ?_
    have hlength : bs.length = 2 := by rw [hbs.1, length_operands, hreceiver, hargs]; rfl
    exact .exactly hoperator hlength hbs.2
  unfold lowerGeneral
  split
  · exact htwo rfl ‹_› ‹_›
  · exact htwo rfl ‹_› ‹_›
  · exact .error _

theorem expression_collection (hc : c.Regular)
    (hfamily : MethodFamily.of c.declaring = .collection) :
    Ensures Expression c.lowerCollection := by
  have hreceiver := hc.collection hfamily
  have hlowered (hargs : c.args.length = 1) :
      Ensures (fun bs => bs.length = 2 ∧ ∀ b ∈ bs, Expression b) c.lowered := by
    intro bs hbs
    obtain ⟨hlength, hbs⟩ := expressions_of_lowered hc.operands bs hbs
    rw [length_operands, hreceiver, hargs] at hlength
    exact ⟨hlength, hbs⟩
  unfold lowerCollection
  split
  · exact (hlowered ‹_›).bind fun bs hbs => .ok (.exactly rfl hbs.1 hbs.2)
  · exact (hlowered ‹_›).bind fun bs hbs => .ok (.exactly rfl hbs.1 hbs.2)
  · refine (hlowered ‹_›).bind fun bs hbs => .ok (.exactly rfl ?_ ?_)
    · rw [List.length_reverse, hbs.1]
    · simpa using hbs.2
  · exact expression_general hc

theorem operands?_mathOperator? {method operator : String} {n : Nat}
    (h : mathOperator? method n = some operator) :
    n = 1 ∧ operands? operator = some .single ∨
      n = 2 ∧ operands? operator = some (.list 2 (some 2)) := by
  unfold mathOperator? at h
  split at h
  all_goals first
    | cases h; exact .inl ⟨rfl, rfl⟩
    | cases h; exact .inr ⟨rfl, rfl⟩
    | cases h

theorem expression_math (hc : c.Regular) (hfamily : MethodFamily.of c.declaring = .math) :
    Ensures Expression c.lowerMath := by
  unfold lowerMath
  split
  · rename_i operator hoperator
    refine (expressions_of_lowered hc.operands).bind fun bs hbs => .ok ?_
    have hlength : bs.length = c.args.length := by
      rw [hbs.1, length_operands, hc.math hfamily]
      rfl
    apply expression_spread hbs.2
    rw [hlength]
    rcases operands?_mathOperator? hoperator with h | ⟨hn, hoperands⟩
    · exact .inl h
    · exact .inr ⟨Nat.le_of_eq hn.symm, some 2, hoperands, by simp [hn]⟩
  · exact .error _

theorem expression_function (hc : c.Regular) {operator : String} {arity : Nat}
    (hoperator : arity = 1 ∧ operands? operator = some .single ∨
      2 ≤ arity ∧ ∃ most, operands? operator = some (.list 2 most) ∧
        ∀ n, most = some n → arity ≤ n) :
    Ensures Expression (c.lowerFunction operator arity) := by
  refine (expressions_of_lowered hc.operands).bind fun bs hbs => ?_
  split
  · rename_i hlength
    exact .ok (expression_spread hbs.2 (hlength ▸ hoperator))
  · exact .error _

theorem expression_substring (hc : c.Regular) (unit : StringUnit) :
    Ensures Expression (c.lowerSubstring unit) := by
  have hoperator : operands? unit.substringOperator = some (.list 3 (some 3)) := by
    cases unit <;> rfl
  refine (expressions_of_lowered hc.operands).bind fun bs hbs => ?_
  have hbs := hbs.2
  split
  · exact .ok (.exactly hoperator rfl (by simpa [Expression.int32] using hbs))
  · exact .ok (.exactly hoperator rfl hbs)
  · exact .error _

theorem expression_trim (hc : c.Regular) {operator : String}
    (hoperator : operands? operator = some .trimmed) :
    Ensures Expression (c.lowerTrim operator) := by
  refine (expressions_of_lowered hc.operands).bind fun bs hbs => ?_
  have hbs := hbs.2
  split
  · exact .ok (.trim hoperator (hbs _ (by simp)))
  · exact .ok (.trimChars hoperator (hbs _ (by simp)) (hbs _ (by simp)))
  · exact .error _

theorem expression_stringEquals (hc : c.Regular) : Ensures Expression c.lowerStringEquals := by
  have hcompare (comparison : StringComparison) (hlength : 2 ≤ c.operands.length) :
      Ensures Expression (lowerStringEquals.compareAs c comparison) := by
    have htwo : Ensures (fun bs => bs.length = (c.operands.take 2).length ∧ _)
        ((c.operands.take 2).mapM id) :=
      expressions_of_lowered fun x hx => hc.operands x (List.mem_of_mem_take hx)
    rw [List.length_take, Nat.min_eq_left hlength] at htwo
    unfold lowerStringEquals.compareAs
    split
    · exact htwo.bind fun bs hbs => .ok (.exactly rfl hbs.1 hbs.2)
    · exact htwo.bind fun bs hbs => .ok (.pair rfl (.exactly rfl hbs.1 hbs.2) (.int32 0))
    · exact .error _
  unfold lowerStringEquals
  split
  · exact hcompare _ (by omega)
  · exact hcompare _ (by omega)
  · exact .error _

theorem expression_string (hc : c.Regular) (unit : StringUnit) :
    Ensures Expression (c.lowerString unit) := by
  have hsingle {operator : String} (hoperator : operands? operator = some .single) :
      Ensures Expression (c.lowerFunction operator 1) :=
    expression_function hc (.inl ⟨rfl, hoperator⟩)
  have hindex : operands? unit.indexOperator = some (.list 2 (some 3)) := by cases unit <;> rfl
  unfold lowerString
  split
  · exact expression_substring hc unit
  · exact hsingle rfl
  · exact hsingle rfl
  · exact hsingle rfl
  · exact hsingle rfl
  · exact expression_stringEquals hc
  · split
    · rename_i hargs
      rw [Bool.or_eq_true, decide_eq_true_eq, decide_eq_true_eq] at hargs
      refine expression_function hc (.inr ⟨by omega, some 3, hindex, ?_⟩)
      rintro n ⟨⟩
      omega
    · exact expression_general hc
  · exact expression_function hc (.inr ⟨Nat.le_refl 2, some 2, rfl, by simp⟩)
  · exact expression_trim hc rfl
  · exact expression_trim hc rfl
  · exact expression_trim hc rfl
  · exact expression_general hc

theorem expression_sequence (hc : c.Regular) : Ensures Expression c.lowerSequence := by
  have hargs (x : Lowered) (hx : x ∈ c.args) : Ensures Expression x :=
    hc.operands x (List.mem_append_right _ hx)
  unfold lowerSequence
  split
  · exact .error _
  · rename_i source operands hsplit
    rw [hsplit] at hargs
    split
    · exact .error _
    · exact (SequenceMethod.forms_named c.method).emit _ (hargs source List.mem_cons_self) hc.body
        fun x hx => hargs x (List.mem_cons_of_mem _ hx)

theorem expression_lower (hc : c.Regular) (unit : StringUnit) :
    Ensures Expression (c.lower unit) := by
  unfold lower
  split
  · exact expression_sequence hc
  · exact expression_math hc ‹_›
  · exact expression_string hc unit
  · exact expression_collection hc ‹_›
  · exact expression_general hc

end MethodCall

namespace Expr

/-- Numeric functions have no receiver, methods of arrays and sets have one, also those of optional
collections, and the names of a construction are no operators. Sequence methods may have a receiver,
which is not lowered. -/
def isRegular : Expr → Bool
  | call receiver _ declaring _ _ =>
    match MethodFamily.of declaring with
    | .math => receiver.isNone
    | .collection => receiver.isSome
    | _ => true
  | construct _ parameters _ _ => parameters.all (!Literal.readsAsReference ·)
  | _ => true

def Regular (e : Expr) : Prop := e.All fun n => n.isRegular = true

instance (e : Expr) : Decidable e.Regular :=
  inferInstanceAs (Decidable (∀ n ∈ e.nodes, n.isRegular = true))

theorem expression_construct {unit : StringUnit} {paths : Path → Path} {ty : Ty}
    {parameters : List String} {args : List Expr} {members : Option (List String)}
    (hnames : parameters.all (!Literal.readsAsReference ·) = true)
    (hargs : ∀ a ∈ args, Ensures Expression (a.lower unit paths)) :
    Ensures Expression ((construct ty parameters args members).lower unit paths) := by
  intro b hb
  obtain ⟨shape, hshape, rfl⟩ := lower_construct_cases hb
  apply Bson.Expression.emitShape
  · intro key hkey
    rw [keys_of_shapeOf hshape, List.mem_eraseDups] at hkey
    simpa using List.all_eq_true.mp hnames key hkey
  · refine ensures_shapeOf ty parameters (fun x hx => ?_) shape hshape
    obtain ⟨a, ha, rfl⟩ := List.mem_map.mp hx
    exact hargs a ha

/-- A call with regular parts is seen by its method as a regular one. -/
theorem regular_call {unit : StringUnit} {paths : Path → Path} {receiver : Option Expr}
    {method : String} {declaring ty : Ty} {args : List Expr}
    (hself : (call receiver method declaring args ty).isRegular = true)
    (hreceiver : ∀ e, receiver = some e → Ensures Expression (e.lower unit paths))
    (hargs : ∀ a ∈ args, Ensures Expression (a.lower unit paths))
    (hbody : ∀ params body, lambda ⟨params, body⟩ ∈ args →
      ∀ paths, Ensures Expression (body.lower unit paths)) :
    MethodCall.Regular
      { method, declaring
        receiver := lowerReceiver unit paths receiver
        args := lowerEach unit paths args
        comparison := args.getLast?.bind comparison?
        overGroup := args.head?.any overGroup
        loop := lowerLoop unit paths args } where
  operands := by
    intro x hx
    rcases List.mem_append.mp hx with hx | hx
    · rw [lowerReceiver_eq_map, Option.mem_toList, Option.map_eq_some_iff] at hx
      obtain ⟨e, he, rfl⟩ := hx
      exact hreceiver e he
    · rw [lowerEach_eq_map] at hx
      obtain ⟨a, ha, rfl⟩ := List.mem_map.mp hx
      exact hargs a ha
  body := by
    intro l hl
    obtain ⟨source, params, body, rfl, hlower, -⟩ := lowerLoop_cases hl
    rw [hlower]
    exact hbody params body (by simp) _
  math := by
    intro hfamily
    rw [isRegular, hfamily] at hself
    rw [lowerReceiver_eq_map, Option.isNone_iff_eq_none.mp hself, Option.map_none]
  collection := by
    intro hfamily
    rw [isRegular, hfamily] at hself
    rw [lowerReceiver_eq_map, Option.isSome_map]
    exact hself

theorem expression_of_lower (unit : StringUnit) {e : Expr} (he : e.Regular) :
    ∀ paths, Ensures Expression (e.lower unit paths) := by
  induction e with
  | literal value ty => exact fun _ _ h => Literal.expression_of_lower h
  | parameter p => exact fun _ => .error _
  | member target name declaring ty ih =>
    intro paths
    have htarget := ih (he.part (by simp [parts])) paths
    rw [lower]
    split
    · rename_i f hf
      exact htarget.bind fun b hb => .ok (Ty.expression_of_computed? hf hb)
    · exact .error _
  | binary op left right ty ihl ihr =>
    intro paths
    have hleft := ihl (he.part (by simp [parts])) paths
    have hright := ihr (he.part (by simp [parts])) paths
    exact hleft.bind fun a ha => hright.bind fun b hb => .ok (ha.binary op _ hb)
  | unary op operand ty ih =>
    intro paths
    have hoperand := ih (he.part (by simp [parts])) paths
    exact hoperand.bind fun b hb => .ok (hb.unary op)
  | conditional test ifTrue ifFalse ty iht iha ihb =>
    intro paths
    have htest := iht (he.part (by simp [parts])) paths
    have hthen := iha (he.part (by simp [parts])) paths
    have helse := ihb (he.part (by simp [parts])) paths
    exact htest.bind fun t ht => hthen.bind fun a ha => helse.bind fun b hb =>
      .ok (.exactly rfl rfl (by simp [ht, ha, hb]))
  | call receiver method declaring args ty ihr iha ihb =>
    intro paths
    have harg (a : Expr) (ha : a ∈ args) : a.Regular := he.part (by simp [parts, ha])
    have hself : (call receiver method declaring args ty).isRegular = true := he.self
    rw [lower]
    refine MethodCall.expression_lower (regular_call hself ?_ ?_ ?_) unit
    · exact fun e hreceiver => ihr e hreceiver (he.part (by simp [parts, hreceiver])) paths
    · exact fun a ha => iha a ha (harg a ha) paths
    · exact fun params body hmem => ihb params body hmem ((harg _ hmem).part (by simp [parts]))
  | lambda params body ih => exact fun _ => .error _
  | construct ty parameters args members ih =>
    intro paths
    exact expression_construct he.self fun a ha => ih a ha (he.part (by simp [parts, ha])) paths
  | accumulate fn source selector ty ihs ihb =>
    intro paths
    rcases selector with _ | ⟨params, body⟩
    · have hsource := ihs (he.part (by simp [parts])) paths
      exact hsource.bind fun b hb => .ok (.single fn.operands?_operator hb)
    · have hbody := ihb params body rfl (he.part (by simp [parts])) paths
      exact hbody.bind fun b hb => .ok (.single fn.operands?_operator hb)
  | field path decoder ty => exact fun _ => .ok (.string _)
  | document inner path decoder ih =>
    intro paths
    cases path with
    | some path => exact .ok (.string _)
    | none =>
      rw [lower]
      split
      · exact .ok (.string _)
      · exact ih (he.part (by simp [parts])) paths

/-- What is lowered from an expression with regular calls and names is no list, and every document
in it constructs a value or applies a known operator to what this operator takes. -/
theorem lower_emits_wellFormed (unit : StringUnit) (paths : Path → Path) {e : Expr}
    (he : e.Regular) {b : Bson} (h : e.lower unit paths = .ok b) :
    b.isArray = false ∧ ∀ fields ∈ b.documents, Bson.WellFormed fields := by
  have hb := expression_of_lower unit he paths b h
  exact ⟨hb.isArray, hb.documents⟩

end Expr

namespace Orders

open QueryStage.Expr

def boundCity : Expr := field ⟨["home", "city"]⟩ (.value .string) .string

def boundItems : Expr :=
  field ⟨["items"]⟩ (.array (.document item)) (.array (.record "Item"))

/-- A bound shape with a chain of texts, a loop with a negated test, and a quoted shape. -/
def overview : Expr :=
  named (.record "Overview")
    [("Label", binary .add
        (binary .add boundCity (ofLiteral (.string "$")) .string)
        (instanceCall boundCity "Substring" [ofLiteral (.int32 1)] .string) .string),
      ("Name", instanceCall boundCity "Trim" [] .string),
      ("Small", sequenceCall "Where" boundItems
        [lambda ⟨[ofItem "i"], unary .not
          (binary .greaterThan (field ⟨["items", "qty"]⟩ (.value .int32) .int32)
            (ofLiteral (.int32 9)) .boolean) .boolean⟩] (.array (.record "Item"))),
      ("None", named (.record "None") [])]

theorem overview_wellFormed : overview.Regular ∧
    ∃ b, overview.lower .codePoints id = .ok b ∧ b.documents.length = 11 ∧
      b.isArray = false ∧ ∀ fields ∈ b.documents, Bson.WellFormed fields := by
  have hregular : overview.Regular := by decide
  exact ⟨hregular, _, rfl, rfl, lower_emits_wellFormed .codePoints id hregular rfl⟩

/-- Membership of a quantity, declared on an optional array and called without a receiver. -/
def strayContains : Expr :=
  call none "Contains" (.nullable (.array .int32))
    [field ⟨["qty"]⟩ (.value .int32) .int32] .boolean

/-- The receiver is needed on an optional collection too: without it membership, which takes two
operands, is applied to one. -/
theorem strayContains_malformed :
    strayContains.lower .codePoints id = .ok (Bson.applyAll "$in" [.string "$qty"]) ∧
      Bson.operands? "$in" = some (.list 2 (some 2)) ∧
      ¬ Bson.WellFormed [("$in", .array [.string "$qty"])] := by
  refine ⟨rfl, rfl, fun h => ?_⟩
  cases h with
  | construction _ hfields =>
    have hkey := (hfields _ (List.mem_singleton_self _)).1
    revert hkey
    decide
  | application hoperator hadmits =>
    cases hoperator
    cases hadmits

end Orders

end QueryStage
