import QueryStage.Proofs.Nodes
import QueryStage.Proofs.Outcome

/-!
# References in stages

The references that an aggregation expression makes to fields of the current document. Lowering
makes none but those of the bound paths: operators, methods and constructions only put together
what their operands read.
-/

namespace QueryStage

/-- A text that refers to a field: it starts with one dollar sign, and a variable with two. -/
def isFieldReference (s : String) : Bool :=
  match s.toList with
  | '$' :: '$' :: _ => false
  | '$' :: _ => true
  | _ => false

namespace Bson

/-- The operators whose argument names a variable under `as`. -/
def bindsVariable (operator : String) : Bool := operator = "$map" || operator = "$filter"

mutual

/-- References to fields in the argument of an operator, which binds a variable or does not. What is
quoted is no reference, and the name of a variable is none. -/
def referencesUnder (binds : Bool) : Bson → List String
  | string s => if isFieldReference s then [s] else []
  | array items => referencesAmong items
  | document fields => referencesOf binds fields
  | _ => []

def referencesAmong : List Bson → List String
  | [] => []
  | b :: bs => b.referencesUnder false ++ referencesAmong bs

def referencesOf (binds : Bool) : List (String × Bson) → List String
  | [] => []
  | (key, b) :: fields =>
    (if key = "$literal" || binds && key = "as" then []
      else b.referencesUnder (bindsVariable key)) ++ referencesOf binds fields

end

/-- The references of an expression to fields of the current document. -/
def fieldReferences (b : Bson) : List String := b.referencesUnder false

/-- All references of an expression to fields have the property. -/
def Refers (S : String → Prop) (b : Bson) : Prop := ∀ ref ∈ b.fieldReferences, S ref

variable {S : String → Prop}

theorem mem_referencesAmong {ref : String} {items : List Bson} :
    ref ∈ referencesAmong items ↔ ∃ b ∈ items, ref ∈ b.fieldReferences := by
  induction items with
  | nil => simp [referencesAmong]
  | cons b bs ih => simp [referencesAmong, fieldReferences, ih]

private theorem referencesOf_subset {binds : Bool} {ref : String} {fields : List (String × Bson)}
    (h : ref ∈ referencesOf binds fields) : ref ∈ referencesOf false fields := by
  induction fields with
  | nil => cases h
  | cons field fields ih =>
    obtain ⟨key, b⟩ := field
    rw [referencesOf, List.mem_append] at h ⊢
    refine h.imp (fun h => ?_) ih
    by_cases hkey : key = "$literal"
    · simp [hkey] at h
    · split at h
      · cases h
      · simpa [hkey] using h

theorem mem_fieldReferences_of_under {binds : Bool} {ref : String} {b : Bson}
    (h : ref ∈ b.referencesUnder binds) : ref ∈ b.fieldReferences := by
  cases b with
  | document fields => exact referencesOf_subset h
  | _ => exact h

theorem mem_referencesOf {binds : Bool} {ref : String} {fields : List (String × Bson)}
    (h : ref ∈ referencesOf binds fields) : ∃ field ∈ fields, ref ∈ field.2.fieldReferences := by
  induction fields with
  | nil => cases h
  | cons field fields ih =>
    obtain ⟨key, b⟩ := field
    rw [referencesOf, List.mem_append] at h
    rcases h with h | h
    · split at h
      · cases h
      · exact ⟨(key, b), by simp, mem_fieldReferences_of_under h⟩
    · obtain ⟨field, hfield, href⟩ := ih h
      exact ⟨field, List.mem_cons_of_mem _ hfield, href⟩

@[simp] theorem refers_array {items : List Bson} :
    (array items).Refers S ↔ ∀ b ∈ items, b.Refers S := by
  constructor
  · intro h b hb ref href
    exact h ref (mem_referencesAmong.mpr ⟨b, hb, href⟩)
  · intro h ref href
    obtain ⟨b, hb, href⟩ := mem_referencesAmong.mp href
    exact h b hb ref href

theorem refers_document {fields : List (String × Bson)} (h : ∀ field ∈ fields, field.2.Refers S) :
    (document fields).Refers S := by
  intro ref href
  obtain ⟨field, hfield, href⟩ := mem_referencesOf href
  exact h field hfield ref href

@[simp] theorem refers_apply (operator : String) {b : Bson} (h : b.Refers S) :
    (apply operator b).Refers S :=
  refers_document (by simpa using h)

@[simp] theorem refers_applyAll (operator : String) {operands : List Bson}
    (h : ∀ b ∈ operands, b.Refers S) : (applyAll operator operands).Refers S :=
  refers_apply operator (refers_array.mpr h)

@[simp] theorem refers_literal (b : Bson) : (apply "$literal" b).Refers S := by
  intro ref href
  cases href

@[simp] theorem refers_int32 (n : Int32) : (int32 n).Refers S := nofun

theorem refers_of_applyAll {operator : String} (hliteral : operator ≠ "$literal")
    {operands : List Bson} (h : (applyAll operator operands).Refers S) :
    ∀ b ∈ operands, b.Refers S := by
  intro b hb ref href
  refine h ref ?_
  have hmem : ref ∈ referencesAmong operands := mem_referencesAmong.mpr ⟨b, hb, href⟩
  simpa [fieldReferences, applyAll, apply, referencesUnder, referencesOf, hliteral] using hmem

theorem refers_loop (kind : LoopKind) (binder : String) {input body : Bson}
    (hinput : input.Refers S) (hbody : body.Refers S) : (kind.emit binder input body).Refers S := by
  intro ref href
  cases kind with
  | map =>
    simp [LoopKind.emit, fieldReferences, apply, referencesUnder, referencesOf, bindsVariable]
      at href
    exact href.elim (hinput ref) (hbody ref)
  | filter =>
    simp [LoopKind.emit, fieldReferences, apply, referencesUnder, referencesOf, bindsVariable]
      at href
    exact href.elim (hinput ref) (hbody ref)

end Bson

/-- Whatever a lowering emits refers only to fields with the property. -/
abbrev Lowers (S : String → Prop) (x : Lowered) : Prop := Ensures (Bson.Refers S) x

open Bson

variable {S : String → Prop}

theorem lowers_literal (v : Literal) (ty : Ty) : Lowers S (v.lower ty) := by
  cases v with
  | string s =>
    refine .ok ?_
    split
    · exact refers_literal _
    · rename_i hs
      intro ref href
      have hplain : isFieldReference s = false := by
        unfold isFieldReference
        split <;> simp_all [Literal.readsAsReference]
      simp [fieldReferences, referencesUnder, hplain] at href
  | comparison c => exact .error _
  | _ => exact .ok nofun

theorem BinaryOp.operatorOn_ne_literal (op : BinaryOp) (ty : Ty) :
    op.operatorOn ty ≠ "$literal" := by
  unfold operatorOn
  split
  · decide
  · cases op <;> decide

theorem BinaryOp.refers_emit (op : BinaryOp) (ty : Ty) {left right : Bson}
    (hleft : left.Refers S) (hright : right.Refers S) : (op.emit ty left right).Refers S := by
  have hpair : (applyAll (op.operatorOn ty) [left, right]).Refers S :=
    refers_applyAll _ (by simp [hleft, hright])
  unfold emit
  dsimp only
  split
  · rename_i key operands
    split
    · rename_i hflatten
      have hkey : key = op.operatorOn ty := by simp_all
      subst hkey
      have hoperands := refers_of_applyAll (op.operatorOn_ne_literal ty) hleft
      refine refers_applyAll _ fun b hb => ?_
      rcases List.mem_append.mp hb with hb | hb
      · exact hoperands b hb
      · exact List.mem_singleton.mp hb ▸ hright
    · exact hpair
  · exact hpair

theorem UnaryOp.refers_emit (op : UnaryOp) {operand : Bson} (h : operand.Refers S) :
    (op.emit operand).Refers S := by
  unfold emit
  split
  · exact refers_applyAll _ (by simpa using h)
  · exact refers_apply _ h
  · exact h
  · exact refers_apply _ h

theorem Ty.refers_computed? {unit : StringUnit} {ty : Ty} {name : String} {f : Bson → Bson}
    (hf : ty.computed? unit name = some f) {b : Bson} (h : b.Refers S) : (f b).Refers S := by
  have hpart {f : Bson → Bson} (hf : Ty.datePart? name = some f) : (f b).Refers S := by
    unfold Ty.datePart? at hf
    split at hf <;> cases hf <;> simp [h]
  unfold Ty.computed? at hf
  split at hf
  · rename_i g hg
    cases hf
    split at hg
    · exact hpart hg
    · cases hg
  · split at hf
    all_goals
      repeat' split at hf
      all_goals cases hf
      all_goals simp [h]

/-- The forms of a method read no more than their operands. -/
structure SequenceMethod.Composes (S : String → Prop) (m : SequenceMethod) : Prop where
  alone : ∀ f, m.alone = some f → ∀ b : Bson, b.Refers S → (f b).Refers S
  each : ∀ kind f, m.each = some (kind, f) → ∀ b : Bson, b.Refers S → (f b).Refers S
  pair : ∀ f, m.pair = some f → ∀ a b : Bson, a.Refers S → b.Refers S → (f a b).Refers S

theorem SequenceMethod.composes_named (S : String → Prop) (method : String) :
    (named method).Composes S := by
  unfold named
  split <;> constructor <;> simp +contextual [count, combine, reduce, keep, elementAt]

/-- What a loop reads: in its body, or through the selection that stands for the loop. -/
structure Loop.Reads (S : String → Prop) (l : Loop) : Prop where
  body : Lowers S l.body
  selection : ∀ reference, l.selection = some (.field reference) → (string reference).Refers S

theorem Loop.lowers_emit {l : Loop} (hl : l.Reads S) (kind : LoopKind) {source : Lowered}
    (hsource : Lowers S source) : Lowers S (l.emit kind source) := by
  unfold emit
  split
  · rename_i reference hselection
    exact .ok (hl.selection reference hselection)
  · exact hsource
  · have hbinder : Ensures (fun _ => True) l.binder := fun _ _ => trivial
    refine hbinder.bind fun binder _ => hl.body.bind fun body hbody => ?_
    exact hsource.bind fun input hinput => .ok (refers_loop _ _ hinput hbody)

theorem SequenceMethod.lowers_emit {m : SequenceMethod} (hm : m.Composes S) (unsupported : Fault)
    {source : Lowered} (hsource : Lowers S source) {loop : Option Loop}
    (hloop : ∀ l, loop = some l → l.Reads S) {operands : List Lowered}
    (hoperands : ∀ x ∈ operands, Lowers S x) :
    Lowers S (m.emit unsupported source loop operands) := by
  unfold emit
  split
  · split
    · rename_i f hf
      exact hsource.bind fun b hb => .ok (hm.alone f hf b hb)
    · exact .error _
  · rename_i operand
    split
    · rename_i l kind f hf
      exact (l.lowers_emit (hloop l rfl) kind hsource).bind fun b hb => .ok (hm.each kind f hf b hb)
    · split
      · rename_i f hf
        refine hsource.bind fun a ha => (hoperands operand (by simp)).bind fun b hb => ?_
        exact .ok (hm.pair f hf a b ha hb)
      · exact .error _
  · exact .error _

namespace MethodCall

/-- What a call reads: in its operands, and in the loop that it may make. -/
structure Reads (S : String → Prop) (c : MethodCall) : Prop where
  receiver : ∀ x, c.receiver = some x → Lowers S x
  args : ∀ x ∈ c.args, Lowers S x
  loop : ∀ l, c.loop = some l → l.Reads S

variable {c : MethodCall}

theorem Reads.operands (h : c.Reads S) : ∀ x ∈ c.operands, Lowers S x := by
  intro x hx
  rcases List.mem_append.mp hx with hx | hx
  · exact h.receiver x (Option.mem_toList.mp hx)
  · exact h.args x hx

theorem Reads.lowered (h : c.Reads S) : Ensures (fun bs => ∀ b ∈ bs, b.Refers S) c.lowered :=
  .mapM h.operands

theorem refers_spread (operator : String) {operands : List Bson}
    (h : ∀ b ∈ operands, b.Refers S) : (spread operator operands).Refers S := by
  unfold spread
  split
  · exact refers_apply _ (h _ (by simp))
  · exact refers_applyAll _ h

theorem lowers_general (h : c.Reads S) : Lowers S c.lowerGeneral := by
  unfold lowerGeneral
  split
  · exact h.lowered.bind fun bs hbs => .ok (refers_applyAll _ hbs)
  · exact h.lowered.bind fun bs hbs => .ok (refers_applyAll _ hbs)
  · exact .error _

theorem lowers_math (h : c.Reads S) : Lowers S c.lowerMath := by
  unfold lowerMath
  split
  · exact h.lowered.bind fun bs hbs => .ok (refers_spread _ hbs)
  · exact .error _

theorem lowers_collection (h : c.Reads S) : Lowers S c.lowerCollection := by
  unfold lowerCollection
  split
  · exact h.lowered.bind fun bs hbs => .ok (refers_applyAll _ hbs)
  · exact h.lowered.bind fun bs hbs => .ok (refers_applyAll _ hbs)
  · exact h.lowered.bind fun bs hbs => .ok (refers_applyAll _ (by simpa using hbs))
  · exact lowers_general h

theorem lowers_function (h : c.Reads S) (operator : String) (arity : Nat) :
    Lowers S (c.lowerFunction operator arity) := by
  refine h.lowered.bind fun bs hbs => ?_
  split
  · exact .ok (refers_spread _ hbs)
  · exact .error _

theorem lowers_substring (h : c.Reads S) (unit : StringUnit) :
    Lowers S (c.lowerSubstring unit) := by
  refine h.lowered.bind fun bs hbs => ?_
  split
  · exact .ok (refers_applyAll _ (by simp_all))
  · exact .ok (refers_applyAll _ hbs)
  · exact .error _

theorem lowers_trim (h : c.Reads S) (operator : String) : Lowers S (c.lowerTrim operator) := by
  refine h.lowered.bind fun bs hbs => ?_
  split
  · exact .ok (refers_apply _ (refers_document (by simp_all)))
  · exact .ok (refers_apply _ (refers_document (by simp_all)))
  · exact .error _

theorem lowers_stringEquals (h : c.Reads S) : Lowers S c.lowerStringEquals := by
  have htwo : Ensures (fun bs => ∀ b ∈ bs, b.Refers S) ((c.operands.take 2).mapM id) :=
    .mapM fun x hx => h.operands x (List.mem_of_mem_take hx)
  have compareAs (comparison : StringComparison) :
      Lowers S (lowerStringEquals.compareAs c comparison) := by
    unfold lowerStringEquals.compareAs
    split
    · exact htwo.bind fun bs hbs => .ok (refers_applyAll _ hbs)
    · exact htwo.bind fun bs hbs => .ok (refers_applyAll _ (by simp_all))
    · exact .error _
  unfold lowerStringEquals
  split
  · exact compareAs _
  · exact compareAs _
  · exact .error _

theorem lowers_string (h : c.Reads S) (unit : StringUnit) : Lowers S (c.lowerString unit) := by
  unfold lowerString
  split
  · exact lowers_substring h unit
  · exact lowers_function h _ _
  · exact lowers_function h _ _
  · exact lowers_function h _ _
  · exact lowers_function h _ _
  · exact lowers_stringEquals h
  · split
    · exact lowers_function h _ _
    · exact lowers_general h
  · exact lowers_function h _ _
  · exact lowers_trim h _
  · exact lowers_trim h _
  · exact lowers_trim h _
  · exact lowers_general h

theorem lowers_sequence (h : c.Reads S) : Lowers S c.lowerSequence := by
  unfold lowerSequence
  split
  · exact .error _
  · rename_i source operands hargs
    have hsource := h.args source (by simp [hargs])
    have hoperands : ∀ x ∈ operands, Lowers S x := fun x hx => h.args x (by simp [hargs, hx])
    split
    · exact .error _
    · exact SequenceMethod.lowers_emit (SequenceMethod.composes_named S c.method) _ hsource h.loop
        hoperands

theorem lowers_call (h : c.Reads S) (unit : StringUnit) : Lowers S (c.lower unit) := by
  unfold lower
  split
  · exact lowers_sequence h
  · exact lowers_math h
  · exact lowers_string h unit
  · exact lowers_collection h
  · exact lowers_general h

end MethodCall

namespace Entries

variable {α : Type} {P : α → Prop}

theorem forall_mem_insert {key : String} {value : α} (hvalue : P value) {es : Entries α}
    (h : ∀ e ∈ es, P e.2) : ∀ e ∈ insert key value es, P e.2 := by
  induction es with
  | nil => simpa [insert] using hvalue
  | cons entry es ih =>
    obtain ⟨k, a⟩ := entry
    obtain ⟨ha, hes⟩ := List.forall_mem_cons.mp h
    by_cases hk : k = key
    · rw [insert, if_pos hk]
      exact List.forall_mem_cons.mpr ⟨hvalue, hes⟩
    · rw [insert, if_neg hk]
      exact List.forall_mem_cons.mpr ⟨ha, ih hes⟩

theorem mem_of_get? {key : String} {a : α} {es : Entries α} (h : get? key es = some a) :
    (key, a) ∈ es := by
  induction es with
  | nil => cases h
  | cons entry es ih =>
    obtain ⟨k, b⟩ := entry
    rw [get?] at h
    split at h
    · rename_i hk
      cases h
      exact hk ▸ List.mem_cons_self
    · exact List.mem_cons_of_mem _ (ih h)

theorem forall_mem_extend {base es : Entries α} (hbase : ∀ e ∈ base, P e.2)
    (h : ∀ e ∈ es, P e.2) : ∀ e ∈ extend base es, P e.2 := by
  induction es generalizing base with
  | nil => exact hbase
  | cons entry es ih =>
    obtain ⟨hentry, hes⟩ := List.forall_mem_cons.mp h
    exact ih (forall_mem_insert hentry hbase) hes

end Entries

theorem ensures_shapeOf {P : Bson → Prop} (ty : Ty) (parameters : List String)
    {args : List Lowered} (h : ∀ x ∈ args, Ensures P x) :
    Ensures (fun shape => ∀ field ∈ shape, P field.2) (shapeOf ty parameters args) := by
  unfold shapeOf
  split
  · exact .error _
  · refine Ensures.bind (P := fun fields => ∀ field ∈ fields, P field.2)
      (.mapM fun entry hentry => ?_)
      fun fields hfields => .ok (Entries.forall_mem_extend (List.forall_mem_nil _) hfields)
    obtain ⟨name, arg⟩ := entry
    exact (h arg (List.of_mem_zip hentry).2).bind fun b hb => .ok hb

theorem refers_emitShape {shape : Entries Bson} (h : ∀ field ∈ shape, field.2.Refers S) :
    (emitShape shape).Refers S := by
  unfold emitShape
  split
  · exact refers_literal _
  · exact refers_document h

/-- Where a path is emitted it is a reference with the property, if it refers to a field at all. -/
def Path.Refers (S : String → Prop) (p : Path) : Prop := (string p.reference).Refers S

theorem Path.refers_iff {p : Path} :
    p.Refers S ↔ (isFieldReference p.reference = true → S p.reference) := by
  simp [Path.Refers, Bson.Refers, fieldReferences, referencesUnder]

theorem Path.toList_joined_cons (s : String) (ss : List String) :
    ∃ rest, (joined (s :: ss)).toList = s.toList ++ rest := by
  cases ss with
  | nil => exact ⟨[], by simp [joined]⟩
  | cons t ss => exact ⟨'.' :: (joined (t :: ss)).toList, by simp [joined]⟩

theorem Path.refers_loopVariable (S : String → Prop) (name : String) (rest : List String) :
    Path.Refers S ⟨(Path.loopVariable name).segments ++ rest⟩ := by
  rw [refers_iff]
  intro hfield
  obtain ⟨tail, htail⟩ := toList_joined_cons ("$" ++ name) rest
  have hreference : (Path.reference ⟨(Path.loopVariable name).segments ++ rest⟩).toList =
      '$' :: '$' :: (name.toList ++ tail) := by
    simp [reference, text, loopVariable, htail]
  rw [isFieldReference, hreference] at hfield
  cases hfield

namespace Expr

theorem refers_loopPaths {paths : Path → Path} {p : Path} (h : (paths p).Refers S)
    (source? : Option Path) (params : List Parameter) :
    (loopPaths paths source? params p).Refers S := by
  unfold loopPaths
  split
  · rename_i source v
    rw [Path.reroot, Path.replaceRoot]
    split
    · exact Path.refers_loopVariable S v.name _
    · exact h
  · exact h

theorem lowerLoop_cases {unit : StringUnit} {paths : Path → Path} {args : List Expr} {l : Loop}
    (h : lowerLoop unit paths args = some l) :
    ∃ source params body, args = [source, lambda ⟨params, body⟩] ∧
      l.body = body.lower unit (loopPaths paths (source.boundPath?.map paths) params) ∧
      l.selection = selection? paths (source.boundPath?.map paths) body := by
  unfold lowerLoop at h
  split at h
  · cases h
    exact ⟨_, _, _, rfl, rfl, rfl⟩
  · cases h

theorem selection?_field {paths : Path → Path} {source? : Option Path} {body : Expr}
    {reference : String} (h : selection? paths source? body = some (.field reference)) :
    ∃ p ∈ body.boundPaths, reference = (paths p).reference := by
  unfold selection? at h
  split at h
  · rename_i source p decoder ty
    split at h
    · cases h
      exact ⟨p, mem_boundPaths.mpr ⟨_, self_mem_nodes _, rfl⟩, rfl⟩
    · cases h
  · split at h <;> cases h
  · cases h

private theorem reads_call (unit : StringUnit) (paths : Path → Path) (receiver : Option Expr)
    (method : String) (declaring : Ty) (args : List Expr)
    (hreceiver : ∀ e, receiver = some e → Lowers S (e.lower unit paths))
    (hargs : ∀ a ∈ args, Lowers S (a.lower unit paths))
    (hbody : ∀ params body, lambda ⟨params, body⟩ ∈ args → ∀ source?,
      Lowers S (body.lower unit (loopPaths paths source? params)))
    (hpaths : ∀ a ∈ args, ∀ p ∈ a.boundPaths, (paths p).Refers S) :
    MethodCall.Reads S
      { method, declaring
        receiver := lowerReceiver unit paths receiver
        args := lowerEach unit paths args
        comparison := args.getLast?.bind comparison?
        overGroup := args.head?.any overGroup
        loop := lowerLoop unit paths args } where
  receiver x hx := by
    rw [lowerReceiver_eq_map, Option.map_eq_some_iff] at hx
    obtain ⟨e, he, rfl⟩ := hx
    exact hreceiver e he
  args x hx := by
    rw [lowerEach_eq_map] at hx
    obtain ⟨a, ha, rfl⟩ := List.mem_map.mp hx
    exact hargs a ha
  loop l hl := by
    obtain ⟨source, params, body, hshape, hl, hselection⟩ := lowerLoop_cases hl
    have hmem : lambda ⟨params, body⟩ ∈ args := by simp [hshape]
    refine ⟨hl ▸ hbody params body hmem _, fun reference href => ?_⟩
    obtain ⟨p, hp, rfl⟩ := selection?_field (hselection.symm.trans href)
    exact hpaths _ hmem p (mem_boundPaths_of_part (by simp [parts]) hp)

/-- The references of a lowered expression are those of its bound paths. -/
theorem lowers_of_boundPaths (unit : StringUnit) (e : Expr) : ∀ paths : Path → Path,
    (∀ p ∈ e.boundPaths, (paths p).Refers S) → Lowers S (e.lower unit paths) := by
  induction e with
  | literal value ty => exact fun _ _ => lowers_literal value ty
  | parameter p => exact fun _ _ => .error _
  | member target name declaring ty ih =>
    intro paths h
    rw [lower]
    split
    · rename_i f hf
      refine (ih paths fun p hp => h p ?_).bind fun b hb => .ok (Ty.refers_computed? hf hb)
      exact mem_boundPaths_of_part (by simp [parts]) hp
    · exact .error _
  | binary op left right ty ihl ihr =>
    intro paths h
    have hl := ihl paths fun p hp => h p (mem_boundPaths_of_part (by simp [parts]) hp)
    have hr := ihr paths fun p hp => h p (mem_boundPaths_of_part (by simp [parts]) hp)
    exact hl.bind fun a ha => hr.bind fun b hb => .ok (op.refers_emit _ ha hb)
  | unary op operand ty ih =>
    intro paths h
    have ho := ih paths fun p hp => h p (mem_boundPaths_of_part (by simp [parts]) hp)
    exact ho.bind fun b hb => .ok (op.refers_emit hb)
  | conditional test ifTrue ifFalse ty iht iha ihb =>
    intro paths h
    have ht := iht paths fun p hp => h p (mem_boundPaths_of_part (by simp [parts]) hp)
    have ha := iha paths fun p hp => h p (mem_boundPaths_of_part (by simp [parts]) hp)
    have hb := ihb paths fun p hp => h p (mem_boundPaths_of_part (by simp [parts]) hp)
    refine ht.bind fun t ht => ha.bind fun a ha => hb.bind fun b hb => ?_
    exact .ok (refers_applyAll _ (by simp [ht, ha, hb]))
  | call receiver method declaring args ty ihr iha ihb =>
    intro paths h
    have harg (a : Expr) (ha : a ∈ args) : ∀ p ∈ a.boundPaths, (paths p).Refers S :=
      fun p hp => h p (mem_boundPaths_of_part (by simp [parts, ha]) hp)
    have hbody (params : List Parameter) (body : Expr) (hmem : lambda ⟨params, body⟩ ∈ args) :
        ∀ p ∈ body.boundPaths, (paths p).Refers S :=
      fun p hp => harg _ hmem p (mem_boundPaths_of_part (by simp [parts]) hp)
    rw [lower]
    refine MethodCall.lowers_call (reads_call unit paths receiver method declaring args
      (fun e he => ihr e he paths fun p hp => ?_) (fun a ha => iha a ha paths (harg a ha))
      (fun params body hmem source? => ihb params body hmem _ fun p hp => ?_) harg) unit
    · exact h p (mem_boundPaths_of_part (by simp [parts, he]) hp)
    · exact refers_loopPaths (hbody params body hmem p hp) source? params
  | lambda params body ih => exact fun _ _ => .error _
  | construct ty parameters args members ih =>
    intro paths h
    rw [lower, lowerEach_eq_map]
    refine (ensures_shapeOf ty parameters fun x hx => ?_).bind fun shape hshape =>
      .ok (refers_emitShape hshape)
    obtain ⟨a, ha, rfl⟩ := List.mem_map.mp hx
    exact ih a ha paths fun p hp => h p (mem_boundPaths_of_part (by simpa [parts] using ha) hp)
  | accumulate fn source selector ty ihs ihb =>
    intro paths h
    rcases selector with _ | ⟨params, body⟩
    · have hs := ihs paths fun p hp => h p (mem_boundPaths_of_part (by simp [parts]) hp)
      exact hs.bind fun b hb => .ok (refers_apply _ hb)
    · have hb := ihb params body rfl paths fun p hp =>
        h p (mem_boundPaths_of_part (by simp [parts]) hp)
      exact hb.bind fun b hb => .ok (refers_apply _ hb)
  | field path decoder ty =>
    intro paths h
    exact .ok (h path (mem_boundPaths.mpr ⟨_, self_mem_nodes _, rfl⟩))
  | document inner path decoder ih =>
    intro paths h
    cases path with
    | some path => exact .ok (h path (mem_boundPaths.mpr ⟨_, self_mem_nodes _, rfl⟩))
    | none =>
      rw [lower]
      split
      · refine .ok fun ref href => ?_
        cases href
      · exact ih paths fun p hp => h p (mem_boundPaths_of_part (by simp [parts]) hp)

theorem refers_of_lowerShape {unit : StringUnit} {e : Expr}
    (h : ∀ p ∈ e.boundPaths, (id p).Refers S) :
    Ensures (fun shape => ∀ field ∈ shape, field.2.Refers S) (e.lowerShape unit) := by
  cases e with
  | construct ty parameters args members =>
    refine ensures_shapeOf ty parameters fun x hx => ?_
    obtain ⟨a, ha, rfl⟩ := List.mem_map.mp hx
    exact lowers_of_boundPaths unit a id fun p hp => h p (mem_boundPaths_of_part ha hp)
  | _ => exact .error _

end Expr

end QueryStage
