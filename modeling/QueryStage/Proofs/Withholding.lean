import QueryStage.Proofs.BindingSteps
import QueryStage.Proofs.References
import QueryStage.Proofs.Shapes

/-!
# Lowering with a document withheld

A document that a parameter stands for is withheld from an expression by leaving the bare parameter
in its place, which has no lowering. It stays only where an accumulator without a selector is over
it. So the expression can still be lowered just when lowering uses the document nowhere else, and
then it is lowered to the same.
-/

namespace QueryStage

namespace Ensures

variable {ε α β : Type} {Q : Prop}

theorem before {x : Except ε α} (h : Ensures (fun _ => Q) x) (f : α → Except ε β) :
    Ensures (fun _ => Q) (x >>= f) :=
  h.bind fun _ hq _ _ => hq

end Ensures

def Lowered.Succeeds (x : Lowered) : Prop := ∃ b, x = .ok b

theorem succeeds_of_mapM {xs : List Lowered} :
    Ensures (fun _ => ∀ x ∈ xs, x.Succeeds) (xs.mapM id) := by
  intro bs h x hx
  obtain ⟨b, -, hb⟩ := exists_of_forall₂ (mapM_eq_ok_iff.mp h).flip hx
  exact ⟨b, hb⟩

theorem Loop.length_params_of_binder {l : Loop} {name : String} (h : l.binder = .ok name) :
    l.params.length = 1 := by
  unfold Loop.binder at h
  split at h
  · rename_i hparams
    rw [hparams]
    rfl
  · cases h

theorem Loop.needs_emit (l : Loop) {kind : LoopKind} {source : Lowered} {b : Bson}
    (h : l.emit kind source = .ok b) :
    kind = .map ∧ l.selection.isSome = true ∨
      l.params.length = 1 ∧ source.Succeeds ∧ l.body.Succeeds := by
  unfold Loop.emit at h
  split at h
  · rename_i hselection
    exact .inl ⟨rfl, by rw [hselection]; rfl⟩
  · rename_i hselection
    exact .inl ⟨rfl, by rw [hselection]; rfl⟩
  · simp only [bind_eq_ok_iff] at h
    obtain ⟨name, hname, body, hbody, input, hinput, -⟩ := h
    exact .inr ⟨length_params_of_binder hname, ⟨input, hinput⟩, body, hbody⟩

/-- Whether a method makes a map of an element lambda. -/
def SequenceMethod.maps (m : SequenceMethod) : Bool :=
  match m.each with
  | some (.map, _) => true
  | _ => false

namespace MethodCall

/-- The operands that a call by another rule than that for sequences needs: all of them, but for a
third one that names a string comparison. -/
def Needs (c : MethodCall) : Prop :=
  (∀ x ∈ c.operands, x.Succeeds) ∨
    c.operands.length = 3 ∧ c.comparison.isSome = true ∧ ∀ x ∈ c.operands.take 2, x.Succeeds

variable (c : MethodCall)

theorem needs_lowered : Ensures (fun _ => c.Needs) c.lowered := by
  intro bs h
  exact .inl (succeeds_of_mapM bs h)

theorem needs_general : Ensures (fun _ => c.Needs) c.lowerGeneral := by
  unfold lowerGeneral
  split
  · exact c.needs_lowered.before _
  · exact c.needs_lowered.before _
  · exact .error _

theorem needs_math : Ensures (fun _ => c.Needs) c.lowerMath := by
  unfold lowerMath
  split
  · exact c.needs_lowered.before _
  · exact .error _

theorem needs_collection : Ensures (fun _ => c.Needs) c.lowerCollection := by
  unfold lowerCollection
  split
  · exact c.needs_lowered.before _
  · exact c.needs_lowered.before _
  · exact c.needs_lowered.before _
  · exact c.needs_general

theorem needs_stringEquals : Ensures (fun _ => c.Needs) c.lowerStringEquals := by
  have compareAs {Q : Prop} (hQ : (∀ x ∈ c.operands.take 2, x.Succeeds) → Q)
      (comparison : StringComparison) :
      Ensures (fun _ => Q) (lowerStringEquals.compareAs c comparison) := by
    have htwo : Ensures (fun _ => Q) ((c.operands.take 2).mapM id) :=
      fun bs h => hQ (succeeds_of_mapM bs h)
    unfold lowerStringEquals.compareAs
    split
    · exact htwo.before _
    · exact htwo.before _
    · exact .error _
  unfold lowerStringEquals
  split
  · rename_i hlength
    refine compareAs (fun htwo => .inl ?_) _
    rwa [List.take_of_length_le (Nat.le_of_eq hlength)] at htwo
  · rename_i hlength hcomparison
    exact compareAs (fun htwo => .inr ⟨hlength, by rw [hcomparison]; rfl, htwo⟩) _
  · exact .error _

theorem needs_string (unit : StringUnit) : Ensures (fun _ => c.Needs) (c.lowerString unit) := by
  unfold lowerString
  split
  · exact c.needs_lowered.before _
  · exact c.needs_lowered.before _
  · exact c.needs_lowered.before _
  · exact c.needs_lowered.before _
  · exact c.needs_lowered.before _
  · exact c.needs_stringEquals
  · split
    · exact c.needs_lowered.before _
    · exact c.needs_general
  · exact c.needs_lowered.before _
  · exact c.needs_lowered.before _
  · exact c.needs_lowered.before _
  · exact c.needs_lowered.before _
  · exact c.needs_general

theorem family_eq_sequence_iff (declaring : Ty) :
    MethodFamily.of declaring = .sequence ↔ declaring = .enumerable := by
  unfold MethodFamily.of
  split
  · simp_all
  · split
    · simp_all
    · split <;> simp_all

theorem needs_lower (unit : StringUnit) (h : c.declaring ≠ .enumerable) :
    Ensures (fun _ => c.Needs) (c.lower unit) := by
  unfold lower
  split
  · rename_i hfamily
    exact absurd ((family_eq_sequence_iff _).mp hfamily) h
  · exact c.needs_math
  · exact c.needs_string unit
  · exact c.needs_collection
  · exact c.needs_general

/-- A sequence method needs its source, and its operand or the body of its loop, which has one
parameter. None of this is needed where the loop only selects. -/
theorem needs_sequence {unit : StringUnit} {b : Bson} (h : c.declaring = .enumerable)
    (hb : c.lower unit = .ok b) :
    (∃ source, c.args = [source] ∧ source.Succeeds) ∨
      (∃ source operand, c.args = [source, operand] ∧ source.Succeeds ∧ operand.Succeeds) ∨
      ∃ source operand l, c.args = [source, operand] ∧ c.loop = some l ∧
        ((SequenceMethod.named c.method).maps = true ∧ l.selection.isSome = true ∨
          l.params.length = 1 ∧ source.Succeeds ∧ l.body.Succeeds) := by
  have hfamily := (family_eq_sequence_iff c.declaring).mpr h
  unfold lower at hb
  rw [hfamily] at hb
  simp only [lowerSequence] at hb
  split at hb
  · cases hb
  · rename_i source operands hargs
    split at hb
    · cases hb
    · unfold SequenceMethod.emit at hb
      split at hb
      · split at hb
        · obtain ⟨a, ha, -⟩ := bind_eq_ok_iff.mp hb
          exact .inl ⟨source, hargs, a, ha⟩
        · cases hb
      · rename_i operand
        split at hb
        · rename_i l kind f hl hf
          obtain ⟨a, ha, -⟩ := bind_eq_ok_iff.mp hb
          refine .inr (.inr ⟨source, operand, l, hargs, hl, ?_⟩)
          rcases l.needs_emit ha with ⟨rfl, hselection⟩ | hneeds
          · exact .inl ⟨by rw [SequenceMethod.maps, hf], hselection⟩
          · exact .inr hneeds
        · split at hb
          · simp only [bind_eq_ok_iff] at hb
            obtain ⟨a, ha, a', ha', -⟩ := hb
            exact .inr (.inl ⟨source, operand, hargs, ⟨a, ha⟩, a', ha'⟩)
          · cases hb
      · cases hb

end MethodCall

namespace Expr

/-- What is lowered for an argument of a call: the body, if it is a lambda. -/
def loweredArg : Expr → Expr
  | lambda fn => fn.body
  | e => e

/-- The expressions that lowering an expression lowers, with a document as a whole. A sequence
method does not use its receiver, and an accumulator with a selector not its source. -/
def loweredParts : Expr → List Expr
  | call receiver _ declaring args _ =>
    (if declaring = .enumerable then [] else receiver.toList) ++ args.map loweredArg
  | accumulate _ source none _ => [source]
  | accumulate _ _ (some fn) _ => [fn.body]
  | document _ _ _ => []
  | e => e.parts

/-- Lowering an expression lowers `n` otherwise than as the source of an accumulator without a
selector. -/
inductive Uses (n : Expr) : Expr → Prop
  | here : Uses n n
  | part {e part : Expr} (h : part ∈ e.loweredParts) (hkept : ∀ fn ty, e ≠ accumulate fn n none ty)
    (rest : Uses n part) : Uses n e

/-- A node that is emitted by itself, whether or not it is lowered. -/
def IsSettled (e : Expr) : Prop := e.boundPath?.isSome = true ∨ e.kind = .literal

theorem loweredArg_of_kind_ne {e : Expr} (h : e.kind ≠ .lambda) : e.loweredArg = e := by
  cases e with
  | lambda fn => exact absurd rfl h
  | _ => rfl

variable {unit : StringUnit} {paths : Path → Path}

theorem kind_ne_lambda_of_lower {e : Expr} {x : Bson} (h : e.lower unit paths = .ok x) :
    e.kind ≠ .lambda := by
  cases e with
  | lambda fn => obtain ⟨params, body⟩ := fn; cases h
  | _ => exact nofun

theorem exists_lower_loweredArg {e : Expr} (h : (e.lower unit paths).Succeeds) :
    ∃ paths', (e.loweredArg.lower unit paths').Succeeds := by
  obtain ⟨x, hx⟩ := h
  rw [loweredArg_of_kind_ne (kind_ne_lambda_of_lower hx)]
  exact ⟨paths, x, hx⟩

theorem settled_of_selection? {source? : Option Path} {body : Expr}
    (h : (selection? paths source? body).isSome = true) :
    source?.isSome = true ∧ body.IsSettled := by
  unfold selection? at h
  split at h
  · exact ⟨rfl, .inl rfl⟩
  · exact ⟨rfl, .inl rfl⟩
  · cases h

theorem settled_loweredArg {e : Expr} (h : e.IsSettled) : e.loweredArg.IsSettled := by
  cases e with
  | lambda fn => rcases h with h | h <;> cases h
  | _ => exact h

theorem settled_of_comparison? {e : Expr} (h : e.comparison?.isSome = true) : e.IsSettled := by
  cases e with
  | literal value ty => exact .inr rfl
  | _ => cases h

theorem lower_operand_of_call {receiver : Option Expr} {method : String}
    {declaring ty : Ty} {args : List Expr} {x : Bson} (hdeclaring : declaring ≠ .enumerable)
    (h : (call receiver method declaring args ty).lower unit paths = .ok x) {a : Expr}
    (ha : a ∈ receiver.toList ++ args) : a.IsSettled ∨ (a.lower unit paths).Succeeds := by
  rw [lower] at h
  have hneeds := MethodCall.needs_lower _ unit hdeclaring x h
  have hoperands : (lowerReceiver unit paths receiver).toList ++ lowerEach unit paths args =
      (receiver.toList ++ args).map (lower unit paths) := by
    cases receiver <;> simp
  rw [MethodCall.Needs, MethodCall.operands, hoperands] at hneeds
  rcases hneeds with hall | ⟨hlength, hcomparison, htwo⟩
  · exact .inr (hall _ (List.mem_map_of_mem ha))
  · -- The third operand is the last argument, which names the comparison.
    rw [List.length_map] at hlength
    obtain ⟨a₁, a₂, a₃, hthree⟩ := List.length_eq_three.mp hlength
    rw [hthree] at ha htwo
    have hlast : a₃.comparison?.isSome = true := by
      cases hargs : args.getLast? with
      | none => simp [hargs] at hcomparison
      | some last =>
        have hthird := congrArg List.getLast? hthree
        rw [List.getLast?_append, hargs] at hthird
        cases hthird
        simpa [hargs] using hcomparison
    simp only [List.mem_cons, List.not_mem_nil, or_false] at ha
    rcases ha with rfl | rfl | rfl
    · exact .inr (htwo _ (by simp))
    · exact .inr (htwo _ (by simp))
    · exact .inl (settled_of_comparison? hlast)

/-- The arguments of a sequence method are lowered, or its lambda makes a loop over its source. That
loop only selects, or has one parameter and a body that is lowered with the paths in it. -/
theorem lower_sequence_cases {receiver : Option Expr} {method : String} {ty : Ty}
    {args : List Expr} {x : Bson}
    (h : (call receiver method .enumerable args ty).lower unit paths = .ok x) :
    (∀ a ∈ args, (a.lower unit paths).Succeeds) ∨
      ∃ source params body, args = [source, lambda ⟨params, body⟩] ∧
        ((SequenceMethod.named method).maps = true ∧
            (selection? paths (source.boundPath?.map paths) body).isSome = true ∨
          params.length = 1 ∧ (source.lower unit paths).Succeeds ∧
            (body.lower unit (loopPaths paths (source.boundPath?.map paths) params)).Succeeds) := by
  rw [lower] at h
  rcases MethodCall.needs_sequence _ rfl h with ⟨source, hargs, hsource⟩ |
    ⟨source, operand, hargs, hsource, hoperand⟩ | ⟨source, operand, l, hargs, hl, hloop⟩
  · have hlowered : args.map (lower unit paths) = [source] := by simpa using hargs
    refine .inl fun a ha => ?_
    have hmem := hlowered ▸ List.mem_map_of_mem ha
    exact List.mem_singleton.mp hmem ▸ hsource
  · have hlowered : args.map (lower unit paths) = [source, operand] := by simpa using hargs
    refine .inl fun a ha => ?_
    have hmem := hlowered ▸ List.mem_map_of_mem ha
    simp only [List.mem_cons, List.not_mem_nil, or_false] at hmem
    rcases hmem with heq | heq
    · exact heq ▸ hsource
    · exact heq ▸ hoperand
  · obtain ⟨items, params, body, rfl, -, -⟩ := lowerLoop_cases hl
    simp only [lowerEach, List.cons.injEq, and_true] at hargs
    rw [lowerLoop, Option.some.injEq] at hl
    subst hl
    rw [← hargs.1] at hloop
    exact .inr ⟨items, params, body, rfl, hloop⟩

private theorem lower_arg_of_sequence {receiver : Option Expr} {method : String} {ty : Ty}
    {args : List Expr} {x : Bson}
    (h : (call receiver method .enumerable args ty).lower unit paths = .ok x) {a : Expr}
    (ha : a ∈ args) :
    a.loweredArg.IsSettled ∨ ∃ paths', (a.loweredArg.lower unit paths').Succeeds := by
  rcases lower_sequence_cases h with hargs | ⟨items, params, body, rfl, hloop⟩
  · exact .inr (exists_lower_loweredArg (hargs a ha))
  · simp only [List.mem_cons, List.not_mem_nil, or_false] at ha
    rcases hloop with ⟨-, hselected⟩ | ⟨-, hsource, hbody⟩
    · obtain ⟨hitems, hsettled⟩ := settled_of_selection? hselected
      have hitems : items.IsSettled := .inl (by simpa using hitems)
      rcases ha with rfl | rfl
      · exact .inl (settled_loweredArg hitems)
      · exact .inl hsettled
    · rcases ha with rfl | rfl
      · exact .inr (exists_lower_loweredArg hsource)
      · exact .inr ⟨_, hbody⟩

theorem lower_part_of_call {receiver : Option Expr} {method : String} {declaring ty : Ty}
    {args : List Expr} {x : Bson}
    (h : (call receiver method declaring args ty).lower unit paths = .ok x) {part : Expr}
    (hpart : part ∈ (call receiver method declaring args ty).loweredParts) :
    part.IsSettled ∨ ∃ paths', (part.lower unit paths').Succeeds := by
  rw [loweredParts, List.mem_append] at hpart
  by_cases hdeclaring : declaring = .enumerable
  · subst hdeclaring
    rcases hpart with hpart | hpart
    · simp at hpart
    · obtain ⟨a, ha, rfl⟩ := List.mem_map.mp hpart
      exact lower_arg_of_sequence h ha
  · rw [if_neg hdeclaring] at hpart
    rcases hpart with hpart | hpart
    · exact (lower_operand_of_call hdeclaring h (List.mem_append_left _ hpart)).imp_right
        fun hlower => ⟨paths, hlower⟩
    · obtain ⟨a, ha, rfl⟩ := List.mem_map.mp hpart
      rcases lower_operand_of_call hdeclaring h (List.mem_append_right _ ha) with hsettled | hlower
      · exact .inl (settled_loweredArg hsettled)
      · exact .inr (exists_lower_loweredArg hlower)

theorem lower_part_of_kind_ne {e part : Expr} {x : Bson} (h : e.lower unit paths = .ok x)
    (hkind : e.kind ≠ .call) (hpart : part ∈ e.loweredParts) :
    (part.lower unit paths).Succeeds := by
  cases e with
  | member target name declaring ty =>
    cases List.mem_singleton.mp hpart
    rw [lower] at h
    split at h
    · obtain ⟨a, ha, -⟩ := bind_eq_ok_iff.mp h
      exact ⟨a, ha⟩
    · cases h
  | binary op left right ty =>
    simp only [lower, bind_eq_ok_iff] at h
    obtain ⟨l, hl, r, hr, -⟩ := h
    simp only [loweredParts, parts, List.mem_cons, List.not_mem_nil, or_false] at hpart
    rcases hpart with rfl | rfl
    · exact ⟨l, hl⟩
    · exact ⟨r, hr⟩
  | unary op operand ty =>
    simp only [lower, bind_eq_ok_iff] at h
    obtain ⟨a, ha, -⟩ := h
    cases List.mem_singleton.mp hpart
    exact ⟨a, ha⟩
  | conditional test ifTrue ifFalse ty =>
    simp only [lower, bind_eq_ok_iff] at h
    obtain ⟨t, ht, a, ha, b, hb, -⟩ := h
    simp only [loweredParts, parts, List.mem_cons, List.not_mem_nil, or_false] at hpart
    rcases hpart with rfl | rfl | rfl
    · exact ⟨t, ht⟩
    · exact ⟨a, ha⟩
    · exact ⟨b, hb⟩
  | call => exact absurd rfl hkind
  | lambda fn => obtain ⟨params, body⟩ := fn; cases h
  | construct ty parameters args members =>
    obtain ⟨shape, hshape, -⟩ := lower_construct_cases h
    obtain ⟨xs, hxs, -, -⟩ := shapeOf_cases hshape
    rw [List.forall₂_map_left_iff] at hxs
    obtain ⟨x, -, hx⟩ := exists_of_forall₂ hxs.flip hpart
    exact ⟨x, hx⟩
  | accumulate fn source selector ty =>
    rcases selector with _ | ⟨params, body⟩
    · simp only [lower, bind_eq_ok_iff] at h
      obtain ⟨a, ha, -⟩ := h
      cases List.mem_singleton.mp hpart
      exact ⟨a, ha⟩
    · simp only [lower, bind_eq_ok_iff] at h
      obtain ⟨a, ha, -⟩ := h
      cases List.mem_singleton.mp hpart
      exact ⟨a, ha⟩
  | literal | parameter | field | document => cases hpart

/-- An expression that is lowered lowers what it uses. -/
theorem lower_part {e part : Expr} {x : Bson} (h : e.lower unit paths = .ok x)
    (hpart : part ∈ e.loweredParts) :
    part.IsSettled ∨ ∃ paths', (part.lower unit paths').Succeeds := by
  by_cases hkind : e.kind = .call
  · cases e with
    | call receiver method declaring args ty => exact lower_part_of_call h hpart
    | _ => cases hkind
  · exact .inr ⟨paths, lower_part_of_kind_ne h hkind hpart⟩

/-- Whether an expression is the path-less document of this parameter and decoder. -/
def isRoot (g : Parameter) (d : Decoder) : Expr → Bool
  | document (parameter p) none d' => p = g && d' = d
  | _ => false

mutual

/-- Withholds the document of a parameter: the bare parameter stands in its place, unless it is the
source of an accumulator without a selector. -/
def withhold (g : Parameter) (d : Decoder) : Expr → Expr
  | literal value ty => literal value ty
  | parameter p => parameter p
  | member target name declaring ty => member (target.withhold g d) name declaring ty
  | binary op left right ty => binary op (left.withhold g d) (right.withhold g d) ty
  | unary op operand ty => unary op (operand.withhold g d) ty
  | conditional test ifTrue ifFalse ty =>
    conditional (test.withhold g d) (ifTrue.withhold g d) (ifFalse.withhold g d) ty
  | call none method declaring args ty => call none method declaring (withholdAll g d args) ty
  | call (some receiver) method declaring args ty =>
    call (some (receiver.withhold g d)) method declaring (withholdAll g d args) ty
  | lambda ⟨params, body⟩ => lambda ⟨params, body.withhold g d⟩
  | construct ty parameters args members => construct ty parameters (withholdAll g d args) members
  | accumulate fn source none ty =>
    accumulate fn (if source.isRoot g d then source else source.withhold g d) none ty
  | accumulate fn source (some ⟨params, body⟩) ty =>
    accumulate fn source (some ⟨params, body.withhold g d⟩) ty
  | field path decoder ty => field path decoder ty
  | document inner path decoder =>
    if (document inner path decoder).isRoot g d then inner else document inner path decoder

def withholdAll (g : Parameter) (d : Decoder) : List Expr → List Expr
  | [] => []
  | e :: es => e.withhold g d :: withholdAll g d es

end

attribute [local simp] withhold

variable {g : Parameter} {d : Decoder}

@[simp] theorem withholdAll_eq_map (es : List Expr) :
    withholdAll g d es = es.map (withhold g d) := by
  induction es with
  | nil => rfl
  | cons e es ih => simp [withholdAll, ih]

theorem isRoot_iff {e : Expr} : e.isRoot g d = true ↔ e = Lambda.root g d := by
  constructor
  · intro h
    unfold isRoot at h
    split at h
    · rw [Bool.and_eq_true, decide_eq_true_eq, decide_eq_true_eq] at h
      obtain ⟨rfl, rfl⟩ := h
      rfl
    · cases h
  · rintro rfl
    simp [Lambda.root, isRoot]

theorem withhold_root : (Lambda.root g d).withhold g d = parameter g := by
  simp [Lambda.root, isRoot]

theorem withhold_document {inner : Expr} {path : Option Path} {decoder : Decoder}
    (h : document inner path decoder ≠ Lambda.root g d) :
    (document inner path decoder).withhold g d = document inner path decoder := by
  have hroot : (document inner path decoder).isRoot g d = false := by
    rw [← Bool.not_eq_true, isRoot_iff]
    exact h
  simp [hroot]

theorem withhold_kind {e : Expr} (h : e ≠ Lambda.root g d) : (e.withhold g d).kind = e.kind := by
  cases e with
  | call receiver => cases receiver <;> rfl
  | accumulate fn source selector => rcases selector with _ | ⟨params, body⟩ <;> rfl
  | lambda fn => obtain ⟨params, body⟩ := fn; rfl
  | document inner path decoder => rw [withhold_document h]
  | _ => rfl

@[simp] theorem ty_withhold (e : Expr) : (e.withhold g d).ty = e.ty := by
  induction e with
  | call receiver => cases receiver <;> rfl
  | accumulate fn source selector => rcases selector with _ | ⟨params, body⟩ <;> rfl
  | lambda params body ih => exact ih
  | document inner path decoder =>
    rw [withhold]
    split <;> rfl
  | _ => rfl

@[simp] theorem boundPath?_withhold (e : Expr) : (e.withhold g d).boundPath? = e.boundPath? := by
  by_cases h : e = Lambda.root g d
  · rw [h, withhold_root]
    rfl
  · cases e with
    | call receiver => cases receiver <;> rfl
    | accumulate fn source selector => rcases selector with _ | ⟨params, body⟩ <;> rfl
    | lambda fn => obtain ⟨params, body⟩ := fn; rfl
    | document inner path decoder => rw [withhold_document h]
    | _ => rfl

@[simp] theorem comparison?_withhold (e : Expr) : (e.withhold g d).comparison? = e.comparison? := by
  by_cases h : e = Lambda.root g d
  · rw [h, withhold_root]
    rfl
  · cases e with
    | call receiver => cases receiver <;> rfl
    | accumulate fn source selector => rcases selector with _ | ⟨params, body⟩ <;> rfl
    | lambda fn => obtain ⟨params, body⟩ := fn; rfl
    | document inner path decoder => rw [withhold_document h]
    | _ => rfl

@[simp] theorem overGroup_withhold (e : Expr) : (e.withhold g d).overGroup = e.overGroup := by
  by_cases h : e = Lambda.root g d
  · rw [h, withhold_root]
    rfl
  · simp [overGroup, isAccumulator, withhold_kind h]

theorem loweredArg_withhold (e : Expr) :
    (e.withhold g d).loweredArg = e.loweredArg.withhold g d := by
  by_cases h : e = Lambda.root g d
  · rw [h, withhold_root]
    exact withhold_root.symm
  · rcases lambda_or_kind_ne e with ⟨params, body, rfl⟩ | hkind
    · rfl
    · rw [loweredArg_of_kind_ne hkind, loweredArg_of_kind_ne (by rwa [withhold_kind h])]

theorem mem_loweredParts_withhold {e part : Expr} (h : part ∈ e.loweredParts)
    (hkept : ∀ fn ty, e ≠ accumulate fn (Lambda.root g d) none ty) :
    part.withhold g d ∈ (e.withhold g d).loweredParts := by
  cases e with
  | call receiver method declaring args ty =>
    have hargs : (args.map loweredArg).map (withhold g d) =
        (args.map (withhold g d)).map loweredArg := by
      rw [List.map_map, List.map_map]
      exact List.map_congr_left fun a _ => (loweredArg_withhold a).symm
    have hmem := List.mem_map_of_mem (f := withhold g d) h
    rw [loweredParts, List.map_append, hargs] at hmem
    cases receiver with
    | none => simpa [loweredParts] using hmem
    | some receiver =>
      by_cases hdeclaring : declaring = .enumerable
      · simpa [loweredParts, hdeclaring] using hmem
      · simpa [loweredParts, hdeclaring] using hmem
  | accumulate fn source selector ty =>
    rcases selector with _ | ⟨params, body⟩
    · have hroot : source.isRoot g d = false := by
        rw [← Bool.not_eq_true, isRoot_iff]
        rintro rfl
        exact hkept fn ty rfl
      rw [List.mem_singleton.mp h]
      simp [loweredParts, hroot]
    · rw [List.mem_singleton.mp h]
      simp [loweredParts]
  | lambda fn =>
    obtain ⟨params, body⟩ := fn
    rw [List.mem_singleton.mp h]
    simp [loweredParts, parts]
  | literal | parameter | field | document => cases h
  | _ =>
    have hmem := List.mem_map_of_mem (f := withhold g d) h
    simpa [loweredParts, parts] using hmem

theorem not_settled_of_uses {e : Expr} (h : Uses (Lambda.root g d) e) :
    ¬ (e.withhold g d).IsSettled := by
  cases h with
  | here =>
    rw [withhold_root]
    rintro (h | h) <;> cases h
  | part hpart =>
    have hroot : e ≠ Lambda.root g d := by
      rintro rfl
      cases hpart
    rw [IsSettled, boundPath?_withhold, withhold_kind hroot]
    cases e with
    | literal | field | document => cases hpart
    | _ => rintro (h | h) <;> cases h

/-- Where an expression uses what is withheld, it can no longer be lowered. -/
theorem not_succeeds_of_uses {e : Expr} (h : Uses (Lambda.root g d) e) (paths : Path → Path) :
    ¬ ((e.withhold g d).lower unit paths).Succeeds := by
  induction h generalizing paths with
  | here =>
    rw [withhold_root]
    rintro ⟨x, hx⟩
    cases hx
  | part hpart hkept rest ih =>
    rintro ⟨x, hx⟩
    rcases lower_part hx (mem_loweredParts_withhold hpart hkept) with hsettled | ⟨paths', hlower⟩
    · exact not_settled_of_uses rest hsettled
    · exact ih paths' hlower

theorem selection?_withhold {source? : Option Path} {body : Expr}
    (h : body ≠ Lambda.root g d) :
    selection? paths source? (body.withhold g d) = selection? paths source? body := by
  cases body with
  | call receiver => cases receiver <;> cases source? <;> rfl
  | accumulate fn source selector =>
    rcases selector with _ | ⟨params, body⟩ <;> cases source? <;> rfl
  | lambda fn => obtain ⟨params, body⟩ := fn; cases source? <;> rfl
  | document inner path decoder => rw [withhold_document h]
  | _ => cases source? <;> rfl

private theorem lowerLoop_withhold {args : List Expr}
    (ih : ∀ params body, lambda ⟨params, body⟩ ∈ args → body ≠ Lambda.root g d ∧
      ∀ paths, (body.withhold g d).lower unit paths = body.lower unit paths) :
    lowerLoop unit paths (args.map (withhold g d)) = lowerLoop unit paths args := by
  match args with
  | [] => rfl
  | [_] => rfl
  | _ :: _ :: _ :: _ => simp only [List.map_cons, lowerLoop_eq_none_of_long]
  | [source, e] =>
    rcases lambda_or_kind_ne e with ⟨params, body, rfl⟩ | hkind
    · obtain ⟨hroot, hbody⟩ := ih params body (by simp)
      simp [lowerLoop, hbody, selection?_withhold hroot]
    · have hkind' : (e.withhold g d).kind ≠ .lambda := by
        by_cases h : e = Lambda.root g d
        · rw [h, withhold_root]
          simp [kind]
        · rwa [withhold_kind h]
      simp [lowerLoop_eq_none unit _ _ hkind, lowerLoop_eq_none unit _ _ hkind']

theorem not_uses_part {n e : Expr} (h : ¬ Uses n e) (hkept : ∀ fn ty, e ≠ accumulate fn n none ty)
    {part : Expr} (hpart : part ∈ e.loweredParts) : ¬ Uses n part :=
  fun hpart' => h (.part hpart hkept hpart')

private theorem lower_withhold_call {receiver : Option Expr} {method : String} {declaring ty : Ty}
    {args : List Expr}
    (hreceiver : declaring ≠ .enumerable → ∀ e, receiver = some e →
      (e.withhold g d).lower unit paths = e.lower unit paths)
    (hargs : ∀ e ∈ args, e.kind ≠ .lambda →
      (e.withhold g d).lower unit paths = e.lower unit paths)
    (hbodies : ∀ params body, lambda ⟨params, body⟩ ∈ args → body ≠ Lambda.root g d ∧
      ∀ paths, (body.withhold g d).lower unit paths = body.lower unit paths) :
    ((call receiver method declaring args ty).withhold g d).lower unit paths =
      (call receiver method declaring args ty).lower unit paths := by
  have hlowered : args.map (lower unit paths ∘ withhold g d) = args.map (lower unit paths) := by
    refine List.map_congr_left fun e he => ?_
    rcases lambda_or_kind_ne e with ⟨params, body, rfl⟩ | hkind
    · simp [lower]
    · exact hargs e he hkind
  have hcomparison : (args.getLast?.map (withhold g d)).bind comparison? =
      args.getLast?.bind comparison? := by
    cases args.getLast? <;> simp
  have hgroup : (args.head?.map (withhold g d)).any overGroup = args.head?.any overGroup := by
    cases args.head? <;> simp
  have hloop : lowerLoop unit paths (args.map (withhold g d)) = lowerLoop unit paths args :=
    lowerLoop_withhold hbodies
  cases receiver with
  | none => simp [lower, hlowered, hcomparison, hgroup, hloop]
  | some receiver =>
    simp only [withhold, withholdAll_eq_map, lower, lowerEach_eq_map, List.map_map, hlowered,
      List.getLast?_map, hcomparison, List.head?_map, hgroup, hloop]
    by_cases hdeclaring : declaring = .enumerable
    · -- The rule for sequences does not look at the receiver.
      have hfamily := (MethodCall.family_eq_sequence_iff declaring).mpr hdeclaring
      simp only [MethodCall.lower, hfamily, MethodCall.lowerSequence, MethodCall.unsupported]
    · simp [lowerReceiver, hreceiver hdeclaring receiver rfl]

/-- Where an expression does not use what is withheld, it is lowered to the same. -/
theorem lower_withhold {e : Expr} (h : ¬ Uses (Lambda.root g d) e) : ∀ paths,
    (e.withhold g d).lower unit paths = e.lower unit paths := by
  induction e with
  | literal value ty => intro paths; rfl
  | parameter p => intro paths; rfl
  | field path decoder ty => intro paths; rfl
  | document inner path decoder =>
    intro paths
    have hroot : document inner path decoder ≠ Lambda.root g d := fun heq => h (heq ▸ .here)
    rw [withhold_document hroot]
  | member target name declaring ty ih =>
    intro paths
    have htarget := ih (not_uses_part h (by simp) (by simp [loweredParts, parts]))
    simp [lower, htarget]
  | binary op left right ty ihl ihr =>
    intro paths
    have hleft := ihl (not_uses_part h (by simp) (by simp [loweredParts, parts]))
    have hright := ihr (not_uses_part h (by simp) (by simp [loweredParts, parts]))
    simp [lower, hleft, hright]
  | unary op operand ty ih =>
    intro paths
    have hoperand := ih (not_uses_part h (by simp) (by simp [loweredParts, parts]))
    simp [lower, hoperand]
  | conditional test ifTrue ifFalse ty iht iha ihb =>
    intro paths
    have htest := iht (not_uses_part h (by simp) (by simp [loweredParts, parts]))
    have hifTrue := iha (not_uses_part h (by simp) (by simp [loweredParts, parts]))
    have hifFalse := ihb (not_uses_part h (by simp) (by simp [loweredParts, parts]))
    simp [lower, htest, hifTrue, hifFalse]
  | call receiver method declaring args ty ihr iha ihb =>
    intro paths
    refine lower_withhold_call (fun hdeclaring e he => ?_) (fun e he hkind => ?_)
      (fun params body hmem => ?_)
    · exact ihr e he (not_uses_part h (by simp) (by simp [loweredParts, hdeclaring, he])) paths
    · refine iha e he (not_uses_part h (by simp) ?_) paths
      rw [loweredParts, List.mem_append]
      exact .inr (List.mem_map.mpr ⟨e, he, loweredArg_of_kind_ne hkind⟩)
    · have hbody : ¬ Uses (Lambda.root g d) body := by
        refine not_uses_part h (by simp) ?_
        rw [loweredParts, List.mem_append]
        exact .inr (List.mem_map.mpr ⟨_, hmem, rfl⟩)
      exact ⟨fun heq => hbody (heq ▸ .here), ihb params body hmem hbody⟩
  | lambda params body ih =>
    intro paths
    simp [lower]
  | construct ty parameters args members ih =>
    intro paths
    have hargs : args.map (lower unit paths ∘ withhold g d) = args.map (lower unit paths) :=
      List.map_congr_left fun e he => ih e he (not_uses_part h (by simp) he) paths
    simp [lower, hargs]
  | accumulate fn source selector ty ihs ihb =>
    intro paths
    rcases selector with _ | ⟨params, body⟩
    · by_cases hroot : source = Lambda.root g d
      · simp [isRoot_iff.mpr hroot]
      · have hsource := ihs (not_uses_part h (by simp [hroot]) (by simp [loweredParts]))
        have hisRoot : source.isRoot g d = false := by
          rwa [← Bool.not_eq_true, isRoot_iff]
        simp [lower, hisRoot, hsource]
    · have hbody := ihb params body rfl (not_uses_part h (by simp) (by simp [loweredParts]))
      simp [lower, hbody]

/-- A construction has the same fields without what is withheld just when it does not use it. -/
theorem lowerShape_withhold_iff {body : Expr} {shape : Entries Bson}
    (h : body.lowerShape unit = .ok shape) :
    (body.withhold g d).lowerShape unit = .ok shape ↔ ¬ Uses (Lambda.root g d) body := by
  cases body with
  | construct ty parameters args members =>
    constructor
    · intro hshape huses
      cases huses with
      | part hpart _ rest =>
        simp only [withhold, withholdAll_eq_map, lowerShape, List.map_map] at hshape
        obtain ⟨xs, hxs, -, -⟩ := shapeOf_cases hshape
        rw [List.forall₂_map_left_iff] at hxs
        obtain ⟨x, -, hx⟩ := exists_of_forall₂ hxs.flip hpart
        exact not_succeeds_of_uses rest id ⟨x, hx⟩
    · intro hnot
      have hargs : args.map (lower unit id ∘ withhold g d) = args.map (lower unit id) :=
        List.map_congr_left fun e he => lower_withhold (not_uses_part hnot nofun he) id
      simp only [withhold, withholdAll_eq_map, lowerShape, List.map_map, hargs]
      exact h
  | _ => cases h

end Expr

end QueryStage
