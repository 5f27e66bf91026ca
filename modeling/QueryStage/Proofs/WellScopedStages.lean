import QueryStage.Proofs.LoopHygiene
import QueryStage.Proofs.LoopVariables
import QueryStage.Proofs.RelatedLowering
import QueryStage.Proofs.StageParts
import QueryStage.Proofs.Withholding

/-!
# Variables in stages

A stage refers to a loop variable only in the body of the loop that declares it. Loops get their
variables at two times: over computed items the variable comes from binding, and over a bound array
the paths below the array are moved to it when the body is lowered. Both agree on which sources are
bound, and a loop that only selects a field needs no variable.
-/

namespace QueryStage

namespace Bson

/-- The field of an operator's argument in which the operator declares a variable. -/
def loopBody? : String → Option String
  | "$map" => some "in"
  | "$filter" => some "cond"
  | _ => none

/-- The variable that the argument of a loop names. -/
def binder? (fields : Entries Bson) : Option String :=
  match fields.get? "as" with
  | some (string v) => some v
  | _ => none

mutual

/-- The texts in the argument of an operator, each with the variables in scope where it stands. What
is quoted is left out. -/
def textsUnder (operator : String) (vars : List String) : Bson → List (List String × String)
  | string s => [(vars, s)]
  | array items => textsAmong vars items
  | document fields => textsOf (loopBody? operator) (binder? fields) vars fields
  | _ => []

def textsAmong (vars : List String) : List Bson → List (List String × String)
  | [] => []
  | b :: bs => b.textsUnder "" vars ++ textsAmong vars bs

def textsOf (body binder : Option String) (vars : List String) :
    List (String × Bson) → List (List String × String)
  | [] => []
  | (key, b) :: fields =>
    (if key = "$literal" then []
      else b.textsUnder key (if body = some key then binder.toList ++ vars else vars)) ++
      textsOf body binder vars fields

end

/-- Every variable that a text refers to is declared by a loop around it, unless it is the current
document. -/
def WellScoped (b : Bson) : Prop := ∀ text ∈ b.textsUnder "" [], VariableIn text.1 text.2

instance (b : Bson) : Decidable b.WellScoped :=
  inferInstanceAs (Decidable (∀ text ∈ b.textsUnder "" [], VariableIn text.1 text.2))

/-- In the argument of this operator, only these variables are referred to out of their loops. -/
def ReadsUnder (operator : String) (vars : List String) (b : Bson) : Prop :=
  ∀ vars', vars ⊆ vars' → ∀ text ∈ b.textsUnder operator vars', VariableIn text.1 text.2

/-- Wherever it stands, only these variables are referred to out of their loops. -/
def ReadsIn (vars : List String) (b : Bson) : Prop := ∀ operator, b.ReadsUnder operator vars

variable {vars : List String} {a b c : Bson}

theorem ReadsIn.wellScoped (h : b.ReadsIn []) : b.WellScoped :=
  h "" [] (List.Subset.refl [])

theorem readsIn_string {s : String} (h : VariableIn vars s) : (string s).ReadsIn vars := by
  intro operator vars' hsub text htext
  rw [List.mem_singleton.mp htext]
  exact h.mono hsub

theorem mem_textsAmong {text : List String × String} {items : List Bson} :
    text ∈ textsAmong vars items ↔ ∃ b ∈ items, text ∈ b.textsUnder "" vars := by
  induction items with
  | nil => simp [textsAmong]
  | cons b bs ih => simp [textsAmong, ih]

theorem readsIn_array {items : List Bson} :
    (array items).ReadsIn vars ↔ ∀ b ∈ items, b.ReadsUnder "" vars := by
  constructor
  · intro h b hb vars' hsub text htext
    exact h "" vars' hsub text (mem_textsAmong.mpr ⟨b, hb, htext⟩)
  · intro h operator vars' hsub text htext
    obtain ⟨b, hb, htext⟩ := mem_textsAmong.mp htext
    exact h b hb vars' hsub text htext

theorem mem_textsOf {body binder : Option String} {text : List String × String}
    {fields : Entries Bson} (h : text ∈ textsOf body binder vars fields) :
    ∃ field ∈ fields, field.1 ≠ "$literal" ∧
      ∃ vars', vars ⊆ vars' ∧ text ∈ field.2.textsUnder field.1 vars' := by
  induction fields with
  | nil => cases h
  | cons field fields ih =>
    obtain ⟨key, b⟩ := field
    rw [textsOf, List.mem_append] at h
    rcases h with h | h
    · split at h
      · cases h
      · rename_i hkey
        refine ⟨(key, b), List.mem_cons_self, hkey, _, ?_, h⟩
        split
        · exact List.subset_append_right _ _
        · exact List.Subset.refl _
    · obtain ⟨field, hfield, htext⟩ := ih h
      exact ⟨field, List.mem_cons_of_mem _ hfield, htext⟩

theorem readsIn_document {fields : Entries Bson}
    (h : ∀ field ∈ fields, field.1 ≠ "$literal" → field.2.ReadsUnder field.1 vars) :
    (document fields).ReadsIn vars := by
  intro operator vars' hsub text htext
  obtain ⟨field, hfield, hkey, inner, hinner, htext⟩ := mem_textsOf htext
  exact h field hfield hkey inner (fun x hx => hinner (hsub hx)) text htext

theorem readsIn_apply (operator : String) (h : b.ReadsUnder operator vars) :
    (apply operator b).ReadsIn vars :=
  readsIn_document (by simpa using fun _ => h)

theorem readsIn_quote (b : Bson) : (apply "$literal" b).ReadsIn vars :=
  readsIn_document (by simp)

theorem readsIn_applyAll (operator : String) {operands : List Bson}
    (h : ∀ b ∈ operands, b.ReadsUnder "" vars) : (applyAll operator operands).ReadsIn vars :=
  readsIn_apply operator (readsIn_array.mpr h operator)

theorem ReadsIn.of_applyAll {operator : String} (hoperator : operator ≠ "$literal")
    {operands : List Bson} (h : (applyAll operator operands).ReadsIn vars) :
    ∀ b ∈ operands, b.ReadsUnder "" vars := by
  intro b hb vars' hsub text htext
  apply h "" vars' hsub
  have hmem := mem_textsAmong.mpr ⟨b, hb, htext⟩
  simpa [applyAll, apply, textsUnder, textsOf, loopBody?, hoperator] using hmem

theorem readsIn_loop (kind : LoopKind) {binder : String} (hbinder : isName binder = true)
    (ha : a.ReadsIn vars) (hb : b.ReadsIn (binder :: vars)) :
    (kind.emit binder a b).ReadsIn vars := by
  have hfields {operator last : String} (hbody : loopBody? operator = some last)
      (hlast : last ≠ "input" ∧ last ≠ "as" ∧ last ≠ "$literal") :
      (document [("input", a), ("as", string binder), (last, b)]).ReadsUnder operator vars := by
    intro vars' hsub text htext
    have hbinder? : binder? [("input", a), ("as", string binder), (last, b)] = some binder := by
      simp [binder?, Entries.get?]
    simp only [textsUnder, textsOf, hbody, hbinder?, Option.some.injEq, hlast, if_true, if_false,
      Option.toList, List.cons_append, List.nil_append, List.append_nil, List.mem_append] at htext
    rcases htext with htext | htext | htext
    · exact ha _ vars' hsub text (by simpa using htext)
    · have hname : (string binder).ReadsIn vars := readsIn_string (variableIn_of_isName hbinder)
      exact hname "as" vars' hsub text (by simpa [textsUnder] using htext)
    · exact hb _ _ (List.cons_subset_cons binder hsub) text htext
  cases kind with
  | map => exact readsIn_apply "$map" (hfields rfl (by decide))
  | filter => exact readsIn_apply "$filter" (hfields rfl (by decide))

example : ¬ (LoopKind.map.emit "i" (string "$$i") (string "$$i.qty")).WellScoped := by decide

theorem readsIn_binary (op : BinaryOp) (ty : Ty) (ha : a.ReadsIn vars) (hb : b.ReadsIn vars) :
    (op.emit ty a b).ReadsIn vars := by
  rw [BinaryOp.emit_eq]
  apply readsIn_applyAll
  split
  · rename_i operands hchained
    have ha' : a = applyAll (op.operatorOn ty) operands := by
      split at hchained
      · exact eq_of_chained? hchained
      · cases hchained
    rw [ha'] at ha
    have hoperands := ha.of_applyAll (op.operatorOn_ne_literal ty)
    exact List.forall_mem_append.mpr ⟨hoperands, List.forall_mem_singleton.mpr (hb "")⟩
  · exact List.forall_mem_cons.mpr ⟨ha "", List.forall_mem_singleton.mpr (hb "")⟩

theorem readsIn_not (h : b.ReadsIn vars) : (UnaryOp.not.emit b).ReadsIn vars := by
  rw [UnaryOp.emit_not]
  split
  · exact readsIn_applyAll _ (List.forall_mem_singleton.mpr (h ""))
  · exact readsIn_apply _ (h _)

theorem readsIn_literal {value : Literal} {ty : Ty} (h : value.lower ty = .ok b) :
    b.ReadsIn vars := by
  cases value with
  | string s =>
    rw [Literal.lower, Except.ok.injEq] at h
    subst h
    split
    · exact readsIn_quote _
    · rename_i hs
      apply readsIn_string
      intro v hv
      rw [variableOf?_of_not_reference (by simpa using hs)] at hv
      cases hv
  | comparison => cases h
  | _ =>
    cases h
    intro operator vars' hsub text htext
    cases htext

theorem readsIn_current : (string "$$ROOT").ReadsIn vars := by
  apply readsIn_string
  intro v hv
  exact .inl (Option.some.inj hv).symm

/-- One value that refers to these variables only. -/
def SameIn (vars : List String) (a b : Bson) : Prop := a = b ∧ a.ReadsIn vars

theorem congruence_sameIn (vars : List String) : Congruence (SameIn vars) where
  literal h := ⟨rfl, readsIn_literal h⟩
  current := ⟨rfl, readsIn_current⟩
  array {as bs} h := by
    have hsame : as = bs := by
      induction h with
      | nil => rfl
      | cons hab _ ih => rw [hab.1, ih]
    subst hsame
    refine ⟨rfl, readsIn_array.mpr fun b hb => ?_⟩
    exact (List.forall₂_same.mp h b hb).2 ""
  document {as bs} h := by
    have hsame : as = bs ∧ ∀ field ∈ as, field.2.ReadsIn vars := by
      induction h with
      | nil => exact ⟨rfl, List.forall_mem_nil _⟩
      | cons key hab _ ih => exact ⟨by rw [hab.1, ih.1], List.forall_mem_cons.mpr ⟨hab.2, ih.2⟩⟩
    obtain ⟨rfl, hfields⟩ := hsame
    exact ⟨rfl, readsIn_document fun field hfield _ => hfields field hfield field.1⟩
  binary op ty a b c d hab hcd := by
    obtain ⟨rfl, ha⟩ := hab
    obtain ⟨rfl, hc⟩ := hcd
    exact ⟨rfl, readsIn_binary op ty ha hc⟩
  negated h := by
    obtain ⟨rfl, ha⟩ := h
    exact ⟨rfl, readsIn_not ha⟩

end Bson

/-- A map that keeps a path where it is, or moves it to where only these variables are read. -/
def Path.Moves (vars : List String) (paths : Path → Path) : Prop :=
  ∀ p, paths p = p ∨ (paths p).ReadsIn vars

namespace Path.Moves

variable {vars vars' : List String} {paths : Path → Path}

theorem id : Moves vars id := fun _ => .inl rfl

theorem mono (h : Moves vars paths) (hsub : vars ⊆ vars') : Moves vars' paths :=
  fun p => (h p).imp_right fun hp => hp.mono hsub

theorem readsIn (h : Moves vars paths) {p : Path} (hp : p.ReadsIn vars) :
    (paths p).ReadsIn vars := by
  rcases h p with hsame | hmoved
  · rwa [hsame]
  · exact hmoved

theorem loopPaths (h : Moves vars paths) (source? : Option Path) {params : List Parameter}
    (hnames : ∀ p ∈ params, isName p.name = true) :
    Moves (params.map Parameter.name ++ vars) (Expr.loopPaths paths source? params) := by
  have hpaths : Moves (params.map Parameter.name ++ vars) paths :=
    h.mono (List.subset_append_right _ _)
  unfold Expr.loopPaths
  split
  · rename_i source p
    intro q
    simp only [reroot, replaceRoot]
    split
    · have hvariable : (loopVariable p.name).ReadsIn ([p].map Parameter.name ++ vars) :=
        readsIn_loopVariable (hnames p (by simp)) (by simp)
      exact .inr (hvariable.append _)
    · exact hpaths q
  · exact hpaths

end Path.Moves

theorem MethodCall.lower_without_loop {c : MethodCall} (h : c.declaring ≠ .enumerable)
    (unit : StringUnit) : c.lower unit = { c with loop := none }.lower unit := by
  unfold lower
  dsimp only
  cases hfamily : MethodFamily.of c.declaring with
  | sequence => exact absurd ((family_eq_sequence_iff _).mp hfamily) h
  | _ => rfl

namespace Expr

open Bson (SameIn)

variable {unit : StringUnit} {vars : List String} {e : Expr}

/-- Where these variables or more are in scope and paths are moved to no others, no others are
emitted. -/
def LowersIn (unit : StringUnit) (vars : List String) (e : Expr) : Prop :=
  ∀ vars' paths, vars ⊆ vars' → Path.Moves vars' paths →
    Lifted (SameIn vars') (e.lower unit paths) (e.lower unit paths)

private theorem selection_sameIn {paths : Path → Path} {source body : Expr}
    (hpaths : Path.Moves vars paths)
    (hbody : ∀ path, source.boundPath? = some path → body.ReadsIn vars) :
    Option.Rel (Selection.Rel (SameIn vars))
      (selection? paths (source.boundPath?.map paths) body)
      (selection? paths (source.boundPath?.map paths) body) := by
  cases hsource : source.boundPath? with
  | none => exact .none
  | some path =>
    have hread := hbody path hsource
    unfold selection?
    split
    · rename_i at? p d ty _
      split
      · have hp : p.ReadsIn vars := hread.boundPath rfl
        exact .some (.field ⟨rfl, Bson.readsIn_string (hpaths.readsIn hp).reads⟩)
      · exact .none
    · split
      · exact .some .element
      · exact .none
    · exact .none

private theorem loop_sameIn {vars' : List String} {paths : Path → Path}
    (hsub : vars ⊆ vars') (hpaths : Path.Moves vars' paths) {source : Expr} {fn : Lambda}
    (hnames : ∀ p ∈ fn.params, isName p.name = true)
    (hbody : fn.body.ReadsIn (source.loopVars fn.params vars))
    (ih : fn.body.LowersIn unit (source.loopVars fn.params vars)) :
    Option.Rel (Loop.Rel (SameIn vars')) (lowerLoop unit paths [source, lambda fn])
      (lowerLoop unit paths [source, lambda fn]) := by
  obtain ⟨params, body⟩ := fn
  apply Option.Rel.some
  constructor
  · -- A selected field is emitted without a loop. Its source is bound, so no variable is read.
    apply selection_sameIn hpaths
    intro path hpath
    rw [loopVars_of_bound hpath] at hbody
    exact hbody.mono hsub
  · intro kind a b hab
    rcases params with _ | ⟨p, _ | ⟨q, params⟩⟩
    · exact .error _
    · have hscope : source.loopVars [p] vars ⊆ p.name :: vars' := by
        intro x hx
        exact List.cons_subset_cons p.name hsub (loopVars_subset hx)
      have hlower := ih _ _ hscope (hpaths.loopPaths (source.boundPath?.map paths) hnames)
      apply hlower.bind
      rintro c _ ⟨rfl, hc⟩
      apply hab.bind
      rintro input _ ⟨rfl, hinput⟩
      exact .ok ⟨rfl, Bson.readsIn_loop kind (hnames p (by simp)) hinput hc⟩
    · exact .error _

private theorem lowerLoop_sameIn {vars' : List String} {paths : Path → Path}
    (hsub : vars ⊆ vars') (hpaths : Path.Moves vars' paths) {args : List Expr}
    (hnames : ∀ source rest fn, args = source :: rest → lambda fn ∈ rest →
      ∀ p ∈ fn.params, isName p.name = true)
    (hloops : ∀ source rest fn, args = source :: rest → lambda fn ∈ rest →
      fn.body.ReadsIn (source.loopVars fn.params vars))
    (ih : ∀ source rest fn, args = source :: rest → lambda fn ∈ rest →
      fn.body.LowersIn unit (source.loopVars fn.params vars)) :
    Option.Rel (Loop.Rel (SameIn vars')) (lowerLoop unit paths args)
      (lowerLoop unit paths args) := by
  rcases args with _ | ⟨source, _ | ⟨a, _ | ⟨next, rest⟩⟩⟩
  · exact .none
  · exact .none
  · rcases lambda_or_kind_ne a with ⟨params, body, rfl⟩ | hkind
    · have hmem : lambda ⟨params, body⟩ ∈ [lambda ⟨params, body⟩] := List.mem_singleton_self _
      exact loop_sameIn hsub hpaths (hnames source _ _ rfl hmem) (hloops source _ _ rfl hmem)
        (ih source _ _ rfl hmem)
    · rw [lowerLoop_eq_none unit paths source hkind]
      exact .none
  · rw [lowerLoop_eq_none_of_long]
    exact .none

private theorem lowerEach_sameIn {vars' : List String} {paths : Path → Path} {args : List Expr}
    (h : ∀ a ∈ args, Lifted (SameIn vars') (a.lower unit paths) (a.lower unit paths)) :
    List.Forall₂ (Lifted (SameIn vars')) (lowerEach unit paths args)
      (lowerEach unit paths args) := by
  rw [lowerEach_eq_map, List.forall₂_map_left_iff, List.forall₂_map_right_iff, List.forall₂_same]
  exact h

/-- What is emitted for an expression refers to the variables that it reads. -/
theorem ReadsIn.lowersIn (unit : StringUnit) (h : e.ReadsIn vars) : e.LowersIn unit vars := by
  -- More variables may be in scope than binding knows of, since a loop over a bound source declares
  -- its own only now.
  induction h with
  | literal value ty =>
    intro vars' paths hsub hpaths
    exact (Lifted.refl _).ensuring fun b hb => Bson.readsIn_literal hb
  | parameter p =>
    intro vars' paths hsub hpaths
    exact .error _
  | member name declaring ty _ ih =>
    intro vars' paths hsub hpaths
    rw [lower]
    split
    · rename_i f hf
      apply (ih vars' paths hsub hpaths).bind
      exact fun a b hab => .ok ((Bson.congruence_sameIn vars').computed hf hab)
    · exact .error _
  | binary op ty _ _ ihl ihr =>
    intro vars' paths hsub hpaths
    apply (ihl vars' paths hsub hpaths).bind
    intro a b hab
    apply (ihr vars' paths hsub hpaths).bind
    exact fun c d hcd => .ok ((Bson.congruence_sameIn vars').binary op _ hab hcd)
  | unary op ty _ ih =>
    intro vars' paths hsub hpaths
    apply (ih vars' paths hsub hpaths).bind
    exact fun a b hab => .ok ((Bson.congruence_sameIn vars').unary op hab)
  | conditional ty _ _ _ iht iha ihb =>
    intro vars' paths hsub hpaths
    apply (iht vars' paths hsub hpaths).bind
    intro t t' ht
    apply (iha vars' paths hsub hpaths).bind
    intro a a' ha
    apply (ihb vars' paths hsub hpaths).bind
    intro b b' hb
    exact .ok ((Bson.congruence_sameIn vars').applyAll _ (.cons ht (.cons ha (.cons hb .nil))))
  | @call vars receiver method declaring args ty _ _ hnames hloops ihr iha ihl =>
    intro vars' paths hsub hpaths
    have hB := Bson.congruence_sameIn vars'
    have hreceiver : Option.Rel (Lifted (SameIn vars')) (lowerReceiver unit paths receiver)
        (lowerReceiver unit paths receiver) := by
      cases receiver with
      | none => exact .none
      | some e => exact .some (ihr e rfl vars' paths hsub hpaths)
    have hargs := lowerEach_sameIn fun a (ha : a ∈ args) => by
      rcases lambda_or_kind_ne a with ⟨params, body, rfl⟩ | hkind
      · exact .error _
      · exact iha a ha hkind vars' paths hsub hpaths
    rw [lower]
    by_cases hdeclaring : declaring = .enumerable
    · have hloop := lowerLoop_sameIn hsub hpaths (hnames hdeclaring) (hloops hdeclaring)
        (ihl hdeclaring)
      exact MethodCall.Rel.lower hB ⟨rfl, rfl, hreceiver, hargs, rfl, rfl, hloop⟩ unit
    · rw [MethodCall.lower_without_loop hdeclaring]
      exact MethodCall.Rel.lower hB ⟨rfl, rfl, hreceiver, hargs, rfl, rfl, .none⟩ unit
  | @lambda vars fn =>
    intro vars' paths hsub hpaths
    obtain ⟨params, body⟩ := fn
    exact .error _
  | construct ty members _ _ ih =>
    intro vars' paths hsub hpaths
    have hargs := lowerEach_sameIn fun a ha => ih a ha vars' paths hsub hpaths
    apply (shapeOf_rel ty _ hargs).bind
    exact fun as bs hs => .ok ((Bson.congruence_sameIn vars').emitShape hs)
  | @accumulate vars fn source selector ty _ _ _ ihs ihb =>
    intro vars' paths hsub hpaths
    rcases selector with _ | ⟨params, body⟩
    · apply (ihs vars' paths hsub hpaths).bind
      exact fun a b hab => .ok ((Bson.congruence_sameIn vars').apply _ hab)
    · apply (ihb _ rfl vars' paths hsub hpaths).bind
      exact fun a b hab => .ok ((Bson.congruence_sameIn vars').apply _ hab)
  | field ty hpath hd =>
    intro vars' paths hsub hpaths
    exact .ok ⟨rfl, Bson.readsIn_string (hpaths.readsIn (hpath.mono hsub)).reads⟩
  | element p hpath hd =>
    intro vars' paths hsub hpaths
    exact .ok ⟨rfl, Bson.readsIn_string (hpaths.readsIn (hpath.mono hsub)).reads⟩
  | current _ hd ih =>
    intro vars' paths hsub hpaths
    rw [lower]
    split
    · exact .ok ⟨rfl, Bson.readsIn_current⟩
    · exact ih vars' paths hsub hpaths

theorem ReadsIn.lowerShape (unit : StringUnit) (h : e.ReadsIn vars) :
    Lifted (Entries.Rel (SameIn vars)) (e.lowerShape unit) (e.lowerShape unit) := by
  cases h with
  | construct ty members hnames hargs =>
    have hlowered := lowerEach_sameIn fun a ha =>
      (hargs a ha).lowersIn unit vars id (List.Subset.refl vars) .id
    rw [lowerEach_eq_map] at hlowered
    exact shapeOf_rel ty _ hlowered
  | _ => exact .error _

end Expr

namespace Lambda

theorem readsIn_projectorScope (p : Parameter) {source : Decoder} (h : source.Named) :
    (projectorScope p source).ReadsIn [] := by
  have hempty : ({} : Scope).ReadsIn [] := by
    constructor
    · rintro x e ⟨⟩
    · rintro g ⟨⟩
    · rintro g ⟨⟩
  refine hempty.bind p.name (.current (.parameter p) h) ?_
  rintro x ⟨⟩

theorem readsIn_groupScope (g : Parameter) {source : Decoder} (h : source.Named) {key : Expr}
    (hkey : key.ReadsIn []) (hexposes : ¬ key.Exposes g.name) :
    (groupScope g source key).ReadsIn [] := by
  have hroot {x : String} {e : Expr} (he : (groupScope g source key).lookup x = some e) :
      e = root g (.array source) := by
    rcases Scope.lookup_bind_cases he with ⟨-, rfl⟩ | he
    · rfl
    · cases he
  constructor
  · intro x e he
    rw [hroot he]
    exact .current (.parameter g) h
  · rintro _ ⟨⟩
    exact hkey
  · rintro _ ⟨⟩
    constructor
    · exact congrArg Option.isSome (Scope.lookup_bind_self _ g.name _)
    · intro x e he
      rw [hroot he]
      rintro ⟨⟩
    · rintro _ ⟨⟩
      exact hexposes

theorem readsIn_of_bindProjector {ds : Decoders} (hds : ds.Named) {source : Decoder}
    (hsource : source.Named) {fn : Lambda} (hclean : fn.body.Clean) {bound : Expr}
    (h : fn.bindProjector ds source = .ok bound) : bound.ReadsIn [] := by
  obtain ⟨p, -, h⟩ := bindProjector_cases h
  apply Expr.bindsReading_of_clean hds hclean [] _ bound (readsIn_projectorScope p hsource) _ h
  rintro g ⟨⟩

end Lambda

namespace Stage

theorem readsIn_of_keyOf {ds : Decoders} (hds : ds.Named) {bound key : Expr}
    (hbound : bound.ReadsIn []) (h : keyOf ds bound = .ok key) : key.ReadsIn [] := by
  rcases keyOf_cases h with ⟨-, rfl⟩ | ⟨_, _, _, _, d, -, hd, rfl⟩ | ⟨d, -, hd, rfl⟩
  · exact hbound
  · exact .current hbound (hbound.named_decoder hds d hd)
  · exact .current hbound (hbound.named_decoder hds d hd)

/-- A stage whose fields refer to no variables but in their loops. -/
theorem wellScoped_of_specification {stage : Stage}
    (h : stage.specification.Rel (Bson.SameIn []) stage.specification) :
    stage.document.WellScoped := by
  have hB := Bson.congruence_sameIn []
  have hdocument := hB.apply stage.kind.operator (hB.document h)
  exact hdocument.2.wellScoped

theorem ofProjector_wellScoped {ds : Decoders} (hds : ds.Named) {options : Options}
    {source : Decoder} (hsource : source.Named) {projector : Lambda}
    (hclean : projector.body.Clean) {stage : Stage}
    (h : ofProjector ds options source projector = .ok stage) : stage.document.WellScoped := by
  obtain ⟨body, shape, hbody, -, hshape, hspecification⟩ := ofProjector_cases h
  have hreads := Lambda.readsIn_of_bindProjector hds hsource hclean hbody
  obtain ⟨shape', hshape', hrel⟩ := (hreads.lowerShape options.stringUnit).exists_ok hshape
  cases hshape.symm.trans hshape'
  apply wellScoped_of_specification
  rw [hspecification]
  exact projection_rel (Bson.congruence_sameIn []) hrel

theorem ofGroup_wellScoped {ds : Decoders} (hds : ds.Named) {options : Options}
    {source : Decoder} (hsource : source.Named) {keySelector projector : Lambda}
    (hkeyClean : keySelector.body.Clean) (hclean : projector.body.Clean)
    (hgrouping : ∀ g ∈ projector.params, g.name ∉ projector.body.binders) {stage : Stage}
    (h : ofGroup ds options source keySelector projector = .ok stage) :
    stage.document.WellScoped := by
  obtain ⟨bound, key, keyValue, body, shape, hbound, hkeyOf, hvalue, hbody, hshape,
    hspecification⟩ := ofGroup_cases h
  have hkey := readsIn_of_keyOf hds
    (Lambda.readsIn_of_bindProjector hds hsource hkeyClean hbound) hkeyOf
  obtain ⟨g, hparams, hbody⟩ := Lambda.bindGroupProjector_cases hbody
  -- The key is emitted, so it hands out no bare parameter that is called as the grouping.
  have hscope : (Lambda.groupScope g source key).ReadsIn [] :=
    Lambda.readsIn_groupScope g hsource hkey fun hexposes => hexposes.not_lowered hkey hvalue
  have hreads : body.ReadsIn [] := by
    apply Expr.bindsReading_of_clean hds hclean [] _ body hscope _ hbody
    rintro _ ⟨⟩
    exact hgrouping g (by simp [hparams])
  obtain ⟨keyValue', hvalue', hkeyRel⟩ :=
    (hkey.lowersIn options.stringUnit [] id (List.Subset.refl []) .id).exists_ok hvalue
  cases hvalue.symm.trans hvalue'
  obtain ⟨shape', hshape', hrel⟩ := (hreads.lowerShape options.stringUnit).exists_ok hshape
  cases hshape.symm.trans hshape'
  apply wellScoped_of_specification
  rw [hspecification]
  exact grouping_rel hkeyRel hrel

/-- In every stage that is made, a variable is referred to only in the body of a loop that declares
it. The lambdas are written ones, lambdas, decoders and constructions use names, sequence methods
have no receiver, and no lambda of a group projector is called as its grouping. -/
theorem variables_within_loops {ds : Decoders} (hds : ds.Named) (options : Options)
    {source : Decoder} (hsource : source.Named) :
    (∀ projector stage, projector.body.Clean →
      ofProjector ds options source projector = .ok stage → stage.document.WellScoped) ∧
    ∀ keySelector projector stage, keySelector.body.Clean → projector.body.Clean →
      (∀ g ∈ projector.params, g.name ∉ projector.body.binders) →
        ofGroup ds options source keySelector projector = .ok stage →
          stage.document.WellScoped := by
  constructor
  · intro projector stage hclean h
    exact ofProjector_wellScoped hds hsource hclean h
  · intro keySelector projector stage hkey hclean hgrouping h
    exact ofGroup_wellScoped hds hsource hkey hclean hgrouping h

end Stage

namespace Orders

open QueryStage.Expr

theorem named_registry : (registry : Decoders).Named := by
  apply Registry.named_decoders
  decide

/-- The large items, each with the number of items whose quantity is above its own. -/
def ranking : Lambda where
  params := [ofOrder "o"]
  body := named (.record "Ranking")
    [("Ranks", sequenceCall "Select" largeItems
      [lambda ⟨[ofItem "j"], sequenceCall "Count" (itemsOf "o")
        [lambda ⟨[ofItem "k"], binary .greaterThan (quantityOf "k") (quantityOf "j") .boolean⟩]
        .int32⟩] (.array .int32))]

def byLarge : Lambda :=
  ⟨[ofOrder "o"], sequenceCall "Select" largeItems [lambda ⟨[ofItem "i"], quantityOf "i"⟩]
    (.array .int32)⟩

/-- The large quantities that a group has in common, and for each of its orders all quantities
doubled. -/
def doubled : Lambda where
  params := [ofGroup "g" (.array .int32)]
  body := named (.record "Doubled")
    [("Large", access (parameter (ofGroup "g" (.array .int32))) "Key" (.array .int32)),
      ("Doubled", sequenceCall "Select" (parameter (ofGroup "g" (.array .int32)))
        [lambda ⟨[ofOrder "p"], sequenceCall "Select" (itemsOf "p")
          [lambda ⟨[ofItem "i"], binary .add (quantityOf "i") (quantityOf "i") .int32⟩]
          (.array .int32)⟩] (.array (.array .int32)))]

/-- The variable of the outer loop is read in the inner one, and the loops of a key and of an
accumulator have a variable of the same name. -/
theorem ranking_within_loops :
    source.Named ∧ ranking.body.Clean ∧ byLarge.body.Clean ∧ doubled.body.Clean ∧
      (∃ stage, Stage.ofProjector registry {} source ranking = .ok stage ∧
        (["k", "j"], "$$j.qty") ∈ stage.document.textsUnder "" [] ∧ stage.document.WellScoped) ∧
      ∃ stage, Stage.ofGroup registry {} source byLarge doubled = .ok stage ∧
        (["i"], "$$i.qty") ∈ stage.document.textsUnder "" [] ∧ stage.document.WellScoped := by
  have hsource : source.Named := by decide
  have hranking : ranking.body.Clean := by decide
  have hbyLarge : byLarge.body.Clean := by decide
  have hdoubled : doubled.body.Clean := by decide
  obtain ⟨hproject, hgroup⟩ := Stage.variables_within_loops named_registry {} hsource
  refine ⟨hsource, hranking, hbyLarge, hdoubled, ⟨_, rfl, ?_, hproject _ _ hranking rfl⟩,
    ⟨_, rfl, ?_, hgroup _ _ _ hbyLarge hdoubled (by decide) rfl⟩⟩
  · decide +kernel
  · decide +kernel

end Orders

end QueryStage
