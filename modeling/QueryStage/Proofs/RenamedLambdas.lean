import QueryStage.Proofs.RenamedLoops

/-!
# Renaming the parameter of one lambda

One lambda among the arguments of a call takes another name for its parameter, where it declares it
and where its body refers to it, and the rest of the expression stays. Lambdas in the body that
declare the old name again keep it. If the new name occurs nowhere else, the old one in its place
gives the first expression back, and the new name is used in its scope only.
-/

namespace QueryStage

namespace Expr

theorem mem_names_of_free {e : Expr} {x : String} (h : x ∈ e.free) : x ∈ e.names := by
  induction e using induct_parts with
  | step e ih =>
    rcases free_of_part h with ⟨p, rfl, rfl⟩ | ⟨part, hpart, hx⟩
    · exact mem_names_parameter p
    · exact mem_names_of_part hpart (ih part hpart hx)

variable {strict : Bool} {v w : String} {closed : List String} {e e' : Expr}

/-- A lambda that does not declare `w` keeps its parameters apart, unless `w` is in its body and it
declares `v`. -/
theorem separates_of_not_mem {params : List Parameter} {body : Expr}
    (hclosed : ∀ x ∈ closed, x ∉ params.map Parameter.name)
    (hparams : w ∉ params.map Parameter.name)
    (h : w ∉ body.free ∨ v ∉ params.map Parameter.name) :
    Lambda.Separates (.ofNames w v closed) ⟨params, body⟩ := by
  intro p hp
  have hmem : p.name ∈ params.map Parameter.name := List.mem_map_of_mem hp
  refine ⟨fun hx => hclosed _ hx hmem, fun x hx hxp => ?_⟩
  rw [Relocation.name_ofNames, replacing_of_ne (ne_of_mem_of_not_mem hmem hparams)] at hxp
  by_cases hxw : x = w
  · rw [hxw, replacing_self] at hxp
    rcases h with h | h
    · exact absurd (hxw ▸ hx) h
    · exact absurd (hxp ▸ hmem) h
  · rwa [replacing_of_ne hxw] at hxp

/-- The lambda that a node is, or has as its selector. -/
def ownLambda? : Expr → Option Lambda
  | lambda fn => some fn
  | accumulate _ _ (some fn) _ => some fn
  | _ => none

theorem ownLambda?_cases {fn : Lambda} (h : e.ownLambda? = some fn) :
    e.declared = fn.params.map Parameter.name ∧ fn.body ∈ e.parts := by
  cases e with
  | lambda => cases h; exact ⟨rfl, by simp [parts]⟩
  | accumulate _ _ selector =>
    cases selector with
    | none => cases h
    | some => cases h; exact ⟨rfl, by simp [parts]⟩
  | _ => cases h

theorem ownLambda?_renameFree {fn : Lambda} (h : (e.renameFree v w).ownLambda? = some fn)
    (hv : v ∈ fn.params.map Parameter.name) : fn.body ∈ e.parts := by
  cases e with
  | call receiver => cases receiver <;> cases h
  | lambda fn' =>
    obtain ⟨params, body⟩ := fn'
    cases h
    exact (if_pos hv).symm ▸ List.mem_singleton_self body
  | accumulate _ _ selector =>
    rcases selector with _ | ⟨params, body⟩
    · cases h
    · cases h
      rw [show (_ : Expr) = _ from if_pos hv]
      simp [parts]
  | _ => cases h

theorem fits_of_separates (h : e.Renamable v w)
    (hlambda : ∀ fn, e.ownLambda? = some fn → fn.Separates (.ofNames w v closed)) :
    e.Fits (.ofNames w v closed) := by
  obtain ⟨hunbound, hbare⟩ := h
  cases e with
  | lambda fn => exact hlambda fn rfl
  | accumulate fn source selector ty =>
    cases selector with
    | none => exact Relocation.keepsItem_ofNames fun hw => hbare rfl (by simp [hw])
    | some fn => exact hlambda fn rfl
  | field | document => cases hunbound
  | _ => trivial

theorem fits_of_not_mem (he : e.All (Renamable v w)) (hw : w ∉ e.names)
    (hclosed : ∀ x ∈ closed, x ∉ e.binders) : e.All (Fits (.ofNames w v closed)) := by
  induction e using induct_parts with
  | step e ih =>
    refine all_iff.mpr ⟨fits_of_separates he.self fun fn hfn => ?_,
      fun part hpart => ih part hpart (he.part hpart) (not_mem_names_of_part hw hpart) ?_⟩
    · obtain ⟨hparams, hbody⟩ := ownLambda?_cases hfn
      refine separates_of_not_mem (fun x hx h => ?_) (fun h => ?_) (.inl fun h => ?_)
      · exact hclosed x hx (mem_binders_of_declared (hparams ▸ h))
      · exact hw (mem_names_of_declared (hparams ▸ h))
      · exact hw (mem_names_of_part hbody (mem_names_of_free h))
    · exact fun x hx hmem => hclosed x hx (mem_binders_of_part hpart hmem)

/-- An expression still fits with the new name in place of the old one. Where a lambda declares the
old name, the new one is not in its body. -/
theorem fits_renameFree (he : (e.renameFree v w).All (Renamable v w)) (hw : w ∉ e.names)
    (hclosed : ∀ x ∈ closed, x ∉ e.binders) :
    (e.renameFree v w).All (Fits (.ofNames w v closed)) := by
  induction e using induct_parts with
  | step e ih =>
    refine all_iff.mpr ⟨fits_of_separates he.self fun fn hfn => ?_, fun part hpart => ?_⟩
    · have hparams := (ownLambda?_cases hfn).1
      rw [declared_renameFree] at hparams
      refine separates_of_not_mem (fun x hx h => ?_) (fun h => ?_) ?_
      · exact hclosed x hx (mem_binders_of_declared (hparams ▸ h))
      · exact hw (mem_names_of_declared (hparams ▸ h))
      · by_cases hv : v ∈ fn.params.map Parameter.name
        · have hbody := ownLambda?_renameFree hfn hv
          exact .inl fun h => hw (mem_names_of_part hbody (mem_names_of_free h))
        · exact .inr hv
    · have hbelow {part' : Expr} (hpart' : part' ∈ e.parts) : ∀ x ∈ closed, x ∉ part'.binders :=
        fun x hx hmem => hclosed x hx (mem_binders_of_part hpart' hmem)
      obtain ⟨part', hpart', rfl | rfl⟩ := parts_renameFree hpart
      · exact ih part' hpart' (he.part hpart) (not_mem_names_of_part hw hpart') (hbelow hpart')
      · exact fits_of_not_mem (he.part hpart) (not_mem_names_of_part hw hpart') (hbelow hpart')

/-- The expression with one operand replaced. -/
inductive Replaces (a a' : Expr) : Expr → Expr → Prop
  | target (name : String) (declaring ty : Ty) :
    Replaces a a' (member a name declaring ty) (member a' name declaring ty)
  | left (op : BinaryOp) (right : Expr) (ty : Ty) :
    Replaces a a' (binary op a right ty) (binary op a' right ty)
  | right (op : BinaryOp) (left : Expr) (ty : Ty) :
    Replaces a a' (binary op left a ty) (binary op left a' ty)
  | operand (op : UnaryOp) (ty : Ty) : Replaces a a' (unary op a ty) (unary op a' ty)
  | test (ifTrue ifFalse : Expr) (ty : Ty) :
    Replaces a a' (conditional a ifTrue ifFalse ty) (conditional a' ifTrue ifFalse ty)
  | ifTrue (test ifFalse : Expr) (ty : Ty) :
    Replaces a a' (conditional test a ifFalse ty) (conditional test a' ifFalse ty)
  | ifFalse (test ifTrue : Expr) (ty : Ty) :
    Replaces a a' (conditional test ifTrue a ty) (conditional test ifTrue a' ty)
  | receiver (method : String) (declaring : Ty) (args : List Expr) (ty : Ty) :
    Replaces a a' (call (some a) method declaring args ty)
      (call (some a') method declaring args ty)
  | argument (receiver : Option Expr) (method : String) (declaring : Ty)
    (before after : List Expr) (ty : Ty) :
    Replaces a a' (call receiver method declaring (before ++ a :: after) ty)
      (call receiver method declaring (before ++ a' :: after) ty)
  | component (ty : Ty) (parameters : List String) (before after : List Expr)
    (members : Option (List String)) :
    Replaces a a' (construct ty parameters (before ++ a :: after) members)
      (construct ty parameters (before ++ a' :: after) members)
  | source (fn : AccumulatorFn) (selector : Option Lambda) (ty : Ty) :
    Replaces a a' (accumulate fn a selector ty) (accumulate fn a' selector ty)

namespace Replaces

variable {a a' : Expr}

theorem parts_eq (h : Replaces a a' e e') :
    ∃ before after, e.parts = before ++ a :: after ∧ e'.parts = before ++ a' :: after := by
  cases h with
  | right _ left => exact ⟨[left], [], rfl, rfl⟩
  | ifTrue test ifFalse => exact ⟨[test], [ifFalse], rfl, rfl⟩
  | ifFalse test ifTrue => exact ⟨[test, ifTrue], [], rfl, rfl⟩
  | argument receiver _ _ before after =>
    exact ⟨receiver.toList ++ before, after, by simp [parts], by simp [parts]⟩
  | component _ _ before after => exact ⟨before, after, rfl, rfl⟩
  | source fn selector =>
    cases selector with
    | none => exact ⟨[], [], rfl, rfl⟩
    | some selector => exact ⟨[], [selector.body], rfl, rfl⟩
  | _ => exact ⟨[], _, rfl, rfl⟩

theorem mem_parts (h : Replaces a a' e e') : a ∈ e.parts := by
  obtain ⟨before, after, hparts, -⟩ := h.parts_eq
  simp [hparts]

theorem mem_replaced (h : Replaces a a' e e') : a' ∈ e'.parts := by
  obtain ⟨before, after, -, hparts⟩ := h.parts_eq
  simp [hparts]

theorem part_cases (h : Replaces a a' e e') {part : Expr} (hpart : part ∈ e'.parts) :
    part = a' ∨ part ∈ e.parts := by
  obtain ⟨before, after, hparts, hparts'⟩ := h.parts_eq
  rw [hparts', List.mem_append, List.mem_cons] at hpart
  rw [hparts, List.mem_append, List.mem_cons]
  tauto

theorem not_parameter (h : Replaces a a' e e') : e'.kind ≠ .parameter := by
  cases h <;> nofun

theorem ownLambda?_eq (h : Replaces a a' e e') : e'.ownLambda? = e.ownLambda? := by
  cases h with
  | source fn selector => cases selector <;> rfl
  | _ => rfl

theorem rename_eq (h : Replaces a a' e e') (ha : a'.rename (replacing w v) = a)
    (hw : w ∉ e.names) : e'.rename (replacing w v) = e := by
  have hparts (part : Expr) (hpart : part ∈ e.parts) : part.rename (replacing w v) = part :=
    rename_of_not_mem (not_mem_names_of_part hw hpart) v
  have all {es : List Expr} (hes : ∀ part ∈ es, part.rename (replacing w v) = part) :
      es.map (rename (replacing w v)) = es :=
    (List.map_congr_left hes).trans (List.map_id' es)
  cases h with
  | receiver method declaring args ty =>
    rw [rename, ha, renameAll_eq_map, all fun part hpart => hparts part (by simp [parts, hpart])]
  | argument receiver method declaring before after ty =>
    cases receiver with
    | none => simp_all [rename, parts]
    | some receiver => simp_all [rename, parts]
  | component => simp_all [rename, parts]
  | source fn selector ty =>
    rcases selector with _ | ⟨params, body⟩
    · rw [rename, ha]
    · have hparams : w ∉ params.map Parameter.name := fun h => hw (mem_names_of_declared h)
      rw [rename, ha, hparts body (by simp [parts]), map_rename_of_not_mem hparams]
  | _ => simp_all [rename, parts]

theorem fits (h : Replaces a a' e e') (hw : w ∉ e.names) (he : e.All (Renamable v w))
    (he' : e'.Renamable v w) (hclosed : ∀ x ∈ closed, x ∉ e.binders)
    (ha : a'.All (Fits (.ofNames w v closed))) : e'.All (Fits (.ofNames w v closed)) := by
  refine all_iff.mpr ⟨fits_of_separates he' fun fn hfn => ?_, fun part hpart => ?_⟩
  · rw [h.ownLambda?_eq] at hfn
    obtain ⟨hparams, hbody⟩ := ownLambda?_cases hfn
    refine separates_of_not_mem (fun x hx h => ?_) (fun h => ?_) (.inl fun h => ?_)
    · exact hclosed x hx (mem_binders_of_declared (hparams ▸ h))
    · exact hw (mem_names_of_declared (hparams ▸ h))
    · exact hw (mem_names_of_part hbody (mem_names_of_free h))
  · rcases h.part_cases hpart with rfl | hmem
    · exact ha
    · refine fits_of_not_mem (he.part hmem) (not_mem_names_of_part hw hmem) fun x hx hbound => ?_
      exact hclosed x hx (mem_binders_of_part hmem hbound)

end Replaces

/-- The second expression has `w` as the name of the parameter `v` of a lambda, where it is declared
and wherever it is not declared again. The lambda with this body is an argument of a call, and
`outer` are the names that the lambdas around it declare. -/
inductive RenamesLambda (v : Parameter) (w : String) (body : Expr) :
    List String → Expr → Expr → Prop
  | here (receiver : Option Expr) (method : String) (declaring : Ty) (before after : List Expr)
    (ty : Ty) :
    RenamesLambda v w body []
      (call receiver method declaring (before ++ lambda ⟨[v], body⟩ :: after) ty)
      (call receiver method declaring
        (before ++ lambda ⟨[⟨w, v.ty⟩], body.renameFree v.name w⟩ :: after) ty)
  | lambda {outer : List String} {e e' : Expr} (params : List Parameter)
    (h : RenamesLambda v w body outer e e') :
    RenamesLambda v w body (outer ++ params.map Parameter.name) (lambda ⟨params, e⟩)
      (lambda ⟨params, e'⟩)
  | selector {outer : List String} {e e' : Expr} (fn : AccumulatorFn) (source : Expr)
    (params : List Parameter) (ty : Ty) (h : RenamesLambda v w body outer e e') :
    RenamesLambda v w body (outer ++ params.map Parameter.name)
      (accumulate fn source (some ⟨params, e⟩) ty) (accumulate fn source (some ⟨params, e'⟩) ty)
  | part {outer : List String} {a a' e e' : Expr} (h : RenamesLambda v w body outer a a')
    (hpart : Replaces a a' e e') : RenamesLambda v w body outer e e'

namespace RenamesLambda

variable {v : Parameter} {body : Expr} {outer : List String}

theorem mem_names (h : RenamesLambda v w body outer e e') : v.name ∈ e.names := by
  induction h with
  | here receiver method declaring before after ty =>
    have hlambda : v.name ∈ (Expr.lambda ⟨[v], body⟩).names :=
      mem_names_of_declared (by simp [declared])
    exact mem_names_of_part (by simp [parts]) hlambda
  | lambda params _ ih => exact mem_names_of_part (by simp [parts]) ih
  | selector fn source params ty _ ih => exact mem_names_of_part (by simp [parts]) ih
  | part _ hpart ih => exact mem_names_of_part hpart.mem_parts ih

theorem name_ne (h : RenamesLambda v w body outer e e') (hw : w ∉ e.names) : v.name ≠ w :=
  ne_of_mem_of_not_mem h.mem_names hw

theorem replaces_argument (v : Parameter) (w : String) (body : Expr) (receiver : Option Expr)
    (method : String) (declaring : Ty) (before after : List Expr) (ty : Ty) :
    Replaces (Expr.lambda ⟨[v], body⟩) (Expr.lambda ⟨[⟨w, v.ty⟩], body.renameFree v.name w⟩)
      (call receiver method declaring (before ++ Expr.lambda ⟨[v], body⟩ :: after) ty)
      (call receiver method declaring
        (before ++ Expr.lambda ⟨[⟨w, v.ty⟩], body.renameFree v.name w⟩ :: after) ty) :=
  .argument receiver method declaring before after ty

theorem rename_eq (h : RenamesLambda v w body outer e e') (hw : w ∉ e.names) :
    e'.rename (replacing w v.name) = e := by
  induction h with
  | here receiver method declaring before after ty =>
    have hreplaces := replaces_argument v w body receiver method declaring before after ty
    refine hreplaces.rename_eq ?_ hw
    have hlambda := not_mem_names_of_part hw hreplaces.mem_parts
    rw [rename, rename_renameFree (not_mem_names_of_part hlambda (by simp [parts]))]
    simp [Parameter.rename, replacing_self]
  | lambda params _ ih =>
    have hparams : w ∉ params.map Parameter.name := fun h => hw (mem_names_of_declared h)
    rw [rename, ih (not_mem_names_of_part hw (by simp [parts])), map_rename_of_not_mem hparams]
  | selector fn source params ty _ ih =>
    have hparams : w ∉ params.map Parameter.name := fun h => hw (mem_names_of_declared h)
    have hsource : w ∉ source.names := not_mem_names_of_part hw (by simp [parts])
    rw [rename, ih (not_mem_names_of_part hw (by simp [parts])), map_rename_of_not_mem hparams,
      rename_of_not_mem hsource]
  | part _ hpart ih =>
    exact hpart.rename_eq (ih (not_mem_names_of_part hw hpart.mem_parts)) hw

theorem renamable (h : RenamesLambda v w body outer e e') (hw : w ∉ e.names)
    (he : e.All (Renamable v.name w)) : e'.All (Renamable v.name w) := by
  rw [← h.rename_eq hw] at he
  exact Renamable.of_rename he

theorem not_mem_free (h : RenamesLambda v w body outer e e') (hw : w ∉ e.names) :
    w ∉ e'.free := by
  have fresh {e part : Expr} (hw : w ∉ e.names) (hpart : part ∈ e.parts) : w ∉ part.free :=
    fun hx => hw (mem_names_of_part hpart (mem_names_of_free hx))
  induction h with
  | here receiver method declaring before after ty =>
    intro hx
    rcases mem_free_call hx with ⟨target, rfl, htarget⟩ | hargs
    · exact fresh hw (by simp [parts]) htarget
    · obtain ⟨a, ha, hx, hne⟩ := mem_freeArgs hargs
      rcases List.mem_append.mp ha with ha | ha
      · exact fresh hw (by simp [parts, ha]) hx
      · rcases List.mem_cons.mp ha with rfl | ha
        · exact hne _ _ rfl rfl
        · exact fresh hw (by simp [parts, ha]) hx
  | lambda params _ ih => exact ih (not_mem_names_of_part hw (by simp [parts]))
  | selector fn source params ty _ ih =>
    intro hx
    rcases List.mem_append.mp hx with hx | hx
    · exact fresh hw (by simp [parts]) hx
    · exact ih (not_mem_names_of_part hw (by simp [parts])) (mem_of_outside hx).1
  | part _ hpart ih =>
    intro hx
    rcases free_of_part hx with ⟨p, rfl, -⟩ | ⟨part, hmem, hx⟩
    · exact hpart.not_parameter rfl
    · rcases hpart.part_cases hmem with rfl | hmem
      · exact ih (not_mem_names_of_part hw hpart.mem_parts) hx
      · exact fresh hw hmem hx

/-- No lambda takes a name for its parameter that its body has for another one, if what is left of
the old name in the renamed lambda is declared there. -/
theorem fits (h : RenamesLambda v w body outer e e') (hw : w ∉ e.names)
    (he : e.All (Renamable v.name w)) (hfree : v.name ∉ (body.renameFree v.name w).free)
    (hclosed : ∀ x ∈ closed, x ≠ w ∧ x ∉ e.binders) :
    e'.All (Fits (.ofNames w v.name closed)) := by
  have he' := h.renamable hw he
  have below {e part : Expr} (hclosed : ∀ x ∈ closed, x ≠ w ∧ x ∉ e.binders)
      (hpart : part ∈ e.parts) : ∀ x ∈ closed, x ≠ w ∧ x ∉ part.binders :=
    fun x hx => ⟨(hclosed x hx).1, fun hmem => (hclosed x hx).2 (mem_binders_of_part hpart hmem)⟩
  -- A lambda around the renamed one does not declare the new name, which is not free in it either.
  have around {e e' : Expr} {outer : List String} (h : RenamesLambda v w body outer e e')
      {n : Expr} {params : List Parameter} (hn : n.declared = params.map Parameter.name)
      (hwn : w ∉ n.names) (hpart : e ∈ n.parts) (hclosed : ∀ x ∈ closed, x ≠ w ∧ x ∉ n.binders) :
      Lambda.Separates (.ofNames w v.name closed) ⟨params, e'⟩ := by
    refine separates_of_not_mem (fun x hx h => ?_) (fun h => ?_)
      (.inl (h.not_mem_free (not_mem_names_of_part hwn hpart)))
    · exact (hclosed x hx).2 (mem_binders_of_declared (hn ▸ h))
    · exact hwn (mem_names_of_declared (hn ▸ h))
  induction h with
  | here receiver method declaring before after ty =>
    have hvw := (here receiver method declaring before after ty).name_ne hw
    have hreplaces := replaces_argument v w body receiver method declaring before after ty
    have hlambda := not_mem_names_of_part hw hreplaces.mem_parts
    have hbody : body ∈ (Expr.lambda ⟨[v], body⟩).parts := by simp [parts]
    refine hreplaces.fits hw he he'.self (fun x hx => (hclosed x hx).2)
      (all_iff.mpr ⟨fun p hp => ?_, fun part hpart => ?_⟩)
    · rw [List.mem_singleton.mp hp]
      refine ⟨fun hx => (hclosed w hx).1 rfl, fun x hx hxw => ?_⟩
      rw [Relocation.name_ofNames, replacing_self] at hxw
      by_contra hne
      rw [replacing_of_ne hne] at hxw
      exact hfree (hxw ▸ hx)
    · have he' := he'.part hreplaces.mem_replaced
      rw [List.mem_singleton.mp hpart]
      exact fits_renameFree (he'.part (by simp [parts])) (not_mem_names_of_part hlambda hbody)
        fun x hx => (below (below hclosed hreplaces.mem_parts) hbody x hx).2
  | @lambda outer e e' params h ih =>
    refine all_iff.mpr ⟨around h rfl hw (by simp [parts]) hclosed, fun part hpart => ?_⟩
    rw [List.mem_singleton.mp hpart]
    have hpart : e ∈ (Expr.lambda ⟨params, e⟩).parts := by simp [parts]
    exact ih (not_mem_names_of_part hw hpart) (he.part hpart) (below hclosed hpart)
      (he'.part (by simp [parts]))
  | @selector outer e e' fn source params ty h ih =>
    have hsource : source ∈ (accumulate fn source (some ⟨params, e⟩) ty).parts := by simp [parts]
    have hpart : e ∈ (accumulate fn source (some ⟨params, e⟩) ty).parts := by simp [parts]
    refine all_iff.mpr ⟨around h rfl hw hpart hclosed, fun part hmem => ?_⟩
    rcases List.mem_pair.mp hmem with rfl | rfl
    · exact fits_of_not_mem (he.part hsource) (not_mem_names_of_part hw hsource)
        fun x hx => (below hclosed hsource x hx).2
    · exact ih (not_mem_names_of_part hw hpart) (he.part hpart) (below hclosed hpart)
        (he'.part (by simp [parts]))
  | part _ hpart ih =>
    have ha := not_mem_names_of_part hw hpart.mem_parts
    exact hpart.fits hw he he'.self (fun x hx => (hclosed x hx).2)
      (ih ha (he.part hpart.mem_parts) (below hclosed hpart.mem_parts)
        (he'.part hpart.mem_replaced))

end RenamesLambda

end Expr

end QueryStage
