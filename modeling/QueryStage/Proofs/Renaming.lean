import QueryStage.Proofs.BindingInvariant

/-!
# Renaming of parameters

An expression with the names of its parameters replaced, both where lambdas declare them and where
they occur. What it becomes depends on its own names only.
-/

namespace QueryStage

/-- One name in place of another, and all others as they are. -/
def replacing (old new x : String) : String := if x = old then new else x

theorem replacing_self (old new : String) : replacing old new old = new := if_pos rfl

theorem replacing_of_ne {old x : String} (h : x ≠ old) (new : String) : replacing old new x = x :=
  if_neg h

def Parameter.rename (f : String → String) (p : Parameter) : Parameter := ⟨f p.name, p.ty⟩

@[simp] theorem Parameter.name_rename (f : String → String) (p : Parameter) :
    (p.rename f).name = f p.name := rfl

@[simp] theorem Parameter.ty_rename (f : String → String) (p : Parameter) :
    (p.rename f).ty = p.ty := rfl

@[simp] theorem Parameter.rename_id : Parameter.rename id = id := rfl

namespace Expr

mutual

/-- The expression with its parameters renamed. Bound nodes stay as they are. -/
def rename (f : String → String) : Expr → Expr
  | literal value ty => literal value ty
  | parameter p => parameter (p.rename f)
  | member target name declaring ty => member (target.rename f) name declaring ty
  | binary op left right ty => binary op (left.rename f) (right.rename f) ty
  | unary op operand ty => unary op (operand.rename f) ty
  | conditional test ifTrue ifFalse ty =>
    conditional (test.rename f) (ifTrue.rename f) (ifFalse.rename f) ty
  | call none method declaring args ty => call none method declaring (renameAll f args) ty
  | call (some receiver) method declaring args ty =>
    call (some (receiver.rename f)) method declaring (renameAll f args) ty
  | lambda ⟨params, body⟩ => lambda ⟨params.map (Parameter.rename f), body.rename f⟩
  | construct ty parameters args members => construct ty parameters (renameAll f args) members
  | accumulate fn source none ty => accumulate fn (source.rename f) none ty
  | accumulate fn source (some ⟨params, body⟩) ty =>
    accumulate fn (source.rename f) (some ⟨params.map (Parameter.rename f), body.rename f⟩) ty
  | field path decoder ty => field path decoder ty
  | document inner path decoder => document inner path decoder

def renameAll (f : String → String) : List Expr → List Expr
  | [] => []
  | e :: es => e.rename f :: renameAll f es

end

variable {f g : String → String} {e : Expr}

@[simp] theorem renameAll_eq_map (es : List Expr) : renameAll f es = es.map (rename f) := by
  induction es with
  | nil => rfl
  | cons e es ih => simp [renameAll, ih]

@[simp] theorem kind_rename (e : Expr) : (e.rename f).kind = e.kind := by
  cases e with
  | call receiver => cases receiver <;> rfl
  | lambda fn => obtain ⟨params, body⟩ := fn; rfl
  | accumulate _ _ selector =>
    rcases selector with _ | ⟨params, body⟩ <;> rfl
  | _ => rfl

@[simp] theorem isUnbound_rename (e : Expr) : (e.rename f).isUnbound = e.isUnbound := by
  rw [isUnbound, kind_rename, isUnbound]

theorem parts_rename (h : e.kind ≠ .document) :
    (e.rename f).parts = e.parts.map (rename f) := by
  cases e with
  | call receiver => cases receiver <;> simp [rename, parts]
  | lambda fn => obtain ⟨params, body⟩ := fn; simp [rename, parts]
  | accumulate _ _ selector =>
    rcases selector with _ | ⟨params, body⟩ <;> simp [rename, parts]
  | document => exact absurd rfl h
  | _ => simp [rename, parts]

/-- The names of the parameters that a node declares, if it is a lambda or has one as selector. -/
def declared : Expr → List String
  | lambda fn => fn.params.map Parameter.name
  | accumulate _ _ (some fn) _ => fn.params.map Parameter.name
  | _ => []

/-- The names of the parameters that are declared in an expression. -/
def binders (e : Expr) : List String := e.nodes.flatMap declared

/-- The names that a node mentions, as a parameter or as those that it declares. -/
def mentioned : Expr → List String
  | parameter p => [p.name]
  | e => e.declared

/-- The names of all parameters of an expression. -/
def names (e : Expr) : List String := e.nodes.flatMap mentioned

theorem mem_names_of_part {part : Expr} {x : String} (h : part ∈ e.parts) (hx : x ∈ part.names) :
    x ∈ e.names := by
  obtain ⟨n, hn, hx⟩ := List.mem_flatMap.mp hx
  exact List.mem_flatMap.mpr ⟨n, mem_nodes_of_part h hn, hx⟩

theorem not_mem_names_of_part {part : Expr} {x : String} (hx : x ∉ e.names) (h : part ∈ e.parts) :
    x ∉ part.names :=
  fun hpart => hx (mem_names_of_part h hpart)

theorem mem_binders_of_node {n : Expr} {x : String} (h : n ∈ e.nodes) (hx : x ∈ n.binders) :
    x ∈ e.binders := by
  obtain ⟨n', hn', hx⟩ := List.mem_flatMap.mp hx
  exact List.mem_flatMap.mpr ⟨n', mem_nodes_trans h hn', hx⟩

theorem mem_binders_of_part {part : Expr} {x : String} (h : part ∈ e.parts)
    (hx : x ∈ part.binders) : x ∈ e.binders :=
  mem_binders_of_node (mem_nodes_of_part h (self_mem_nodes part)) hx

theorem mem_binders_of_declared {x : String} (h : x ∈ e.declared) : x ∈ e.binders :=
  List.mem_flatMap.mpr ⟨e, self_mem_nodes e, h⟩

theorem mem_names_of_binders {x : String} (h : x ∈ e.binders) : x ∈ e.names := by
  obtain ⟨n, hn, hx⟩ := List.mem_flatMap.mp h
  refine List.mem_flatMap.mpr ⟨n, hn, ?_⟩
  cases n with
  | parameter => cases hx
  | _ => exact hx

theorem mem_names_of_declared {x : String} (h : x ∈ e.declared) : x ∈ e.names :=
  mem_names_of_binders (mem_binders_of_declared h)

theorem mem_names_parameter (p : Parameter) : p.name ∈ (parameter p).names := by
  simp [names, nodes, mentioned]

private theorem map_rename_congr {params : List Parameter}
    (h : ∀ x ∈ params.map Parameter.name, f x = g x) :
    params.map (Parameter.rename f) = params.map (Parameter.rename g) := by
  refine List.map_congr_left fun p hp => ?_
  rw [Parameter.rename, h p.name (List.mem_map_of_mem hp)]
  rfl

theorem rename_congr (h : ∀ x ∈ e.names, f x = g x) : e.rename f = e.rename g := by
  induction e using induct_parts with
  | step e ih =>
    have below : ∀ part ∈ e.parts, part.rename f = part.rename g :=
      fun part hpart => ih part hpart fun x hx => h x (mem_names_of_part hpart hx)
    have own : ∀ x ∈ e.declared, f x = g x :=
      fun x hx => h x (mem_names_of_declared hx)
    cases e with
    | parameter p => simp [rename, Parameter.rename, h _ (mem_names_parameter p)]
    | call receiver =>
      cases receiver with
      | none => simpa [rename, parts] using below
      | some receiver => simpa [rename, parts] using below
    | lambda fn =>
      obtain ⟨params, body⟩ := fn
      have hbody := below body (by simp [parts])
      rw [rename, rename, hbody, map_rename_congr own]
    | construct => simpa [rename, parts] using below
    | accumulate _ _ selector =>
      rcases selector with _ | ⟨params, body⟩
      · simpa [rename, parts] using below
      · have hbody := below body (by simp [parts])
        rw [rename, rename, hbody, map_rename_congr own, below _ (by simp [parts])]
    | _ => simp_all [rename, parts]

@[simp] theorem ty_rename (e : Expr) : (e.rename f).ty = e.ty := by
  induction e with
  | call receiver => cases receiver <;> rfl
  | accumulate _ _ selector => rcases selector with _ | ⟨params, body⟩ <;> rfl
  | lambda params body ih => exact ih
  | _ => rfl

theorem kind_ne_document (h : e.isUnbound = true) : e.kind ≠ .document := by
  intro hkind
  rw [isUnbound, hkind] at h
  cases h

/-- What holds of the renamed nodes and not of documents holds of the nodes, if it does not depend
on names. -/
theorem all_of_rename {I : Expr → Prop} (hI : ∀ n, I (n.rename f) → I n ∧ n.kind ≠ .document)
    (h : (e.rename f).All I) : e.All I := by
  induction e using induct_parts with
  | step e ih =>
    obtain ⟨hself, hkind⟩ := hI e h.self
    refine all_iff.mpr ⟨hself, fun part hpart => ih part hpart (h.part ?_)⟩
    rw [parts_rename hkind]
    exact List.mem_map_of_mem hpart

theorem rename_id (e : Expr) : e.rename id = e := by
  have all {es : List Expr} (h : ∀ e ∈ es, e.rename id = e) : es.map (rename id) = es :=
    (List.map_congr_left h).trans (List.map_id' es)
  induction e using induct_parts with
  | step e ih =>
    cases e with
    | call receiver =>
      cases receiver with
      | none => simp_all [rename, parts]
      | some receiver => simp_all [rename, parts]
    | lambda fn => obtain ⟨params, body⟩ := fn; simp_all [rename, parts]
    | accumulate _ _ selector =>
      rcases selector with _ | ⟨params, body⟩ <;> simp_all [rename, parts]
    | _ => simp_all [rename, parts]

theorem rename_of_fixed (h : ∀ x ∈ e.names, f x = x) : e.rename f = e :=
  (rename_congr h).trans (rename_id e)

theorem rename_of_not_mem {old : String} (h : old ∉ e.names) (new : String) :
    e.rename (replacing old new) = e :=
  rename_of_fixed fun _ hx => replacing_of_ne (ne_of_mem_of_not_mem hx h) new

mutual

/-- The expression with another name for the parameter `old` that it takes from around it. A lambda
that declares `old` again keeps its own. Bound nodes stay as they are. -/
def renameFree (old new : String) : Expr → Expr
  | literal value ty => literal value ty
  | parameter p => parameter (p.rename (replacing old new))
  | member target name declaring ty => member (target.renameFree old new) name declaring ty
  | binary op left right ty => binary op (left.renameFree old new) (right.renameFree old new) ty
  | unary op operand ty => unary op (operand.renameFree old new) ty
  | conditional test ifTrue ifFalse ty =>
    conditional (test.renameFree old new) (ifTrue.renameFree old new)
      (ifFalse.renameFree old new) ty
  | call none method declaring args ty =>
    call none method declaring (renameFreeAll old new args) ty
  | call (some receiver) method declaring args ty =>
    call (some (receiver.renameFree old new)) method declaring (renameFreeAll old new args) ty
  | lambda ⟨params, body⟩ =>
    lambda ⟨params, if old ∈ params.map Parameter.name then body else body.renameFree old new⟩
  | construct ty parameters args members =>
    construct ty parameters (renameFreeAll old new args) members
  | accumulate fn source none ty => accumulate fn (source.renameFree old new) none ty
  | accumulate fn source (some ⟨params, body⟩) ty =>
    accumulate fn (source.renameFree old new) (some ⟨params,
      if old ∈ params.map Parameter.name then body else body.renameFree old new⟩) ty
  | field path decoder ty => field path decoder ty
  | document inner path decoder => document inner path decoder

def renameFreeAll (old new : String) : List Expr → List Expr
  | [] => []
  | e :: es => e.renameFree old new :: renameFreeAll old new es

end

variable {old new : String}

@[simp] theorem renameFreeAll_eq_map (es : List Expr) :
    renameFreeAll old new es = es.map (renameFree old new) := by
  induction es with
  | nil => rfl
  | cons e es ih => simp [renameFreeAll, ih]

@[simp] theorem kind_renameFree (e : Expr) : (e.renameFree old new).kind = e.kind := by
  cases e with
  | call receiver => cases receiver <;> rfl
  | lambda fn => obtain ⟨params, body⟩ := fn; rfl
  | accumulate _ _ selector =>
    rcases selector with _ | ⟨params, body⟩ <;> rfl
  | _ => rfl

theorem declared_renameFree (e : Expr) : (e.renameFree old new).declared = e.declared := by
  cases e with
  | call receiver => cases receiver <;> rfl
  | lambda fn => obtain ⟨params, body⟩ := fn; rfl
  | accumulate _ _ selector =>
    rcases selector with _ | ⟨params, body⟩ <;> rfl
  | _ => rfl

theorem parts_renameFree {part : Expr} (h : part ∈ (e.renameFree old new).parts) :
    ∃ part' ∈ e.parts, part = part'.renameFree old new ∨ part = part' := by
  have shadowed (params : List Parameter) (body : Expr) :
      (if old ∈ params.map Parameter.name then body else body.renameFree old new) =
          body.renameFree old new ∨
        (if old ∈ params.map Parameter.name then body else body.renameFree old new) = body := by
    split
    · exact .inr rfl
    · exact .inl rfl
  cases e with
  | call receiver method declaring args ty =>
    cases receiver <;> simp_all [renameFree, parts] <;> grind
  | lambda fn =>
    obtain ⟨params, body⟩ := fn
    rw [List.mem_singleton.mp h]
    exact ⟨body, by simp [parts], shadowed params body⟩
  | accumulate fn source selector ty =>
    rcases selector with _ | ⟨params, body⟩
    · simp_all [renameFree, parts]
    · rcases List.mem_pair.mp h with rfl | rfl
      · exact ⟨source, by simp [parts], .inl rfl⟩
      · exact ⟨body, by simp [parts], shadowed params body⟩
  | _ => simp_all [renameFree, parts] <;> grind

theorem map_rename_of_not_mem {params : List Parameter} {x y : String}
    (h : x ∉ params.map Parameter.name) :
    params.map (Parameter.rename (replacing x y)) = params := by
  refine (List.map_congr_left fun p hp => ?_).trans (List.map_id' params)
  rw [Parameter.rename, replacing_of_ne (ne_of_mem_of_not_mem (List.mem_map_of_mem hp) h)]

theorem rename_renameFree (hnew : new ∉ e.names) :
    (e.renameFree old new).rename (replacing new old) = e := by
  induction e using induct_parts with
  | step e ih =>
    have below (part : Expr) (hpart : part ∈ e.parts) :
        (part.renameFree old new).rename (replacing new old) = part :=
      ih part hpart (not_mem_names_of_part hnew hpart)
    have all (es : List Expr) (hes : ∀ part ∈ es, part ∈ e.parts) :
        es.map (rename (replacing new old) ∘ renameFree old new) = es :=
      (List.map_congr_left fun part hpart => below part (hes part hpart)).trans (List.map_id' es)
    have own {params : List Parameter} (hparams : e.declared = params.map Parameter.name) :
        params.map (Parameter.rename (replacing new old)) = params :=
      map_rename_of_not_mem fun h => hnew (mem_names_of_declared (hparams ▸ h))
    -- The body of a lambda that declares the name again was kept, and the new name is not in it.
    have shadowed {params : List Parameter} {body : Expr} (hbody : body ∈ e.parts) :
        (if old ∈ params.map Parameter.name then body else body.renameFree old new).rename
          (replacing new old) = body := by
      split
      · exact rename_of_not_mem (not_mem_names_of_part hnew hbody) old
      · exact below body hbody
    cases e with
    | parameter p =>
      have hp : p.name ≠ new := ne_of_mem_of_not_mem (mem_names_parameter p) hnew
      obtain ⟨name, ty⟩ := p
      by_cases hold : name = old
      · simp [renameFree, rename, Parameter.rename, hold, replacing_self]
      · simp [renameFree, rename, Parameter.rename, replacing_of_ne hold, replacing_of_ne hp]
    | call receiver method declaring args ty =>
      have hargs := all args fun a ha => by simp [parts, ha]
      cases receiver with
      | none => simp [renameFree, rename, hargs]
      | some receiver =>
        simp [renameFree, rename, hargs, below receiver (by simp [parts])]
    | lambda fn =>
      obtain ⟨params, body⟩ := fn
      rw [renameFree, rename, own rfl, shadowed (by simp [parts])]
    | construct ty parameters args members =>
      simp [renameFree, rename, all args fun a ha => ha]
    | accumulate fn source selector ty =>
      have hsource := below source (by simp [parts])
      rcases selector with _ | ⟨params, body⟩
      · rw [renameFree, rename, hsource]
      · rw [renameFree, rename, hsource, own rfl, shadowed (by simp [parts])]
    | _ => simp_all [renameFree, rename, parts]

end Expr

end QueryStage
