import QueryStage.Proofs.BindingSites
import QueryStage.Proofs.LexicalScoping

/-!
# Static types of bound expressions

An expression is bound to one of the same static type, as long as the types that it carries agree
with what it reads: a parameter has the type that its lambda declares, a member of a construction
the type of the argument, and the key of a group the type of the bound key. The exceptions are names
that the scope takes for another parameter than the nearest one around: those that a lambda declares
again without being entered, and that of the grouping, whose key is recognised by name.
-/

namespace QueryStage

namespace Expr

/-- The argument that a construction gives for a member, also one that is held as a document. -/
def argument? (name : String) : Expr → Option Expr
  | construct _ parameters args members => constructed? name parameters args members
  | document (construct _ parameters args members) _ _ =>
    constructed? name parameters args members
  | _ => none

/-- What an expression reads of a group key: the key, or an argument of a construction in it. -/
inductive ReadsKey (s : Scope) : Expr → Expr → Prop
  | key {target key : Expr} {name : String} {declaring ty : Ty}
    (h : s.key? target name = some key) : ReadsKey s (member target name declaring ty) key
  | argument {target held a : Expr} {name : String} {declaring ty : Ty}
    (htarget : ReadsKey s target held) (h : held.argument? name = some a) :
    ReadsKey s (member target name declaring ty) a
  | chosen {target a held : Expr} {name : String} {declaring ty : Ty} (h : Chosen target name a)
    (hkey : ReadsKey s a held) : ReadsKey s (member target name declaring ty) held

/-- The argument that a member access resolves into, of a construction that is written or of one in
the key. -/
def ResolvesInto (s : Scope) (target : Expr) (name : String) (a : Expr) : Prop :=
  Chosen target name a ∨ ∃ held, ReadsKey s target held ∧ held.argument? name = some a

theorem ReadsKey.congr {s s' : Scope} (hgroup : s'.group = s.group) {e held : Expr}
    (h : ReadsKey s' e held) : ReadsKey s e held := by
  induction h with
  | key h => exact .key (Scope.key?_congr hgroup _ _ ▸ h)
  | argument _ h ih => exact .argument ih h
  | chosen h _ ih => exact .chosen h ih

theorem resolve?_field_or_argument {e b : Expr} {name : String} {ty : Ty}
    (h : e.resolve? name ty = some b) :
    (∃ path d, b = field path d ty) ∨ e.argument? name = some b := by
  rcases resolve?_cases h with ⟨_, _, _, _, -, -, rfl⟩ | ⟨_, _, _, _, -, -, rfl, -⟩ |
    ⟨_, _, _, _, rfl | ⟨_, _, rfl⟩, hargument⟩
  · exact .inl ⟨_, _, rfl⟩
  · exact .inl ⟨_, _, rfl⟩
  · exact .inr hargument
  · exact .inr hargument

theorem argument?_eq_none {e : Expr} (hconstruct : e.kind ≠ .construction)
    (hdocument : e.kind ≠ .document) (name : String) : e.argument? name = none := by
  cases e with
  | construct => exact absurd rfl hconstruct
  | document => exact absurd rfl hdocument
  | _ => rfl

section Resolving

variable {ds : Decoders} {s : Scope} {right : String → Parameter → Prop}

private theorem argument?_of_lookup (hs : s.StandsFor right) {x name : String} {b : Expr}
    (h : s.lookup x = some b) : b.argument? name = none := by
  obtain ⟨q, path, d, -, rfl⟩ := hs x b h
  rfl

private theorem chosen_of_bind_construct {ty : Ty} {parameters : List String} {args : List Expr}
    {members : Option (List String)} {t a : Expr} {name : String}
    (h : (construct ty parameters args members).bind ds s = .ok t)
    (ha : t.argument? name = some a) :
    ∃ written, Chosen (construct ty parameters args members) name written ∧
      written.bind ds s = .ok a := by
  obtain ⟨args', hargs, rfl⟩ := bind_construct_cases h
  have hrel := constructed?_rel name parameters members hargs
  rw [show constructed? name parameters args' members = some a from ha] at hrel
  cases hwritten : constructed? name parameters args members with
  | none =>
    rw [hwritten] at hrel
    cases hrel
  | some written =>
    rw [hwritten] at hrel
    cases hrel with
    | some hbind => exact ⟨written, ⟨_, _, _, _, .refl _, hwritten⟩, hbind⟩

/-- The construction that a target is bound to is written there, or it is in the key. -/
theorem resolvesInto_of_bind (hs : s.StandsFor right) {target : Expr}
    (hunbound : target.All fun n => n.isUnbound = true) {t a : Expr} {name : String}
    (h : target.bind ds s = .ok t) (ha : t.argument? name = some a) :
    (∃ written, Chosen target name written ∧ written.bind ds s = .ok a) ∨ ReadsKey s target t := by
  induction target using induct_nodes generalizing t a name with
  | step target ih =>
    cases target with
    | construct => exact .inl (chosen_of_bind_construct h ha)
    | parameter p =>
      rcases bind_parameter_cases h with rfl | hlookup
      · cases ha
      · rw [argument?_of_lookup hs hlookup] at ha
        cases ha
    | member target name' declaring ty =>
      rcases bind_member_cases h with hkey | ⟨-, bound, hbound, hmember⟩
      · exact .inr (.key hkey)
      · rcases bindMember_cases hmember with hresolve | rfl | ⟨_, _, _, _, _, -, -, -, rfl⟩
        · rcases resolve?_field_or_argument hresolve with ⟨_, _, rfl⟩ | hargument
          · cases ha
          · have hpart : target ∈ (member target name' declaring ty).parts :=
              List.mem_singleton_self _
            rcases ih target hpart target (self_mem_nodes _) (hunbound.part hpart) hbound
              hargument with ⟨written, hchosen, hwritten⟩ | hread
            · -- The argument that is read is looked into in turn.
              rcases ih target hpart written hchosen.mem_nodes
                ((hunbound.part hpart).below hchosen.mem_nodes) hwritten ha with
                ⟨inner, hinner, hbind⟩ | hread
              · obtain ⟨ty₁, parameters, args, members, hreads, h₁⟩ := hchosen
                obtain ⟨ty₂, parameters', args', members', hreads', h₂⟩ := hinner
                exact .inl ⟨inner, ⟨_, _, _, _, .member hreads h₁ hreads', h₂⟩, hbind⟩
              · exact .inr (.chosen hchosen hread)
            · exact .inr (.argument hread hargument)
        · cases ha
        · cases ha
    | literal | binary | unary | conditional =>
      have hkind := (forall₂_parts_of_bind rfl rfl h).1
      rw [argument?_eq_none (by rw [hkind]; simp [kind]) (by rw [hkind]; simp [kind])] at ha
      cases ha
    | call =>
      obtain ⟨_, _, -, -, hacc | rfl⟩ := bind_call_cases h
      · have hkind := kind_of_accumulator? hacc
        rw [argument?_eq_none (by simp [hkind]) (by simp [hkind])] at ha
        cases ha
      · cases ha
    | lambda =>
      obtain ⟨_, -, rfl⟩ := bind_lambda_cases h
      cases ha
    | accumulate =>
      obtain ⟨_, -, ⟨-, rfl⟩ | ⟨_, _, _, _, -, -, -, rfl⟩⟩ := bind_accumulate_cases h <;> cases ha
    | field | document => cases hunbound.self

end Resolving

/-- The body of a lambda with the parameter `p`, as it is written, carries the types of what it
reads. A parameter has the type that the nearest lambda around declares for its name, a member that
resolves into an argument the type of the argument, and the key of the grouping, where no lambda
around declares its name again, the type of the bound key. -/
structure CarriesTypes (p : Parameter) (s : Scope) (body : Expr) : Prop where
  unbound : body.All fun n => n.isUnbound = true
  parameter : ∀ {around q d}, (around, parameter q) ∈ body.sites [] →
    Parameter.nearest? q.name (around ++ [p]) = some d → q.ty = d.ty
  argument : ∀ {around target name declaring ty a},
    (around, member target name declaring ty) ∈ body.sites [] → ResolvesInto s target name a →
      a.ty = ty
  key : ∀ {around q name declaring ty key},
    (around, member (.parameter q) name declaring ty) ∈ body.sites [] →
      q.name ∉ around.map Parameter.name → s.key? (.parameter q) name = some key → key.ty = ty

/-- What the expression is bound to has its type. -/
def KeepsType (ds : Decoders) (s : Scope) (e : Expr) : Prop :=
  ∀ b, e.bind ds s = .ok b → b.ty = e.ty

/-- The scope has something of another type in place of the nearest parameter that an expression
names, or of the member of it that is called as the key is. -/
inductive Astray (p : Parameter) (s : Scope) (around : List Parameter) : Expr → Prop
  | parameter {q d : Parameter} {x : Expr} (h : s.lookup q.name = some x)
    (hnearest : Parameter.nearest? q.name (around ++ [p]) = some d) (hne : x.ty ≠ d.ty) :
    Astray p s around (parameter q)
  | key {q : Parameter} {key : Expr} {name : String} {declaring ty : Ty}
    (hagain : q.name ∈ around.map Parameter.name)
    (h : s.key? (.parameter q) name = some key) (hne : key.ty ≠ ty) :
    Astray p s around (member (.parameter q) name declaring ty)

section Types

variable {ds : Decoders} {p : Parameter} {s₀ s : Scope} {e₀ e e' : Expr} {ps : List Parameter}

private theorem isGrouping_of_reads_construct {ty : Ty} {parameters : List String}
    {args : List Expr} {members : Option (List String)}
    (h : Reads e (construct ty parameters args members)) : s.isGrouping e = false := by
  cases h <;> exact Scope.isGrouping_of_kind (by simp [kind]) (by simp [kind])

theorem BindsAt.reads (hreads : Reads e e') (h : BindsAt ds s₀ e₀ s ps e) :
    BindsAt ds s₀ e₀ s ps e' := by
  induction hreads with
  | refl => exact h
  | member htarget hargument _ ihtarget ih =>
    have hkey := Scope.key?_of_isGrouping_eq_false (s := s)
      (isGrouping_of_reads_construct htarget)
    have hconstruct := ihtarget (h.step (.target (hkey _)))
    exact ih (hconstruct.step (.operand rfl (mem_of_constructed? hargument)))

theorem BindsAt.chosen {target a : Expr} {name : String} {declaring ty : Ty}
    (hchosen : Chosen target name a) (h : BindsAt ds s₀ e₀ s ps (member target name declaring ty)) :
    BindsAt ds s₀ e₀ s ps a := by
  obtain ⟨_, _, _, _, hreads, hargument⟩ := hchosen
  exact h.reads (.member hreads hargument (.refl a))

private theorem ty_of_lookup (hs : s₀.StandsFor fun x q => q.name = x ∧ q ∈ [p])
    (htypes : CarriesTypes p s₀ e₀) {q : Parameter} (h : BindsAt ds s₀ e₀ s ps (parameter q))
    (hright : ¬ Astray p s ps (parameter q)) {b : Expr} (hb : s.lookup q.name = some b) :
    b.ty = q.ty := by
  obtain ⟨q', _, _, ⟨hname, hmem⟩, -⟩ := h.standsFor hs _ _ hb
  obtain ⟨d, hd⟩ := Parameter.exists_nearest? hmem
  rw [hname] at hd
  rw [htypes.parameter h.mem_sites hd]
  by_contra hne
  exact hright (.parameter hb hd hne)

private theorem ty_of_key? (htypes : CarriesTypes p s₀ e₀) {target key : Expr} {name : String}
    {declaring ty : Ty} (h : BindsAt ds s₀ e₀ s ps (member target name declaring ty))
    (hright : ¬ Astray p s ps (member target name declaring ty))
    (hunbound : target.isUnbound = true) (hkey : s.key? target name = some key) : key.ty = ty := by
  obtain ⟨-, hgrouping, -⟩ := Scope.key?_cases hkey
  obtain ⟨_, q, -, -, rfl | ⟨_, rfl⟩⟩ := Scope.isGrouping_cases hgrouping
  · by_cases hagain : q.name ∈ ps.map Parameter.name
    · by_contra hne
      exact hright (.key hagain hkey hne)
    · rw [Scope.key?_congr h.group] at hkey
      exact htypes.key h.mem_sites hagain hkey
  · cases hunbound

private theorem ty_of_bindMember (hs : s₀.StandsFor fun x q => q.name = x ∧ q ∈ [p])
    (htypes : CarriesTypes p s₀ e₀) {target bound b : Expr} {name : String} {declaring ty : Ty}
    (h : BindsAt ds s₀ e₀ s ps (member target name declaring ty))
    (hunbound : target.All fun n => n.isUnbound = true) (hbound : target.bind ds s = .ok bound)
    (hkept : ∀ a, Chosen target name a → KeepsType ds s a)
    (hb : bindMember ds bound name declaring ty = .ok b) : b.ty = ty := by
  rcases bindMember_cases hb with hresolve | rfl | ⟨_, _, _, _, _, -, -, -, rfl⟩
  · rcases resolve?_field_or_argument hresolve with ⟨_, _, rfl⟩ | hargument
    · rfl
    · rcases resolvesInto_of_bind (h.standsFor hs) hunbound hbound hargument with
        ⟨written, hchosen, hwritten⟩ | hread
      · rw [hkept written hchosen b hwritten]
        exact htypes.argument h.mem_sites (.inl hchosen)
      · exact htypes.argument h.mem_sites (.inr ⟨bound, hread.congr h.group, hargument⟩)
  · rfl
  · rfl

/-- Where nothing goes astray, every expression keeps its type. -/
theorem keepsType_of_not_astray (hs : s₀.StandsFor fun x q => q.name = x ∧ q ∈ [p])
    (htypes : CarriesTypes p s₀ e₀)
    (hright : ∀ s ps e, BindsAt ds s₀ e₀ s ps e → ¬ Astray p s ps e)
    (h : BindsAt ds s₀ e₀ s ps e) : KeepsType ds s e := by
  induction e using induct_nodes generalizing s ps with
  | step e ih =>
    intro b hb
    cases e with
    | parameter q =>
      rcases bind_parameter_cases hb with rfl | hlookup
      · rfl
      · exact ty_of_lookup hs htypes h (hright s ps _ h) hlookup
    | member target name declaring ty =>
      have hpart : target ∈ (member target name declaring ty).parts := List.mem_singleton_self _
      have htarget := (htypes.unbound.below h.mem_nodes).part hpart
      rcases bind_member_cases hb with hkey | ⟨-, bound, hbound, hb⟩
      · exact ty_of_key? htypes h (hright s ps _ h) htarget.self hkey
      · refine ty_of_bindMember hs htypes h htarget hbound (fun a ha => ?_) hb
        exact ih target hpart a ha.mem_nodes (h.chosen ha)
    | lambda fn =>
      obtain ⟨params, body⟩ := fn
      obtain ⟨bound, hbound, rfl⟩ := bind_lambda_cases hb
      exact ih body (List.mem_singleton_self _) body (self_mem_nodes _) (h.step (.body _ _)) bound
        hbound
    | call =>
      obtain ⟨_, _, -, -, hacc | rfl⟩ := bind_call_cases hb
      · rcases (accumulator?_cases hacc).2 with ⟨_, _, _, _, -, rfl⟩ | ⟨_, _, _, _, -, -, rfl⟩ <;>
          rfl
      · rfl
    | accumulate =>
      obtain ⟨_, -, ⟨-, rfl⟩ | ⟨_, _, _, _, -, -, -, rfl⟩⟩ := bind_accumulate_cases hb <;> rfl
    | construct =>
      obtain ⟨_, -, rfl⟩ := bind_construct_cases hb
      rfl
    | literal | field | document =>
      cases hb
      rfl
    | binary =>
      simp only [bind, bind_eq_ok_iff, pure_eq_ok, Except.ok.injEq] at hb
      obtain ⟨_, -, _, -, rfl⟩ := hb
      rfl
    | unary =>
      simp only [bind, bind_eq_ok_iff, pure_eq_ok, Except.ok.injEq] at hb
      obtain ⟨_, -, rfl⟩ := hb
      rfl
    | conditional =>
      simp only [bind, bind_eq_ok_iff, pure_eq_ok, Except.ok.injEq] at hb
      obtain ⟨_, -, _, -, _, -, rfl⟩ := hb
      rfl

/-- Something that goes astray does not keep its type. -/
theorem not_astray_of_keepsType (htypes : CarriesTypes p s₀ e₀) (h : BindsAt ds s₀ e₀ s ps e)
    (hkept : KeepsType ds s e) : ¬ Astray p s ps e := by
  intro hastray
  cases hastray with
  | @parameter q d x hlookup hnearest hne =>
    have hbind : (parameter q).bind ds s = .ok x := by rw [bind, hlookup, Option.getD_some]
    exact hne ((hkept x hbind).trans (htypes.parameter h.mem_sites hnearest))
  | @key q key name declaring ty _ hkey hne =>
    have hbind : (member (.parameter q) name declaring ty).bind ds s = .ok key := by rw [bind, hkey]
    exact hne (hkept key hbind)

/-- The choices that lowering makes by the type of the target of a member, the left operand of an
operator or an argument of a call are those for the expression as it is written. -/
def SameChoices (ds : Decoders) (s : Scope) : Expr → Prop
  | member target name _ _ => s.key? target name = none → ∀ t, target.bind ds s = .ok t →
    ∀ unit, t.ty.computed? unit name = target.ty.computed? unit name
  | binary op left _ _ => ∀ l, left.bind ds s = .ok l → op.emit l.ty = op.emit left.ty
  | call receiver _ _ args _ => ∀ source a b, Ranging ds s receiver args source a →
    BoundArg ds s source a b → b.ty.isGrouping = a.ty.isGrouping
  | _ => True

theorem sameChoices_of_keepsType (hkept : ∀ s ps e, BindsAt ds s₀ e₀ s ps e → KeepsType ds s e)
    (h : BindsAt ds s₀ e₀ s ps e) : SameChoices ds s e := by
  cases e with
  | member target name =>
    intro hkey t ht unit
    rw [hkept _ _ _ (h.step (.target hkey)) t ht]
  | binary op left =>
    intro l hl
    rw [hkept _ _ left (h.step (.operand rfl List.mem_cons_self)) l hl]
  | call receiver method declaring args ty =>
    intro source a b hranging hb
    cases hb with
    | operand hkind hb => rw [hkept _ _ a (h.step (.argument hranging.mem hkind)) b hb]
    | each henter hb =>
      have hbody := hkept _ _ _ (h.step (.each hranging henter)) _ hb
      exact congrArg Ty.isGrouping hbody
  | _ => trivial

end Types

end Expr

/-- How the body of a projector or of a group projector with the parameter `p` is bound: the scope
for it, and what binding gives. -/
inductive Lambda.Binds (ds : Decoders) (fn : Lambda) (p : Parameter) : Scope →
    Except Fault Expr → Prop
  | projector (hp : fn.params = [p]) (source : Decoder) :
    Binds ds fn p (projectorScope p source) (fn.bindProjector ds source)
  | group (hp : fn.params = [p]) (source : Decoder) (key : Expr) :
    Binds ds fn p (groupScope p source key) (fn.bindGroupProjector ds source key)

namespace Expr

/-- No lambda that is left unentered declares a name again and, in a group, no lambda at all
declares that of the grouping. -/
structure DeclaresApart (p : Parameter) (s : Scope) (body : Expr) : Prop where
  unentered : ¬ Redeclares [p] body
  grouping : s.group.isSome = true → ∀ site ∈ body.sites [], p.name ∉ site.1.map Parameter.name

end Expr

namespace Lambda.Binds

variable {ds : Decoders} {fn : Lambda} {p : Parameter} {s : Scope} {result : Except Fault Expr}

theorem result_eq (h : fn.Binds ds p s result) : result = fn.body.bind ds s := by
  obtain ⟨params, body⟩ := fn
  cases h with
  | projector hp source =>
    obtain rfl : params = [p] := hp
    rfl
  | group hp source key =>
    obtain rfl : params = [p] := hp
    rfl

theorem lookup (h : fn.Binds ds p s result) {x : String} {b : Expr} (hx : s.lookup x = some b) :
    x = p.name ∧ ∃ d, b = root p d := by
  cases h with
  | projector _ source =>
    rcases Scope.lookup_bind_cases hx with ⟨rfl, rfl⟩ | h
    · exact ⟨rfl, source, rfl⟩
    · cases h
  | group _ source key =>
    rcases Scope.lookup_bind_cases hx with ⟨rfl, rfl⟩ | h
    · exact ⟨rfl, .array source, rfl⟩
    · cases h

theorem standsFor (h : fn.Binds ds p s result) :
    s.StandsFor fun x q => q.name = x ∧ q ∈ [p] := by
  intro x b hx
  obtain ⟨rfl, d, rfl⟩ := h.lookup hx
  exact ⟨p, none, d, ⟨rfl, List.mem_singleton_self p⟩, rfl⟩

theorem standsFor_nearest (h : fn.Binds ds p s result) :
    s.StandsFor fun x q => Parameter.nearest? x [p] = some q := by
  intro x b hx
  obtain ⟨rfl, d, rfl⟩ := h.lookup hx
  exact ⟨p, none, d, by simp [Parameter.nearest?], rfl⟩

theorem group_parameter (h : fn.Binds ds p s result) {g : GroupScope} (hg : s.group = some g) :
    g.parameter = p.name := by
  cases h with
  | projector => cases hg
  | group =>
    cases hg
    rfl

theorem not_astray (h : fn.Binds ds p s result) (hapart : fn.body.DeclaresApart p s)
    {s' : Scope} {ps : List Parameter} {e : Expr} (hat : Expr.BindsAt ds s fn.body s' ps e) :
    ¬ Expr.Astray p s' ps e := by
  intro hastray
  cases hastray with
  | parameter hlookup hnearest hne =>
    obtain ⟨q, _, _, hq, rfl⟩ :=
      hat.standsFor_nearest h.standsFor_nearest hapart.unentered _ _ hlookup
    rw [hq] at hnearest
    cases hnearest
    exact hne rfl
  | key hagain hkey _ =>
    obtain ⟨-, hgrouping, -⟩ := Scope.key?_cases hkey
    obtain ⟨g, q, hg, hname, hq | ⟨_, hq⟩⟩ := Scope.isGrouping_cases hgrouping
    · cases hq
      rw [hat.group] at hg
      rw [hname, h.group_parameter hg] at hagain
      exact hapart.grouping (by simp [hg]) _ hat.mem_sites hagain
    · cases hq

end Lambda.Binds

/-- Every subexpression of a projector that carries the types of what it reads is bound to one of
the same type just when none goes astray, and then lowering makes the same choices for both. None
goes astray where no lambda declares a name again that the scope keeps. -/
theorem Lambda.static_types_kept_iff (ds : Decoders) (fn : Lambda) (p : Parameter) (s₀ : Scope)
    (result : Except Fault Expr) (hbinds : fn.Binds ds p s₀ result)
    (htypes : fn.body.CarriesTypes p s₀) :
    result = fn.body.bind ds s₀ ∧
      ((∀ s ps e, Expr.BindsAt ds s₀ fn.body s ps e → Expr.KeepsType ds s e) ↔
        ∀ s ps e, Expr.BindsAt ds s₀ fn.body s ps e → ¬ Expr.Astray p s ps e) ∧
      ((∀ s ps e, Expr.BindsAt ds s₀ fn.body s ps e → Expr.KeepsType ds s e) →
        ∀ s ps e, Expr.BindsAt ds s₀ fn.body s ps e → Expr.SameChoices ds s e) ∧
      (fn.body.DeclaresApart p s₀ →
        ∀ s ps e, Expr.BindsAt ds s₀ fn.body s ps e → Expr.KeepsType ds s e) := by
  have hkeeps (hright : ∀ s ps e, Expr.BindsAt ds s₀ fn.body s ps e → ¬ Expr.Astray p s ps e)
      (s : Scope) (ps : List Parameter) (e : Expr) (h : Expr.BindsAt ds s₀ fn.body s ps e) :
      Expr.KeepsType ds s e :=
    Expr.keepsType_of_not_astray hbinds.standsFor htypes hright h
  refine ⟨hbinds.result_eq, ⟨fun hkept s ps e h => ?_, hkeeps⟩, fun hkept s ps e h => ?_,
    fun hapart => hkeeps fun s ps e => hbinds.not_astray hapart⟩
  · exact Expr.not_astray_of_keepsType htypes h (hkept s ps e h)
  · exact Expr.sameChoices_of_keepsType hkept h

namespace Expr

theorem not_resolvesInto_parameter {s : Scope} {q : Parameter} {name : String} {a : Expr} :
    ¬ ResolvesInto s (parameter q) name a := by
  rintro (⟨_, _, _, _, hreads, -⟩ | ⟨_, hread, -⟩)
  · cases hreads
  · cases hread

theorem held_of_readsKey_member {s : Scope} {q : Parameter} {name : String} {declaring ty : Ty}
    {held : Expr} (h : ReadsKey s (member (parameter q) name declaring ty) held) :
    s.key? (parameter q) name = some held := by
  cases h with
  | key h => exact h
  | argument htarget => cases htarget
  | chosen h => exact absurd (.inl h) (not_resolvesInto_parameter (s := s))

end Expr

namespace Orders

open QueryStage.Expr

/-- A key selector that yields the city of the home address as the one member of a key. -/
def byCity : Lambda :=
  ⟨[ofOrder "o"], named (.record "Place")
    [("City", access (access (parameter (ofOrder "o")) "Home" (.record "Address")) "City" .string)]⟩

def cityKey : Expr :=
  document (named (.record "Place") [("City", field ⟨["home", "city"]⟩ (.value .string) .string)])
    none (.document ⟨"Place", [("City", ⟨"City", .value .string⟩)], ["City"]⟩)

def ofPlace : Parameter := ofGroup "g" (.record "Place")

def cityOfKey : Expr := access (access (parameter ofPlace) "Key" (.record "Place")) "City" .string

/-- The city with a mark, and the amounts of the orders, each of which is called `o`. -/
def citySummary : Lambda :=
  ⟨[ofPlace], named (.record "Summary")
    [("City", binary .add cityOfKey (literal (.string "!") .string) .string),
      ("Amounts", sequenceCall "Select" (parameter ofPlace) [lambda ⟨[ofOrder "o"], amountOf "o"⟩]
        (.array .int32))]⟩

section Sites

attribute [local simp] sites sitesAll argumentSites named access sequenceCall

theorem citySummary_carriesTypes :
    citySummary.body.CarriesTypes ofPlace (Lambda.groupScope ofPlace source cityKey) where
  unbound := by decide
  parameter := by
    intro around q d h hd
    simp [citySummary, cityOfKey, amountOf] at h
    rcases h with ⟨rfl, rfl⟩ | ⟨rfl, rfl⟩ <;> cases hd <;> rfl
  argument := by
    intro around target name declaring ty a h ha
    simp [citySummary, cityOfKey, amountOf] at h
    rcases h with ⟨rfl, rfl, rfl, rfl, rfl⟩ | ⟨rfl, rfl, rfl, rfl, rfl⟩ | ⟨rfl, rfl, rfl, rfl, rfl⟩
    · rcases ha with ⟨_, _, _, _, hreads, -⟩ | ⟨held, hread, ha⟩
      · cases hreads with
        | member htarget => cases htarget
      · cases held_of_readsKey_member hread
        cases ha
        rfl
    · exact absurd ha not_resolvesInto_parameter
    · exact absurd ha not_resolvesInto_parameter
  key := by
    intro around q name declaring ty key h hagain hkey
    simp [citySummary, cityOfKey, amountOf] at h
    rcases h with ⟨rfl, rfl, rfl, rfl, rfl⟩ | ⟨rfl, rfl, rfl, rfl, rfl⟩
    · cases hkey
      rfl
    · cases hkey

end Sites

/-- The city of the key, which becomes an argument of it, is text before and after. -/
theorem citySummary_types_kept :
    (do Stage.keyOf registry (← byCity.bindProjector registry source)) = .ok cityKey ∧
      citySummary.body.CarriesTypes ofPlace (Lambda.groupScope ofPlace source cityKey) ∧
      citySummary.body.DeclaresApart ofPlace (Lambda.groupScope ofPlace source cityKey) ∧
      ∃ bound, citySummary.bindGroupProjector registry source cityKey = .ok bound ∧
        bound.ty = .record "Summary" ∧
        KeepsType registry (Lambda.groupScope ofPlace source cityKey) cityOfKey := by
  have hapart : citySummary.body.DeclaresApart ofPlace
      (Lambda.groupScope ofPlace source cityKey) :=
    ⟨by decide, fun _ => by decide⟩
  obtain ⟨-, -, -, hkeeps⟩ := Lambda.static_types_kept_iff registry citySummary ofPlace _ _
    (.group rfl source cityKey) citySummary_carriesTypes
  have hkept := hkeeps hapart
  refine ⟨rfl, citySummary_carriesTypes, hapart, _, rfl, hkept _ _ _ .here _ rfl, ?_⟩
  have hsum : BindsAt registry (Lambda.groupScope ofPlace source cityKey) citySummary.body
      (Lambda.groupScope ofPlace source cityKey) []
      (binary .add cityOfKey (literal (.string "!") .string) .string) :=
    BindsAt.here.step (.operand rfl List.mem_cons_self)
  exact hkept _ _ _ (hsum.step (.operand rfl List.mem_cons_self))

end Orders

namespace Keyed

open QueryStage.Expr

def marked (e : Expr) : Expr := binary .add e (literal (.string "!") .string) .string

/-- The keys of the entries of a group with a mark, each entry being called as the group is. -/
def markedKeys : Lambda :=
  ⟨[group], named (.record "Keys") [("Keys", sequenceCall "Select" (parameter group)
    [lambda ⟨[ofEntry "g"], marked (ownKey "g")⟩] (.array .string))]⟩

def boundExpress : Expr := field ⟨["express"]⟩ (.value .boolean) .boolean

def byLength : Lambda := ⟨[⟨"w", .string⟩], access (parameter ⟨"w", .string⟩) "Length" .int32⟩

def words : Parameter := ⟨"g", .grouping .int32 .string⟩

/-- The words of a group with a mark, by a lambda with two parameters that calls a word as the group
is. -/
def markedWords : Lambda :=
  ⟨[words], named (.record "Words") [("Words", sequenceCall "Select" (parameter words)
    [lambda ⟨[⟨"g", .string⟩, ⟨"n", .int32⟩], marked (parameter ⟨"g", .string⟩)⟩]
    (.array .string))]⟩

section Sites

attribute [local simp] sites sitesAll argumentSites named access sequenceCall

theorem markedKeys_carriesTypes :
    markedKeys.body.CarriesTypes group
      (Lambda.groupScope group (.document entry) boundExpress) where
  unbound := by decide
  parameter := by
    intro around q d h hd
    simp [markedKeys, marked, ownKey] at h
    rcases h with ⟨rfl, rfl⟩ | ⟨rfl, rfl⟩ <;> cases hd <;> rfl
  argument := by
    intro around target name declaring ty a h ha
    simp [markedKeys, marked, ownKey] at h
    obtain ⟨rfl, rfl, rfl, rfl, rfl⟩ := h
    exact absurd ha not_resolvesInto_parameter
  key := by
    intro around q name declaring ty key h hagain hkey
    simp [markedKeys, marked, ownKey] at h
    obtain ⟨rfl, rfl, rfl, rfl, rfl⟩ := h
    exact absurd (List.mem_singleton_self _) hagain

theorem markedWords_carriesTypes (key : Expr) :
    markedWords.body.CarriesTypes words (Lambda.groupScope words (.value .string) key) where
  unbound := by decide
  parameter := by
    intro around q d h hd
    simp [markedWords, marked] at h
    rcases h with ⟨rfl, rfl⟩ | ⟨rfl, rfl⟩ <;> cases hd <;> rfl
  argument := by
    intro around target name declaring ty a h
    simp [markedWords, marked] at h
  key := by
    intro around q name declaring ty key h
    simp [markedWords, marked] at h

end Sites

theorem bindsAt_selected {ds : Decoders} {g : Parameter} {source : Decoder} {key : Expr}
    {inner : Scope} {fn : Lambda} {ty ty' : Ty} {name : String}
    (henter : (Lambda.groupScope g source key).enter ds fn.params
      (some (Lambda.root g (.array source))) = .ok inner) :
    BindsAt ds (Lambda.groupScope g source key)
      (named ty [(name, sequenceCall "Select" (parameter g) [lambda fn] ty')]) inner fn.params
      fn.body := by
  have hsource : BoundArg ds (Lambda.groupScope g source key) none (parameter g)
      (Lambda.root g (.array source)) :=
    .operand (by simp [kind]) (by simp [Expr.bind, Lambda.groupScope])
  have hcall : BindsAt ds (Lambda.groupScope g source key)
      (named ty [(name, sequenceCall "Select" (parameter g) [lambda fn] ty')])
      (Lambda.groupScope g source key) [] (sequenceCall "Select" (parameter g) [lambda fn] ty') :=
    BindsAt.here.step (.operand rfl List.mem_cons_self)
  simpa using hcall.step (.each (.after hsource (List.mem_singleton_self _)) henter)

/-- Where an entry is called as its group is, its key becomes the key of the group, and where a
lambda with two parameters calls a word so, the word becomes the group. Neither is text any more,
and the mark is added as to a number. -/
theorem shadowed_types_astray :
    (markedKeys.body.CarriesTypes group (Lambda.groupScope group (.document entry) boundExpress) ∧
      ∃ s, BindsAt registry (Lambda.groupScope group (.document entry) boundExpress) markedKeys.body
          s [ofEntry "g"] (ownKey "g") ∧ ¬ KeepsType registry s (ownKey "g")) ∧
    (∀ key, markedWords.body.CarriesTypes words (Lambda.groupScope words (.value .string) key) ∧
      ∃ s, BindsAt registry (Lambda.groupScope words (.value .string) key) markedWords.body s
          [⟨"g", .string⟩, ⟨"n", .int32⟩] (parameter ⟨"g", .string⟩) ∧
        ¬ KeepsType registry s (parameter ⟨"g", .string⟩)) ∧
    ∃ stage stage',
      Stage.ofGroup registry {} (.document entry) byExpress markedKeys = .ok stage ∧
      Stage.ofGroup registry {} (.value .string) byLength markedWords = .ok stage' ∧
      stage.specification = [("_id", .string "$express"), ("Keys", Bson.apply "$push"
        (Bson.applyAll "$add" [.string "$express", .string "!"]))] ∧
      stage'.specification = [("_id", Bson.apply "$strLenBytes" (.string "$$ROOT")),
        ("Words", Bson.apply "$push" (Bson.applyAll "$add" [.string "$$ROOT", .string "!"]))] := by
  refine ⟨⟨markedKeys_carriesTypes, ?_⟩, fun key => ⟨markedWords_carriesTypes key, ?_⟩, _, _, rfl,
    rfl, rfl, rfl⟩
  · have hmarked : BindsAt registry (Lambda.groupScope group (.document entry) boundExpress)
        markedKeys.body
        ((Lambda.groupScope group (.document entry) boundExpress).bind "g"
          (document (parameter (ofEntry "g")) none (.document entry)))
        [ofEntry "g"] (marked (ownKey "g")) :=
      bindsAt_selected rfl
    refine ⟨_, hmarked.step (.operand rfl List.mem_cons_self), fun hkept => ?_⟩
    cases hkept boundExpress rfl
  · have hmarked : BindsAt registry (Lambda.groupScope words (.value .string) key) markedWords.body
        (Lambda.groupScope words (.value .string) key) [⟨"g", .string⟩, ⟨"n", .int32⟩]
        (marked (parameter ⟨"g", .string⟩)) :=
      bindsAt_selected rfl
    refine ⟨_, hmarked.step (.operand rfl List.mem_cons_self), fun hkept => ?_⟩
    cases hkept (Lambda.root words (.array (.value .string))) rfl

end Keyed

end QueryStage
