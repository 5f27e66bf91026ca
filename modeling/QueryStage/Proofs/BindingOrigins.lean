import QueryStage.Proofs.BindingInvariant

/-!
# Origins of bound nodes

Binding an expression binds the expressions below it, each in a scope of its own. Every node of the
result comes from one of them: it is what that expression is bound to, or the scope holds it. So
the accumulators of a bound expression can be traced back to the calls that they are made of, and
what stands in their selectors to the lambdas of these calls.
-/

namespace QueryStage

namespace Expr

/-- An expression is another one, of which it reads members of constructions as they are written. -/
inductive Reads : Expr → Expr → Prop
  | refl (e : Expr) : Reads e e
  | member {target a e : Expr} {name : String} {declaring ty ty' : Ty} {parameters : List String}
    {args : List Expr} {members : Option (List String)}
    (htarget : Reads target (construct ty' parameters args members))
    (h : constructed? name parameters args members = some a) (rest : Reads a e) :
    Reads (member target name declaring ty) e

/-- The argument that is the member of a construction. -/
def Chosen (target : Expr) (name : String) (a : Expr) : Prop :=
  ∃ ty parameters args members, Reads target (construct ty parameters args members) ∧
    constructed? name parameters args members = some a

theorem Reads.mem_nodes {e e' : Expr} (h : Reads e e') : e' ∈ e.nodes := by
  induction h with
  | refl e => exact self_mem_nodes e
  | member _ h _ ihtarget ih =>
    have hmem := mem_nodes_trans ihtarget (mem_nodes_of_part (mem_of_constructed? h) ih)
    exact mem_nodes_of_part (List.mem_singleton.mpr rfl) hmem

theorem Chosen.mem_nodes {target a : Expr} {name : String} (h : Chosen target name a) :
    a ∈ target.nodes := by
  obtain ⟨ty, parameters, args, members, hreads, h⟩ := h
  exact mem_nodes_trans hreads.mem_nodes
    (mem_nodes_of_part (mem_of_constructed? h) (self_mem_nodes a))

private theorem isGrouping_of_reads {s : Scope} {target : Expr} {ty : Ty}
    {parameters : List String} {args : List Expr} {members : Option (List String)}
    (h : Reads target (construct ty parameters args members)) : s.isGrouping target = false := by
  cases h <;> exact Scope.isGrouping_of_kind (by simp [kind]) (by simp [kind])

theorem Reads.bind_eq_ok {r : Decoders} {s : Scope} {e e' b : Expr} (hreads : Reads e e')
    (h : e.bind r s = .ok b) : e'.bind r s = .ok b := by
  induction hreads generalizing b with
  | refl => exact h
  | @member _ _ _ name _ ty ty' parameters _ members htarget hchosen _ ihtarget ih =>
    rw [bind, Scope.key?_of_isGrouping_eq_false (isGrouping_of_reads htarget)] at h
    obtain ⟨bound, hbound, h⟩ := bind_eq_ok_iff.mp h
    obtain ⟨args', hargs, rfl⟩ := bind_construct_cases (ihtarget hbound)
    have hrel := constructed?_rel name parameters members hargs
    rw [hchosen] at hrel
    cases hargument : constructed? name parameters args' members with
    | none => rw [hargument] at hrel; cases hrel
    | some b' =>
      have hresolve : (construct ty' parameters args' members).resolve? name ty = some b' :=
        hargument
      rw [bindMember_of_resolve? hresolve] at h
      cases h
      rw [hargument] at hrel
      cases hrel with
      | some ha => exact ih ha

theorem Chosen.bind_eq_ok {r : Decoders} {s : Scope} {target a b : Expr} {name : String}
    {declaring ty : Ty} (hchosen : Chosen target name a)
    (h : (member target name declaring ty).bind r s = .ok b) : a.bind r s = .ok b := by
  obtain ⟨ty', parameters, args, members, hreads, hchosen⟩ := hchosen
  exact (Reads.member hreads hchosen (.refl a)).bind_eq_ok h

/-- A lambda at an expression and the scope of its body. The lambda is the expression itself, or an
argument of a call that ranges over elements. -/
inductive Ranges (r : Decoders) : Scope → Expr → Scope → Lambda → Prop
  | here (s : Scope) (fn : Lambda) : Ranges r s (lambda fn) s fn
  | on {s inner : Scope} {receiver items : Expr} {method : String} {declaring : Ty}
    {args : List Expr} {ty : Ty} {fn : Lambda} (hreceiver : receiver.bind r s = .ok items)
    (h : lambda fn ∈ args) (henter : s.enter r fn.params (some items) = .ok inner) :
    Ranges r s (call (some receiver) method declaring args ty) inner fn
  | first {s inner : Scope} {method : String} {declaring : Ty} {args : List Expr} {ty : Ty}
    {fn : Lambda} (henter : s.enter r fn.params none = .ok inner) :
    Ranges r s (call none method declaring (lambda fn :: args) ty) inner fn
  | after {s inner : Scope} {first items : Expr} {method : String} {declaring : Ty}
    {args : List Expr} {ty : Ty} {fn : Lambda} (hfirst : BoundArg r s none first items)
    (h : lambda fn ∈ args) (henter : s.enter r fn.params (some items) = .ok inner) :
    Ranges r s (call none method declaring (first :: args) ty) inner fn

/-- Binding an expression in a scope binds another one below it, in its own scope, and keeps what
comes of it. Of a construction only the argument is kept that a member reads, and a call that
becomes an accumulator drops its receiver. -/
inductive Enters (r : Decoders) : Scope → Expr → Scope → Expr → Prop
  | operand {s : Scope} {e part : Expr} (hplain : e.isPlain = true) (h : part ∈ e.parts) :
    Enters r s e s part
  | target {s : Scope} {target : Expr} {name : String} {declaring ty : Ty}
    (hkept : ∀ a, ¬ Chosen target name a) : Enters r s (member target name declaring ty) s target
  | chosen {s : Scope} {target a : Expr} {name : String} {declaring ty : Ty}
    (h : Chosen target name a) : Enters r s (member target name declaring ty) s a
  | receiver {s : Scope} {receiver : Expr} {method : String} {declaring : Ty} {args : List Expr}
    {ty : Ty} (hkept : ∀ b, (call (some receiver) method declaring args ty).bind r s = .ok b →
      b.isAccumulator = false) :
    Enters r s (call (some receiver) method declaring args ty) s receiver
  | argument {s : Scope} {receiver : Option Expr} {method : String} {declaring : Ty}
    {args : List Expr} {ty : Ty} {a : Expr} (h : a ∈ args) (hkind : a.kind ≠ .lambda) :
    Enters r s (call receiver method declaring args ty) s a
  | body {s inner : Scope} {e : Expr} {fn : Lambda} (h : Ranges r s e inner fn) :
    Enters r s e inner fn.body

/-- Binding the first expression in its scope binds the second one in its own. -/
inductive Visits (r : Decoders) : Scope → Expr → Scope → Expr → Prop
  | refl (s : Scope) (e : Expr) : Visits r s e s e
  | step {s s₁ s₂ : Scope} {e e₁ e₂ : Expr} (h : Enters r s e s₁ e₁)
    (rest : Visits r s₁ e₁ s₂ e₂) : Visits r s e s₂ e₂

theorem Visits.trans {r : Decoders} {s₁ s₂ s₃ : Scope} {e₁ e₂ e₃ : Expr}
    (h : Visits r s₁ e₁ s₂ e₂) (h' : Visits r s₂ e₂ s₃ e₃) : Visits r s₁ e₁ s₃ e₃ := by
  induction h with
  | refl => exact h'
  | step h _ ih => exact .step h (ih h')

/-- Binding an expression reaches a lambda, whose body it binds in this scope. -/
def Within (r : Decoders) (s : Scope) (e : Expr) (inner : Scope) (fn : Lambda) : Prop :=
  ∃ s' e', Visits r s e s' e' ∧ Ranges r s' e' inner fn

section Below

variable {r : Decoders} {s s' : Scope} {e e' : Expr} {fn : Lambda}

theorem Ranges.mem_nodes (h : Ranges r s e s' fn) : lambda fn ∈ e.nodes := by
  cases h with
  | here => exact self_mem_nodes _
  | on _ h => exact mem_nodes_of_part (by simp [parts, h]) (self_mem_nodes _)
  | first => exact mem_nodes_of_part (by simp [parts]) (self_mem_nodes _)
  | after _ h => exact mem_nodes_of_part (by simp [parts, h]) (self_mem_nodes _)

theorem Enters.mem_nodes (h : Enters r s e s' e') : e' ∈ e.nodes := by
  cases h with
  | operand _ h => exact mem_nodes_of_part h (self_mem_nodes _)
  | target => exact mem_nodes_of_part (by simp [parts]) (self_mem_nodes _)
  | chosen h => exact mem_nodes_of_part (by simp [parts]) h.mem_nodes
  | receiver => exact mem_nodes_of_part (by simp [parts]) (self_mem_nodes _)
  | argument h => exact mem_nodes_of_part (by simp [parts, h]) (self_mem_nodes _)
  | body h => exact mem_nodes_trans h.mem_nodes (body_mem_nodes _)

theorem Visits.mem_nodes (h : Visits r s e s' e') : e' ∈ e.nodes := by
  induction h with
  | refl s e => exact self_mem_nodes e
  | step h _ ih => exact mem_nodes_trans h.mem_nodes ih

theorem Within.mem_nodes (h : Within r s e s' fn) : lambda fn ∈ e.nodes := by
  obtain ⟨_, _, hvisits, hranges⟩ := h
  exact mem_nodes_trans hvisits.mem_nodes hranges.mem_nodes

theorem Within.body_mem_nodes (h : Within r s e s' fn) : fn.body ∈ e.nodes :=
  mem_nodes_trans h.mem_nodes (Expr.body_mem_nodes fn)

end Below

def NoAccumulator (n : Expr) : Prop := n.isAccumulator = false

theorem NoAccumulator.false {n : Expr} (h : n.NoAccumulator) (hacc : n.isAccumulator = true) :
    False := by
  rw [h] at hacc
  cases hacc

theorem noAccumulator_of_isWritten {n : Expr} (h : n.isWritten = true) : n.NoAccumulator := by
  cases n with
  | accumulate => cases h
  | _ => rfl

theorem document_of_element? {ds : Decoders} {source b : Expr} {p : Parameter}
    (h : source.element? ds p = .ok (some b)) : ∃ path d, b = document (parameter p) path d := by
  rcases element?_cases h with ⟨path, _, _, i, -, -, rfl⟩ | ⟨_, path, _, i, -, -, rfl⟩ |
    ⟨i, -, -, -, rfl⟩
  · exact ⟨_, i, rfl⟩
  · exact ⟨path, i, rfl⟩
  · exact ⟨_, i, rfl⟩

end Expr

/-- A scope in which parameters stand for documents under their own names, and the key holds no
accumulator. -/
structure Scope.Plain (s : Scope) : Prop where
  lookup : ∀ {name : String} {e : Expr}, s.lookup name = some e →
    ∃ p path d, p.name = name ∧ e = .document (.parameter p) path d
  key : ∀ {g : GroupScope}, s.group = some g → g.key.All Expr.NoAccumulator

namespace Scope.Plain

variable {s : Scope}

theorem hide (h : s.Plain) (name : String) : (s.hide name).Plain := by
  exact ⟨fun he => h.lookup (lookup_hide_cases he), h.key⟩

theorem bind (h : s.Plain) (p : Parameter) (path : Option Path) (d : Decoder) :
    (s.bind p.name (.document (.parameter p) path d)).Plain := by
  refine ⟨fun {n e} he => ?_, h.key⟩
  rcases lookup_bind_cases he with ⟨rfl, rfl⟩ | he
  · exact ⟨p, path, d, rfl, rfl⟩
  · exact h.lookup he

theorem enter {r : Decoders} (h : s.Plain) {params : List Parameter} {source : Option Expr}
    {inner : Scope} (henter : s.enter r params source = .ok inner) : inner.Plain := by
  rcases enter_cases henter with rfl | ⟨p, -, rfl⟩ | ⟨p, items, e, -, -, helement, rfl⟩
  · exact h
  · exact h.hide p.name
  · obtain ⟨path, d, rfl⟩ := Expr.document_of_element? helement
    exact h.bind p path d

theorem noAccumulator_of_lookup (h : s.Plain) {name : String} {e : Expr}
    (he : s.lookup name = some e) : e.All Expr.NoAccumulator := by
  obtain ⟨p, path, d, -, rfl⟩ := h.lookup he
  intro n hn
  simp only [Expr.nodes, List.mem_cons, List.not_mem_nil, or_false] at hn
  rcases hn with rfl | rfl <;> rfl

end Scope.Plain

theorem Scope.isGrouping_cases {s : Scope} {e : Expr} (h : s.isGrouping e = true) :
    ∃ g p, s.group = some g ∧ p.name = g.parameter ∧
      (e = .parameter p ∨ ∃ d, e = .document (.parameter p) none d) := by
  unfold isGrouping at h
  split at h
  · rename_i g p hg
    exact ⟨g, p, hg, of_decide_eq_true h, .inl rfl⟩
  · rename_i g p d hg
    exact ⟨g, p, hg, of_decide_eq_true h, .inr ⟨d, rfl⟩⟩
  · cases h

theorem Scope.isGrouping_congr {s s' : Scope} (h : s'.group = s.group) (e : Expr) :
    s'.isGrouping e = s.isGrouping e := by
  unfold isGrouping
  rw [h]

namespace Expr

section Scopes

variable {r : Decoders} {s s' : Scope} {e e' : Expr} {fn : Lambda}

theorem Ranges.enter (h : Ranges r s e s' fn) :
    s' = s ∨ ∃ source, s.enter r fn.params source = .ok s' := by
  cases h with
  | here => exact .inl rfl
  | on _ _ henter => exact .inr ⟨_, henter⟩
  | first henter => exact .inr ⟨_, henter⟩
  | after _ _ henter => exact .inr ⟨_, henter⟩

theorem Ranges.group (h : Ranges r s e s' fn) : s'.group = s.group := by
  rcases h.enter with rfl | ⟨source, henter⟩
  · rfl
  · exact Scope.group_of_enter henter

theorem Ranges.plain (h : Ranges r s e s' fn) (hs : s.Plain) : s'.Plain := by
  rcases h.enter with rfl | ⟨source, henter⟩
  · exact hs
  · exact hs.enter henter

theorem Enters.plain (h : Enters r s e s' e') (hs : s.Plain) : s'.Plain := by
  cases h with
  | body h => exact h.plain hs
  | _ => exact hs

theorem Visits.group (h : Visits r s e s' e') : s'.group = s.group := by
  induction h with
  | refl => rfl
  | step h _ ih =>
    cases h with
    | body h => exact ih.trans h.group
    | _ => exact ih

theorem Visits.plain (h : Visits r s e s' e') (hs : s.Plain) : s'.Plain := by
  induction h with
  | refl => exact hs
  | step h _ ih => exact ih (h.plain hs)

theorem Within.group (h : Within r s e s' fn) : s'.group = s.group := by
  obtain ⟨_, _, hvisits, hranges⟩ := h
  exact hranges.group.trans hvisits.group

theorem Within.plain (h : Within r s e s' fn) (hs : s.Plain) : s'.Plain := by
  obtain ⟨_, _, hvisits, hranges⟩ := h
  exact hranges.plain (hvisits.plain hs)

end Scopes

/-- What stands in the selector of an accumulator. -/
def selected : Expr → List Expr
  | accumulate _ _ (some fn) _ => fn.body.nodes
  | _ => []

/-- An expression becomes an accumulator over the grouping. Each accumulator in its selector stands
in a lambda below the expression. -/
structure Accumulated (r : Decoders) (s : Scope) (e n : Expr) : Prop where
  bind : e.bind r s = .ok n
  source : ∃ fn source selector ty, n = accumulate fn source selector ty ∧
    s.isGrouping source = true
  selected : ∀ inner ∈ n.selected, inner.isAccumulator = true →
    ∃ s' fn b, Within r s e s' fn ∧ fn.body.bind r s' = .ok b ∧ inner ∈ b.nodes

/-- How a node of the result comes from an expression. -/
inductive Source (r : Decoders) : Scope → Expr → Expr → Prop
  | same {s : Scope} {e n : Expr} (h : e.bind r s = .ok n) (hkind : e.kind = n.kind)
    (hlambda : n.kind ≠ .lambda) : Source r s e n
  | each {s inner : Scope} {e b : Expr} {fn : Lambda} (h : Ranges r s e inner fn)
    (hb : fn.body.bind r inner = .ok b) : Source r s e (lambda ⟨fn.params, b⟩)
  | accumulated {s : Scope} {e n : Expr} (h : Accumulated r s e n) : Source r s e n
  | held {s : Scope} {p : Parameter} {x n : Expr} (h : s.lookup p.name = some x)
    (hn : n ∈ x.nodes) : Source r s (parameter p) n
  | key {s : Scope} {target key n : Expr} {name : String} {declaring ty : Ty}
    (h : s.key? target name = some key) (hn : n ∈ key.nodes) :
    Source r s (member target name declaring ty) n
  | added {s : Scope} {e n : Expr}
    (h : n.kind = .literal ∨ n.kind = .conditional ∨ n.kind = .field) : Source r s e n

/-- A node comes from an expression that binding visits. -/
def Origin (r : Decoders) (s : Scope) (e n : Expr) : Prop :=
  ∃ s' e', Visits r s e s' e' ∧ Source r s' e' n

/-- All nodes that binding makes of an expression have an origin. -/
abbrev Traced (r : Decoders) (e : Expr) : Prop :=
  ∀ s b, s.Plain → e.bind r s = .ok b → ∀ n ∈ b.nodes, Origin r s e n

section Origins

variable {r : Decoders} {s : Scope} {e n : Expr}

theorem Source.origin (h : Source r s e n) : Origin r s e n := ⟨s, e, .refl s e, h⟩

theorem Origin.step {s₁ : Scope} {e₁ : Expr} (h : Enters r s e s₁ e₁) (horigin : Origin r s₁ e₁ n) :
    Origin r s e n := by
  obtain ⟨s', e', hvisits, hsource⟩ := horigin
  exact ⟨s', e', .step h hvisits, hsource⟩

theorem Origin.accumulated (h : Origin r s e n) (hs : s.Plain) (he : e.Written)
    (hacc : n.isAccumulator = true) : ∃ s' e', Visits r s e s' e' ∧ Accumulated r s' e' n := by
  obtain ⟨s', e', hvisits, hsource⟩ := h
  cases hsource with
  | same _ hkind =>
    refine (NoAccumulator.false ?_ hacc).elim
    have hwritten : e'.isWritten = true := (he.below hvisits.mem_nodes).self
    rw [isWritten, hkind] at hwritten
    exact noAccumulator_of_isWritten hwritten
  | each => cases hacc
  | accumulated h => exact ⟨s', e', hvisits, h⟩
  | held h hn =>
    have hno := (hvisits.plain hs).noAccumulator_of_lookup h n hn
    exact (hno.false hacc).elim
  | key h hn =>
    obtain ⟨-, -, g, hg, rfl⟩ := Scope.key?_cases h
    exact (((hvisits.plain hs).key hg n hn).false hacc).elim
  | added h =>
    refine (NoAccumulator.false ?_ hacc).elim
    rcases h with h | h | h <;> rw [NoAccumulator, isAccumulator, h] <;> rfl

theorem Origin.lambda {fn : Lambda} (h : Origin r s e (lambda fn)) (hs : s.Plain) :
    (∃ s' fn', Within r s e s' fn' ∧ fn'.body.bind r s' = .ok fn.body) ∨
      (Expr.lambda fn).All NoAccumulator := by
  obtain ⟨s', e', hvisits, hsource⟩ := h
  generalize hn : Expr.lambda fn = n at hsource
  cases hsource with
  | same _ _ hlambda => exact (hlambda (hn ▸ rfl)).elim
  | each h hb =>
    cases hn
    exact .inl ⟨_, _, ⟨s', e', hvisits, h⟩, hb⟩
  | accumulated h =>
    obtain ⟨_, _, _, _, rfl, -⟩ := h.source
    cases hn
  | held h hmem => exact .inr (((hvisits.plain hs).noAccumulator_of_lookup h).below (hn ▸ hmem))
  | key h hmem =>
    obtain ⟨-, -, g, hg, rfl⟩ := Scope.key?_cases h
    exact .inr (((hvisits.plain hs).key hg).below (hn ▸ hmem))
  | added h =>
    subst hn
    rcases h with h | h | h <;> cases h

theorem nodes_of_resolve? {b : Expr} {name : String} {ty : Ty} (h : e.resolve? name ty = some b)
    (hn : n ∈ b.nodes) :
    n.kind = .field ∨ n ∈ e.nodes ∧ ∀ p path d, e ≠ document (parameter p) path d := by
  rcases resolve?_cases h with ⟨p, d, ty', m, rfl, hm, rfl⟩ |
    ⟨inner, path, d, m, rfl, hm, rfl, hinner⟩ | ⟨ty', parameters, args, members, he, hb⟩
  · exact .inl (List.mem_singleton.mp hn ▸ rfl)
  · exact .inl (List.mem_singleton.mp hn ▸ rfl)
  · have hconstruct : n ∈ (construct ty' parameters args members).nodes :=
      mem_nodes_of_part (mem_of_constructed? hb) hn
    rcases he with rfl | ⟨path, d, rfl⟩
    · exact .inr ⟨hconstruct, nofun⟩
    · exact .inr ⟨mem_nodes_of_part (by simp [parts]) hconstruct, nofun⟩

theorem field_of_item {source item body : Expr} {p : Parameter} {name : String} {ty : Ty}
    (helement : source.element? r p = .ok (some item)) (hbody : item.resolve? name ty = some body)
    (hn : n ∈ body.nodes) : n.kind = .field := by
  obtain ⟨path, d, rfl⟩ := document_of_element? helement
  rcases nodes_of_resolve? hbody hn with hfield | ⟨-, hne⟩
  · exact hfield
  · exact (hne p path d rfl).elim

private theorem origin_of_bindMember {target bound b : Expr} {name : String} {declaring ty : Ty}
    (hs : s.Plain) (hwritten : (member target name declaring ty).Written)
    (hkept : ∀ a, ¬ Chosen target name a) (htarget : ∀ n ∈ bound.nodes, Origin r s target n)
    (hself : (member target name declaring ty).bind r s = .ok b)
    (h : bindMember r bound name declaring ty = .ok b) (hn : n ∈ b.nodes) :
    Origin r s (member target name declaring ty) n := by
  have below (n : Expr) (hmem : n ∈ bound.nodes) : Origin r s (member target name declaring ty) n :=
    .step (.target hkept) (htarget n hmem)
  rcases bindMember_cases h with hresolve | rfl |
    ⟨fn, source, ty', item, body, rfl, helement, hbody, rfl⟩
  · rcases nodes_of_resolve? hresolve hn with hfield | ⟨hmem, -⟩
    · exact Source.origin (.added (.inr (.inr hfield)))
    · exact below n hmem
  · rcases mem_nodes_iff.mp hn with rfl | ⟨part, hpart, hmem⟩
    · exact Source.origin (.same hself rfl (by simp [kind]))
    · cases List.mem_singleton.mp hpart
      exact below n hmem
  · simp only [nodes, List.mem_cons, List.mem_append] at hn
    rcases hn with rfl | hsource | hselector
    · -- The first or last element is itself an accumulator, so its source is the grouping.
      obtain ⟨s', e', hvisits, htarget⟩ := (below _ (self_mem_nodes _)).accumulated hs hwritten rfl
      obtain ⟨_, _, _, _, heq, hgrouping⟩ := htarget.source
      cases heq
      rw [Scope.isGrouping_congr hvisits.group] at hgrouping
      refine Source.origin (.accumulated ⟨hself, ⟨_, _, _, _, rfl, hgrouping⟩, ?_⟩)
      intro inner hinner hacc
      rw [isAccumulator, field_of_item helement hbody hinner] at hacc
      cases hacc
    · exact below n (mem_nodes_of_part (by simp [parts]) hsource)
    · exact Source.origin (.added (.inr (.inr (field_of_item helement hbody hselector))))

theorem arg_of_boundArgs {receiver receiver' : Option Expr} {args args' : List Expr}
    (hreceiver : Option.Rel (fun e e' => e.bind r s = .ok e') receiver receiver')
    (h : BoundArgs r s receiver' args args') {b : Expr} (hb : b ∈ args') (method : String)
    (declaring ty : Ty) :
    (∃ a ∈ args, a.kind ≠ .lambda ∧ a.bind r s = .ok b) ∨
      ∃ inner fn body, lambda fn ∈ args ∧
        Ranges r s (call receiver method declaring args ty) inner fn ∧
        fn.body.bind r inner = .ok body ∧ b = Expr.lambda ⟨fn.params, body⟩ := by
  have arg {e : Expr} (he : e ∈ args) {source : Option Expr} (hb : BoundArg r s source e b)
      (heach : ∀ fn inner, e = Expr.lambda fn → s.enter r fn.params source = .ok inner →
        Ranges r s (call receiver method declaring args ty) inner fn) :
      (∃ a ∈ args, a.kind ≠ .lambda ∧ a.bind r s = .ok b) ∨
        ∃ inner fn body, lambda fn ∈ args ∧
          Ranges r s (call receiver method declaring args ty) inner fn ∧
          fn.body.bind r inner = .ok body ∧ b = Expr.lambda ⟨fn.params, body⟩ := by
    cases hb with
    | operand hkind h => exact .inl ⟨e, he, hkind, h⟩
    | @each inner params body b henter h =>
      exact .inr ⟨inner, ⟨params, body⟩, b, he, heach _ inner rfl henter, h, rfl⟩
  cases h with
  | on h =>
    obtain ⟨e, he, heb⟩ := exists_of_forall₂ h hb
    cases hreceiver with
    | some hreceiver =>
      exact arg he heb fun fn inner heq henter => .on hreceiver (heq ▸ he) henter
  | nil => cases hb
  | @cons first b₀ es bs hfirst h =>
    cases hreceiver
    rcases List.mem_cons.mp hb with rfl | hb
    · refine arg (by simp) hfirst fun fn inner heq henter => ?_
      subst heq
      exact .first henter
    · obtain ⟨e, he, heb⟩ := exists_of_forall₂ h hb
      exact arg (List.mem_cons_of_mem _ he) heb fun fn inner heq henter =>
        .after hfirst (heq ▸ he) henter

private theorem origin_of_boundArgs {receiver receiver' : Option Expr} {method : String}
    {declaring ty : Ty} {args args' : List Expr} (hs : s.Plain)
    (hreceiver : Option.Rel (fun e e' => e.bind r s = .ok e') receiver receiver')
    (h : BoundArgs r s receiver' args args') (ih : ∀ e ∈ args, Traced r e)
    (ihb : ∀ params body, Expr.lambda ⟨params, body⟩ ∈ args → Traced r body) {b : Expr}
    (hb : b ∈ args') (hn : n ∈ b.nodes) :
    Origin r s (call receiver method declaring args ty) n := by
  rcases arg_of_boundArgs hreceiver h hb method declaring ty with
    ⟨a, ha, hkind, hbound⟩ | ⟨inner, ⟨params, body⟩, body', hfn, hranges, hbody, rfl⟩
  · exact .step (.argument ha hkind) (ih a ha s b hs hbound n hn)
  · rcases mem_nodes_iff.mp hn with rfl | ⟨part, hpart, hmem⟩
    · exact Source.origin (.each hranges hbody)
    · cases List.mem_singleton.mp hpart
      exact .step (.body hranges) (ihb params body hfn inner body' (hranges.plain hs) hbody n hmem)

private theorem selected_of_grouping {acc : AccumulatorFn} {source inner : Expr}
    {fn : Option Lambda} {counts : Bool} {ty : Ty}
    (h : inner ∈ (accumulate acc source
      (if counts = true then some (grouped?.counting ty fn) else fn) ty).selected)
    (hacc : inner.isAccumulator = true) : ∃ f, fn = some f ∧ inner ∈ f.body.nodes := by
  cases counts with
  | false =>
    cases fn with
    | none => cases h
    | some f => exact ⟨f, rfl, h⟩
  | true =>
    rcases nodes_of_counting h with hcount | hf
    · rcases hcount with hkind | hkind <;> rw [isAccumulator, hkind] at hacc <;> cases hacc
    · exact hf

private theorem accumulated_of_accumulator? {method : String} {declaring ty : Ty}
    {args : List Expr} (hs : s.Plain) (he : e.Written)
    (hargs : ∀ a ∈ args, ∀ n ∈ a.nodes, Origin r s e n) (hself : e.bind r s = .ok n)
    (h : s.accumulator? method declaring args ty = some n) : Accumulated r s e n := by
  rcases (accumulator?_cases h).2 with
    ⟨fn, source, selector, ty', rfl, rfl⟩ | ⟨source, fn, acc, counts, hgroupingArgs, hgrouping, rfl⟩
  · have horigin := hargs _ (List.mem_singleton.mpr rfl) _ (self_mem_nodes _)
    obtain ⟨s', e', hvisits, hpush⟩ := horigin.accumulated hs he rfl
    obtain ⟨_, _, _, _, heq, hgrouping⟩ := hpush.source
    cases heq
    rw [Scope.isGrouping_congr hvisits.group] at hgrouping
    refine ⟨hself, ⟨_, _, _, _, rfl, hgrouping⟩, fun inner hinner hacc => ?_⟩
    have hinner : inner ∈ (accumulate .push source selector ty').selected := by
      cases selector <;> exact hinner
    obtain ⟨s₂, fn', b, ⟨s₁, e₁, hvisits', hranges⟩, hb, hmem⟩ := hpush.selected inner hinner hacc
    exact ⟨s₂, fn', b, ⟨s₁, e₁, hvisits.trans hvisits', hranges⟩, hb, hmem⟩
  · refine ⟨hself, ⟨_, _, _, _, rfl, hgrouping⟩, fun inner hinner hacc => ?_⟩
    obtain ⟨f, rfl, hmem⟩ := selected_of_grouping hinner hacc
    cases hgroupingArgs
    have horigin := hargs (Expr.lambda f) (by simp) _ (self_mem_nodes _)
    rcases horigin.lambda hs with ⟨s', fn', hwithin, hb⟩ | hno
    · exact ⟨s', fn', f.body, hwithin, hb, hmem⟩
    · have hinner := hno inner (mem_nodes_of_part (by simp [parts]) hmem)
      exact (hinner.false hacc).elim

private theorem origin_of_bind_call {receiver : Option Expr} {method : String} {declaring ty : Ty}
    {args : List Expr} {b : Expr} (hs : s.Plain)
    (he : (call receiver method declaring args ty).Written)
    (ihr : ∀ e, receiver = some e → Traced r e) (iha : ∀ e ∈ args, Traced r e)
    (ihb : ∀ params body, Expr.lambda ⟨params, body⟩ ∈ args → Traced r body)
    (h : (call receiver method declaring args ty).bind r s = .ok b) (hn : n ∈ b.nodes) :
    Origin r s (call receiver method declaring args ty) n := by
  obtain ⟨receiver', args', hreceiver, hargs, hb⟩ := bind_call_cases h
  have harg (a : Expr) (ha : a ∈ args') (n : Expr) (hmem : n ∈ a.nodes) :
      Origin r s (call receiver method declaring args ty) n :=
    origin_of_boundArgs hs hreceiver hargs iha ihb ha hmem
  rcases hb with hacc | rfl
  · rcases nodes_of_accumulator? hacc hn with rfl | hcount | ⟨a, ha, hmem⟩
    · exact Source.origin (.accumulated (accumulated_of_accumulator? hs he harg h hacc))
    · exact Source.origin (.added (hcount.imp_right .inl))
    · exact harg a ha n hmem
  · rcases mem_nodes_iff.mp hn with rfl | ⟨part, hpart, hmem⟩
    · exact Source.origin (.same h rfl (by simp [kind]))
    · rcases List.mem_append.mp hpart with hpart | hpart
      · cases Option.mem_toList.mp hpart
        cases hreceiver with
        | some hreceiver =>
          refine .step (.receiver fun b hb => ?_) (ihr _ rfl s part hs hreceiver n hmem)
          rw [h, Except.ok.injEq] at hb
          rw [← hb]
          rfl
      · exact harg part hpart n hmem

/-- Every node of a bound expression has an origin. -/
theorem traced_of_written {e : Expr} (he : e.Written) : Traced r e := by
  induction e using induct_nodes with
  | step e ih =>
    intro s b hs h n hn
    have below {part n : Expr} (hpart : part ∈ e.parts) (hn : n ∈ part.nodes) : Traced r n :=
      ih part hpart n hn (he.below (mem_nodes_of_part hpart hn))
    cases hplain : e.isPlain with
    | true =>
      obtain ⟨hkind, hparts⟩ := forall₂_parts_of_bind hplain he.self h
      rcases mem_nodes_iff.mp hn with rfl | ⟨part', hpart', hmem⟩
      · refine Source.origin (.same h hkind.symm fun hlambda => ?_)
        rw [isPlain, ← hkind, hlambda] at hplain
        cases hplain
      · obtain ⟨part, hpart, hbound⟩ := exists_of_forall₂ hparts hpart'
        exact .step (.operand hplain hpart)
          (below hpart (self_mem_nodes part) s part' hs hbound n hmem)
    | false =>
      cases e with
      | parameter p =>
        rcases bind_parameter_cases h with rfl | hlookup
        · cases List.mem_singleton.mp hn
          exact Source.origin (.same h rfl (by simp [kind]))
        · exact Source.origin (.held hlookup hn)
      | member target name declaring ty =>
        by_cases hchosen : ∃ a, Chosen target name a
        · obtain ⟨a, ha⟩ := hchosen
          have hmem : a ∈ target.nodes := ha.mem_nodes
          exact .step (.chosen ha) (below (by simp [parts]) hmem s b hs (ha.bind_eq_ok h) n hn)
        · rcases bind_member_cases h with hkey | ⟨-, bound, hbound, hmember⟩
          · exact Source.origin (.key hkey hn)
          · have htarget := below (by simp [parts]) (self_mem_nodes target) s bound hs hbound
            exact origin_of_bindMember hs he (not_exists.mp hchosen) htarget h hmember hn
      | call receiver method declaring args ty =>
        refine origin_of_bind_call hs he (fun a ha => below ?_ (self_mem_nodes a))
          (fun a ha => below ?_ (self_mem_nodes a))
          (fun params body hmem => below ?_ (body_mem_nodes ⟨params, body⟩)) h hn
        · simp [parts, ha]
        · simp [parts, ha]
        · simp [parts, hmem]
      | lambda fn =>
        obtain ⟨body', hbody, rfl⟩ := bind_lambda_cases h
        have hranges : Ranges r s (lambda fn) s fn := .here s fn
        rcases mem_nodes_iff.mp hn with rfl | ⟨part, hpart, hmem⟩
        · exact Source.origin (.each hranges hbody)
        · cases List.mem_singleton.mp hpart
          exact .step (.body hranges)
            (below (by simp [parts]) (self_mem_nodes fn.body) s body' hs hbody n hmem)
      | _ => cases hplain

/-- Accumulators of a bound expression are made of expressions that binding visits. -/
theorem accumulated_of_bind {b : Expr} (he : e.Written) (hs : s.Plain) (h : e.bind r s = .ok b)
    (hn : n ∈ b.nodes) (hacc : n.isAccumulator = true) :
    ∃ s' e', Visits r s e s' e' ∧ Accumulated r s' e' n :=
  (traced_of_written he s b hs h n hn).accumulated hs he hacc

theorem noAccumulator_of_bind {b : Expr} (he : e.Written) (hs : s.Plain) (hgroup : s.group = none)
    (h : e.bind r s = .ok b) : b.All NoAccumulator := by
  intro n hn
  rw [NoAccumulator, ← Bool.not_eq_true]
  intro hacc
  obtain ⟨s', e', hvisits, haccumulated⟩ := accumulated_of_bind he hs h hn hacc
  obtain ⟨_, _, _, _, -, hgrouping⟩ := haccumulated.source
  obtain ⟨g, _, hg, -⟩ := Scope.isGrouping_cases hgrouping
  rw [hvisits.group, hgroup] at hg
  cases hg

def Names (name : String) (e : Expr) : Prop := ∃ p, parameter p ∈ e.nodes ∧ p.name = name

theorem Names.above {e' : Expr} {name : String} (h : e'.Names name) (he : e' ∈ e.nodes) :
    e.Names name := by
  obtain ⟨p, hp, hname⟩ := h
  exact ⟨p, mem_nodes_trans he hp, hname⟩

theorem names_parameter (p : Parameter) : (parameter p).Names p.name :=
  ⟨p, self_mem_nodes _, rfl⟩

private theorem name_of_held {p q : Parameter} {x : Expr} (hs : s.Plain)
    (h : s.lookup q.name = some x) (hn : n ∈ x.nodes)
    (hp : n = parameter p ∨ ∃ d, n = document (parameter p) none d) : q.name = p.name := by
  obtain ⟨p', path, d, hname, rfl⟩ := hs.lookup h
  simp only [nodes, List.mem_cons, List.not_mem_nil, or_false] at hn
  rcases hn with rfl | rfl <;> rcases hp with heq | ⟨d, heq⟩ <;> cases heq <;> exact hname.symm

theorem names_of_isGrouping {b : Expr} {g : GroupScope} (he : e.Written) (hs : s.Plain)
    (hg : s.group = some g) (h : e.bind r s = .ok b) (hn : n ∈ b.nodes)
    (hgrouping : s.isGrouping n = true) : e.Names g.parameter := by
  obtain ⟨s', e', hvisits, hsource⟩ := traced_of_written he s b hs h n hn
  refine Names.above ?_ hvisits.mem_nodes
  have hs' := hvisits.plain hs
  have hwritten : e'.Written := he.below hvisits.mem_nodes
  obtain ⟨g', p, hg', hname, hp⟩ := Scope.isGrouping_cases hgrouping
  cases hg.symm.trans hg'
  rw [← hname]
  cases hsource with
  | same h hkind =>
    rcases hp with rfl | ⟨d, rfl⟩
    · cases e' with
      | parameter q =>
        rcases bind_parameter_cases h with heq | hlookup
        · cases heq
          exact names_parameter p
        · rw [← name_of_held hs' hlookup (self_mem_nodes _) (.inl rfl)]
          exact names_parameter q
      | _ => cases hkind
    · have hself := hwritten.self
      rw [isWritten, hkind] at hself
      cases hself
  | each => rcases hp with hp | ⟨d, hp⟩ <;> cases hp
  | accumulated h =>
    obtain ⟨_, _, _, _, rfl, -⟩ := h.source
    rcases hp with hp | ⟨d, hp⟩ <;> cases hp
  | held h hn =>
    rw [← name_of_held hs' h hn hp]
    exact names_parameter _
  | key h _ =>
    obtain ⟨-, htarget, -⟩ := Scope.key?_cases h
    obtain ⟨g', q, hg', hqname, hq⟩ := Scope.isGrouping_cases htarget
    rw [hvisits.group, hg] at hg'
    cases hg'
    rcases hq with rfl | ⟨d, rfl⟩
    · rw [hname, ← hqname]
      exact (names_parameter q).above (mem_nodes_of_part (by simp [parts]) (self_mem_nodes _))
    · cases (hwritten.part (List.mem_singleton.mpr rfl)).self
  | added h => rcases hp with rfl | ⟨d, rfl⟩ <;> rcases h with h | h | h <;> cases h

end Origins

end Expr

end QueryStage
