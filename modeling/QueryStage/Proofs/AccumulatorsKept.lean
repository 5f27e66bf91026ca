import QueryStage.Proofs.BindingOrigins

/-!
# Accumulators that are kept

The accumulators in what binding makes of a visited expression are still there in the result. One of
them may give way to another accumulator, which then has all that stands in its selector. In what is
made of an accumulator's own lambdas, they stand in its selector.
-/

namespace QueryStage.Expr

/-- For every accumulator of the first expression, the second one has an accumulator with all that
stands in its selector. -/
def KeptIn (b' b : Expr) : Prop :=
  ∀ n ∈ b'.nodes, n.isAccumulator = true →
    ∃ n' ∈ b.nodes, n'.isAccumulator = true ∧ n.selected ⊆ n'.selected

variable {r : Decoders} {s : Scope} {e a b n : Expr}

theorem keptIn_of_mem_nodes (h : a ∈ b.nodes) : a.KeptIn b :=
  fun n hn hacc => ⟨n, mem_nodes_trans h hn, hacc, List.Subset.refl _⟩

theorem KeptIn.trans {c : Expr} (h : a.KeptIn b) (h' : b.KeptIn c) : a.KeptIn c := by
  intro n hn hacc
  obtain ⟨n₁, hn₁, hacc₁, hsub₁⟩ := h n hn hacc
  obtain ⟨n₂, hn₂, hacc₂, hsub₂⟩ := h' n₁ hn₁ hacc₁
  exact ⟨n₂, hn₂, hacc₂, List.Subset.trans hsub₁ hsub₂⟩

theorem keptIn_of_noAccumulator (h : a.All NoAccumulator) : a.KeptIn b := by
  intro n hn hacc
  exact ((h n hn).false hacc).elim

theorem noAccumulator_of_isGrouping (h : s.isGrouping e = true) : e.All NoAccumulator := by
  obtain ⟨_, p, -, -, rfl | ⟨d, rfl⟩⟩ := Scope.isGrouping_cases h
  · exact all_of_parts_eq_nil rfl rfl
  · refine all_iff.mpr ⟨rfl, fun part hpart => ?_⟩
    cases List.mem_singleton.mp hpart
    exact all_of_parts_eq_nil rfl rfl

theorem noAccumulator_of_parameter {p : Parameter} (hs : s.Plain)
    (h : (parameter p).bind r s = .ok b) : b.All NoAccumulator := by
  rcases bind_parameter_cases h with rfl | hlookup
  · exact all_of_parts_eq_nil rfl rfl
  · exact hs.noAccumulator_of_lookup hlookup

theorem noAccumulator_of_resolve? {name : String} {ty : Ty} (h : e.resolve? name ty = some b)
    (he : e.All NoAccumulator) : b.All NoAccumulator := by
  intro n hn
  rcases nodes_of_resolve? h hn with hfield | ⟨hmem, -⟩
  · rw [NoAccumulator, isAccumulator, hfield]
    rfl
  · exact he n hmem

def NoDocument (n : Expr) : Prop := n.kind ≠ .document

instance : DecidablePred NoDocument :=
  fun n => inferInstanceAs (Decidable (n.kind ≠ .document))

theorem Written.noDocument (he : e.Written) : e.All NoDocument := by
  intro n hn hkind
  have hwritten := he n hn
  simp [isWritten, hkind] at hwritten

/-- A node is no document, or one that stands for a parameter or is part of the key. -/
def HeldIn (group : Option GroupScope) (n : Expr) : Prop :=
  ∀ inner path d, n = document inner path d →
    (∃ p, inner = parameter p) ∨ ∃ g, group = some g ∧ n ∈ g.key.nodes

theorem NoDocument.heldIn (h : n.NoDocument) (group : Option GroupScope) : n.HeldIn group := by
  rintro inner path d rfl
  exact absurd rfl h

theorem heldIn_document {group : Option GroupScope} (p : Parameter) (path : Option Path)
    (d : Decoder) : (document (parameter p) path d).All (HeldIn group) := by
  refine all_iff.mpr ⟨?_, fun part hpart => ?_⟩
  · rintro _ _ _ ⟨⟩
    exact .inl ⟨p, rfl⟩
  · cases List.mem_singleton.mp hpart
    exact all_of_parts_eq_nil rfl (NoDocument.heldIn (by simp [NoDocument, kind]) group)

theorem persistent_heldIn (ds : Decoders) (group : Option GroupScope) :
    Persistent ds (HeldIn group) where
  made hn _ := by
    rintro _ _ _ rfl
    cases hn
  rebuilt _ := NoDocument.heldIn (by simp [NoDocument, kind]) group
  resolve he h := by
    intro n hn
    rcases nodes_of_resolve? h hn with hfield | ⟨hmem, -⟩
    · exact NoDocument.heldIn (by simp [NoDocument, hfield]) group
    · exact he n hmem
  element _ h := by
    obtain ⟨path, d, rfl⟩ := document_of_element? h
    exact heldIn_document _ path d

theorem document_of_bind (he : e.All NoDocument) (hs : s.Plain) {inner : Expr}
    {path : Option Path} {d : Decoder} (h : e.bind r s = .ok (document inner path d)) :
    (∃ p, inner = parameter p) ∨ ∃ g, s.group = some g ∧ document inner path d ∈ g.key.nodes := by
  have hscope : s.All (HeldIn s.group) := by
    constructor
    · intro name e' hlookup
      obtain ⟨p, path', d', -, rfl⟩ := hs.lookup hlookup
      exact heldIn_document p path' d'
    · rintro g hg n hn _ _ _ -
      exact .inr ⟨g, hg, hn⟩
  have hadmits : Admits (HeldIn s.group) s.group :=
    .inl fun fn source selector ty => NoDocument.heldIn (by simp [NoDocument, kind]) _
  have hall := (persistent_heldIn r s.group).all_of_bind (fun n hn => (he n hn).heldIn _) s _ hscope
    hadmits h
  exact hall.self inner path d rfl

theorem chosen_of_reads {target bound : Expr} {name : String} {ty : Ty} {parameters : List String}
    {args args' : List Expr} {members : Option (List String)}
    (hreads : Reads target (construct ty parameters args members))
    (hargs : List.Forall₂ (fun a a' => a.bind r s = .ok a') args args')
    (hb : constructed? name parameters args' members = some bound) : ∃ a, Chosen target name a := by
  have hrel := constructed?_rel name parameters members hargs
  rw [hb] at hrel
  cases hargument : constructed? name parameters args members with
  | none => rw [hargument] at hrel; cases hrel
  | some a => exact ⟨a, ty, parameters, args, members, hreads, hargument⟩

theorem construct_of_bind (he : e.All NoDocument) (hs : s.Plain) {ty : Ty}
    {parameters : List String} {args' : List Expr} {members : Option (List String)}
    (h : e.bind r s = .ok (construct ty parameters args' members)) :
    (∃ args, Reads e (construct ty parameters args members) ∧
      List.Forall₂ (fun a a' => a.bind r s = .ok a') args args') ∨
      ∃ g, s.group = some g ∧ construct ty parameters args' members ∈ g.key.nodes := by
  induction e using induct_nodes generalizing ty parameters args' members with
  | step e ih =>
    cases e with
    | construct =>
      obtain ⟨args'', hargs, heq⟩ := bind_construct_cases h
      cases heq
      exact .inl ⟨_, .refl _, hargs⟩
    | parameter p =>
      rcases bind_parameter_cases h with heq | hlookup
      · cases heq
      · obtain ⟨_, _, _, -, heq⟩ := hs.lookup hlookup
        cases heq
    | member target name declaring ty₀ =>
      have below {a : Expr} (ha : a ∈ target.nodes) :=
        @ih target (by simp [parts]) a ha (he.below (mem_nodes_of_part (by simp [parts]) ha))
      by_cases hchosen : ∃ a, Chosen target name a
      · obtain ⟨a, ha⟩ := hchosen
        refine (below ha.mem_nodes (ha.bind_eq_ok h)).imp_left ?_
        rintro ⟨args, hreads, hargs⟩
        obtain ⟨_, _, _, _, htarget, hargument⟩ := ha
        exact ⟨args, .member htarget hargument hreads, hargs⟩
      · refine .inr ?_
        rcases bind_member_cases h with hkey | ⟨-, bound, hbound, h⟩
        · obtain ⟨-, -, g, hg, heq⟩ := Scope.key?_cases hkey
          exact ⟨g, hg, heq ▸ self_mem_nodes _⟩
        · rcases bindMember_cases h with hresolve | heq | ⟨_, _, _, _, _, -, -, -, heq⟩
          · rcases resolve?_cases hresolve with ⟨_, _, _, _, -, -, heq⟩ |
              ⟨_, _, _, _, -, -, heq, -⟩ | ⟨ty', parameters', args'', members', hshape, hb⟩
            · cases heq
            · cases heq
            · have harg : construct ty parameters args' members ∈
                  (construct ty' parameters' args'' members').nodes :=
                mem_nodes_of_part (mem_of_constructed? hb) (self_mem_nodes _)
              rcases hshape with rfl | ⟨path, d, rfl⟩
              · rcases below (self_mem_nodes target) hbound with ⟨_, hreads, hargs⟩ | ⟨g, hg, hmem⟩
                · exact (hchosen (chosen_of_reads hreads hargs hb)).elim
                · exact ⟨g, hg, mem_nodes_trans hmem harg⟩
              · have htarget : target.All NoDocument := he.part (by simp [parts])
                rcases document_of_bind htarget hs hbound with ⟨p, hp⟩ | ⟨g, hg, hmem⟩
                · cases hp
                · refine ⟨g, hg, mem_nodes_trans hmem ?_⟩
                  exact mem_nodes_of_part (by simp [parts]) harg
          · cases heq
          · cases heq
    | call receiver method declaring args ty₀ =>
      obtain ⟨_, _, -, -, hacc | hcall⟩ := bind_call_cases h
      · cases kind_of_accumulator? hacc
      · cases hcall
    | lambda fn =>
      obtain ⟨_, -, heq⟩ := bind_lambda_cases h
      cases heq
    | accumulate =>
      obtain ⟨_, -, ⟨-, heq⟩ | ⟨_, _, _, _, -, -, -, heq⟩⟩ := bind_accumulate_cases h <;> cases heq
    | field | document => cases h
    | _ => cases (forall₂_parts_of_bind rfl rfl h).1

theorem target_of_resolve? {target bound : Expr} {name : String} {ty : Ty}
    (htarget : target.All NoDocument) (hs : s.Plain) (hkept : ∀ a, ¬ Chosen target name a)
    (hbound : target.bind r s = .ok bound) (h : bound.resolve? name ty = some b) :
    bound.kind = .field ∨ (∃ p path d, bound = document (parameter p) path d) ∨
      ∃ g, s.group = some g ∧ bound ∈ g.key.nodes := by
  have document {inner : Expr} {path : Option Path} {d : Decoder}
      (hbound : target.bind r s = .ok (document inner path d)) :
      (∃ p path' d', document inner path d = document (parameter p) path' d') ∨
        ∃ g, s.group = some g ∧ document inner path d ∈ g.key.nodes := by
    refine (document_of_bind htarget hs hbound).imp_left ?_
    rintro ⟨p, rfl⟩
    exact ⟨p, path, d, rfl⟩
  rcases resolve?_cases h with ⟨_, _, _, _, rfl, -, -⟩ | ⟨_, _, _, _, rfl, -, -, -⟩ |
    ⟨_, _, _, _, rfl | ⟨_, _, rfl⟩, hb⟩
  · exact .inl rfl
  · exact .inr (document hbound)
  · rcases construct_of_bind htarget hs hbound with ⟨_, hreads, hargs⟩ | hkey
    · obtain ⟨a, ha⟩ := chosen_of_reads hreads hargs hb
      exact (hkept a ha).elim
    · exact .inr (.inr hkey)
  · exact .inr (document hbound)

/-- A call of bound arguments becomes an accumulator or stays a call. -/
def CallResult (s : Scope) (args : List Expr) (b : Expr) : Prop :=
  ∃ receiver method declaring ty, s.accumulator? method declaring args ty = some b ∨
    b = call receiver method declaring args ty

theorem mem_nodes_of_selected (h : n ∈ b.selected) : n ∈ b.nodes := by
  cases b with
  | accumulate fn source selector ty =>
    cases selector with
    | none => cases h
    | some fn => exact mem_nodes_of_part (by simp [parts]) h
  | _ => cases h

theorem mem_selected_of_accumulator? {method : String} {declaring ty : Ty} {args : List Expr}
    {fn : Lambda} (h : s.accumulator? method declaring args ty = some b) (hfn : lambda fn ∈ args)
    (hn : n ∈ fn.body.nodes) : n ∈ b.selected := by
  rcases (accumulator?_cases h).2 with
    ⟨_, _, _, _, rfl, -⟩ | ⟨source, f, acc, counts, hargs, hgrouping, rfl⟩
  · cases List.mem_singleton.mp hfn
  · have hne : lambda fn ≠ source := by
      rintro rfl
      obtain ⟨_, _, -, -, heq | ⟨_, heq⟩⟩ := Scope.isGrouping_cases hgrouping <;> cases heq
    cases hargs with
    | alone => exact (hne (List.mem_singleton.mp hfn)).elim
    | each f =>
      simp only [List.mem_cons, hne, List.not_mem_nil, or_false, false_or] at hfn
      cases hfn
      cases counts with
      | false => exact hn
      | true =>
        obtain ⟨params, body⟩ := fn
        exact mem_nodes_of_part (List.mem_cons_self (a := body)) hn

theorem keptIn_of_accumulator? {method : String} {declaring ty : Ty} {args : List Expr}
    (h : s.accumulator? method declaring args ty = some b) (ha : a ∈ args) : a.KeptIn b := by
  rcases (accumulator?_cases h).2 with
    ⟨fn, source, selector, ty', rfl, rfl⟩ | ⟨source, fn, acc, counts, hargs, -, rfl⟩
  · cases List.mem_singleton.mp ha
    intro n hn hacc
    rcases mem_nodes_iff.mp hn with rfl | ⟨part, hpart, hmem⟩
    · refine ⟨_, self_mem_nodes _, rfl, ?_⟩
      cases selector <;> exact List.Subset.refl _
    · exact ⟨n, mem_nodes_of_part hpart hmem, hacc, List.Subset.refl _⟩
  · have hsource : source.KeptIn (accumulate acc source
        (if counts = true then some (grouped?.counting ty fn) else fn) ty) :=
      keptIn_of_mem_nodes (mem_nodes_of_part (by simp [parts]) (self_mem_nodes source))
    cases hargs with
    | alone =>
      cases List.mem_singleton.mp ha
      exact hsource
    | each fn =>
      simp only [List.mem_cons, List.not_mem_nil, or_false] at ha
      rcases ha with rfl | rfl
      · exact hsource
      · intro n hn hacc
        rcases mem_nodes_iff.mp hn with rfl | ⟨part, hpart, hmem⟩
        · cases hacc
        · cases List.mem_singleton.mp hpart
          have hselected := mem_selected_of_accumulator? h (by simp) hmem
          exact ⟨n, mem_nodes_of_selected hselected, hacc, List.Subset.refl _⟩

theorem CallResult.keptIn {args : List Expr} (h : CallResult s args b) (ha : a ∈ args) :
    a.KeptIn b := by
  obtain ⟨receiver, method, declaring, ty, hacc | rfl⟩ := h
  · exact keptIn_of_accumulator? hacc ha
  · exact keptIn_of_mem_nodes (mem_nodes_of_part (by simp [parts, ha]) (self_mem_nodes a))

theorem BoundArg.eq {source : Option Expr} {b' : Expr} (h : BoundArg r s source e b)
    (h' : BoundArg r s source e b') : b = b' := by
  cases h with
  | operand hkind h =>
    cases h' with
    | operand _ h' => exact Except.ok.inj (h.symm.trans h')
    | each => exact absurd rfl hkind
  | each henter h =>
    cases h' with
    | operand hkind => exact absurd rfl hkind
    | each henter' h' =>
      cases henter.symm.trans henter'
      cases h.symm.trans h'
      rfl

private theorem exists_of_boundArgs {receiver : Option Expr} {args args' : List Expr}
    (h : BoundArgs r s receiver args args') (ha : a ∈ args) (hkind : a.kind ≠ .lambda) :
    ∃ a' ∈ args', a.bind r s = .ok a' := by
  have operand {source : Option Expr} {a' : Expr} (h : BoundArg r s source a a') :
      a.bind r s = .ok a' := by
    cases h with
    | operand _ h => exact h
    | each => exact absurd rfl hkind
  cases h with
  | on h =>
    obtain ⟨a', ha', hbound⟩ := exists_of_forall₂ h.flip ha
    exact ⟨a', ha', operand hbound⟩
  | nil => cases ha
  | cons hfirst h =>
    rcases List.mem_cons.mp ha with rfl | ha
    · exact ⟨_, List.mem_cons_self, operand hfirst⟩
    · obtain ⟨a', ha', hbound⟩ := exists_of_forall₂ h.flip ha
      exact ⟨a', List.mem_cons_of_mem _ ha', operand hbound⟩

theorem bind_argument {receiver : Option Expr} {method : String} {declaring ty : Ty}
    {args : List Expr} (h : (call receiver method declaring args ty).bind r s = .ok b)
    (ha : a ∈ args) (hkind : a.kind ≠ .lambda) :
    ∃ a' args', a.bind r s = .ok a' ∧ a' ∈ args' ∧ CallResult s args' b := by
  obtain ⟨receiver', args', -, hargs, hresult⟩ := bind_call_cases h
  obtain ⟨a', ha', hbound⟩ := exists_of_boundArgs hargs ha hkind
  exact ⟨a', args', hbound, ha', receiver', method, declaring, ty, hresult⟩

private theorem bind_each {source : Option Expr} {inner : Scope} {fn : Lambda} {a' : Expr}
    (henter : s.enter r fn.params source = .ok inner) (h : BoundArg r s source (lambda fn) a') :
    ∃ body, fn.body.bind r inner = .ok body ∧ a' = lambda ⟨fn.params, body⟩ := by
  cases h with
  | operand hkind => exact absurd rfl hkind
  | each henter' h =>
    cases henter.symm.trans henter'
    exact ⟨_, h, rfl⟩

theorem Ranges.exists_bind {inner : Scope} {fn : Lambda} (h : Ranges r s e inner fn)
    (hb : e.bind r s = .ok b) : ∃ body, fn.body.bind r inner = .ok body ∧
      (b = lambda ⟨fn.params, body⟩ ∨
        ∃ args', lambda ⟨fn.params, body⟩ ∈ args' ∧ CallResult s args' b) := by
  cases h with
  | here =>
    obtain ⟨body, hbody, rfl⟩ := bind_lambda_cases hb
    exact ⟨body, hbody, .inl rfl⟩
  | on hreceiver hmem henter =>
    obtain ⟨receiver', args', hrel, hargs, hresult⟩ := bind_call_cases hb
    cases hrel with
    | some hreceiver' =>
      cases hreceiver.symm.trans hreceiver'
      cases hargs with
      | on hargs =>
        obtain ⟨a', ha', harg⟩ := exists_of_forall₂ hargs.flip hmem
        obtain ⟨body, hbody, rfl⟩ := bind_each henter harg
        exact ⟨body, hbody, .inr ⟨args', ha', _, _, _, _, hresult⟩⟩
  | first henter =>
    obtain ⟨receiver', args', hrel, hargs, hresult⟩ := bind_call_cases hb
    cases hrel
    cases hargs with
    | cons hfirst _ =>
      obtain ⟨body, hbody, rfl⟩ := bind_each henter hfirst
      exact ⟨body, hbody, .inr ⟨_, List.mem_cons_self, _, _, _, _, hresult⟩⟩
  | after hfirst hmem henter =>
    obtain ⟨receiver', args', hrel, hargs, hresult⟩ := bind_call_cases hb
    cases hrel
    cases hargs with
    | cons hfirst' hargs =>
      cases hfirst.eq hfirst'
      obtain ⟨a', ha', harg⟩ := exists_of_forall₂ hargs.flip hmem
      obtain ⟨body, hbody, rfl⟩ := bind_each henter harg
      exact ⟨body, hbody, .inr ⟨_, List.mem_cons_of_mem _ ha', _, _, _, _, hresult⟩⟩

theorem Ranges.keptIn {inner : Scope} {fn : Lambda} (h : Ranges r s e inner fn)
    (hb : e.bind r s = .ok b) : ∃ body, fn.body.bind r inner = .ok body ∧ body.KeptIn b := by
  obtain ⟨body, hbody, hresult⟩ := h.exists_bind hb
  have hlambda : body.KeptIn (lambda ⟨fn.params, body⟩) :=
    keptIn_of_mem_nodes (body_mem_nodes ⟨fn.params, body⟩)
  rcases hresult with rfl | ⟨args', hmem, hresult⟩
  · exact ⟨body, hbody, hlambda⟩
  · exact ⟨body, hbody, hlambda.trans (hresult.keptIn hmem)⟩

private theorem noAccumulator_of_not_chosen {target bound : Expr} {name : String} {ty : Ty}
    (htarget : target.Written) (hs : s.Plain) (hkept : ∀ a, ¬ Chosen target name a)
    (hbound : target.bind r s = .ok bound) (h : bound.resolve? name ty = some b) :
    bound.All NoAccumulator := by
  rcases target_of_resolve? htarget.noDocument hs hkept hbound h with
    hfield | ⟨p, path, d, rfl⟩ | ⟨g, hg, hmem⟩
  · cases bound with
    | field => exact all_of_parts_eq_nil rfl rfl
    | _ => cases hfield
  · refine all_iff.mpr ⟨rfl, fun part hpart => ?_⟩
    rw [List.mem_singleton.mp hpart]
    exact all_of_parts_eq_nil rfl rfl
  · exact (hs.key hg).below hmem

private theorem keptIn_of_bindMember {target bound : Expr} {name : String} {declaring ty : Ty}
    (htarget : target.Written) (hs : s.Plain) (hkept : ∀ a, ¬ Chosen target name a)
    (hbound : target.bind r s = .ok bound) (h : bindMember r bound name declaring ty = .ok b) :
    bound.KeptIn b := by
  rcases bindMember_cases h with hresolve | rfl | ⟨fn, source, ty', item, body, rfl, -, -, rfl⟩
  · exact keptIn_of_noAccumulator (noAccumulator_of_not_chosen htarget hs hkept hbound hresolve)
  · exact keptIn_of_mem_nodes (mem_nodes_of_part (by simp [parts]) (self_mem_nodes bound))
  · intro n hn hacc
    rcases mem_nodes_iff.mp hn with rfl | ⟨part, hpart, hmem⟩
    · exact ⟨_, self_mem_nodes _, rfl, List.nil_subset _⟩
    · cases List.mem_singleton.mp hpart
      exact ⟨n, mem_nodes_of_part (by simp [parts]) hmem, hacc, List.Subset.refl _⟩

/-- One step: what comes of the entered expression is kept. -/
theorem Enters.keptIn {s' : Scope} {e' : Expr} (h : Enters r s e s' e') (he : e.Written)
    (hs : s.Plain) (hb : e.bind r s = .ok b) : ∃ b', e'.bind r s' = .ok b' ∧ b'.KeptIn b := by
  cases h with
  | operand hplain hpart =>
    obtain ⟨-, hparts⟩ := forall₂_parts_of_bind hplain he.self hb
    obtain ⟨part', hpart', hbound⟩ := exists_of_forall₂ hparts.flip hpart
    exact ⟨part', hbound, keptIn_of_mem_nodes (mem_nodes_of_part hpart' (self_mem_nodes part'))⟩
  | @target target name declaring ty hkept =>
    have htarget : e'.Written := he.part (by simp [parts])
    rcases bind_member_cases hb with hkey | ⟨-, bound, hbound, hb⟩
    · -- Only the grouping has a key, and its parameter stands for no accumulator.
      obtain ⟨-, hgrouping, -⟩ := Scope.key?_cases hkey
      obtain ⟨_, p, -, -, rfl | ⟨d, rfl⟩⟩ := Scope.isGrouping_cases hgrouping
      · have hparameter : (parameter p).bind r s = .ok ((s.lookup p.name).getD (parameter p)) := rfl
        exact ⟨_, hparameter, keptIn_of_noAccumulator (noAccumulator_of_parameter hs hparameter)⟩
      · cases htarget.self
    · exact ⟨bound, hbound, keptIn_of_bindMember htarget hs hkept hbound hb⟩
  | chosen hchosen => exact ⟨b, hchosen.bind_eq_ok hb, keptIn_of_mem_nodes (self_mem_nodes b)⟩
  | receiver hkept =>
    have hcall := hkept b hb
    obtain ⟨receiver', args', hreceiver, -, hacc | rfl⟩ := bind_call_cases hb
    · rw [isAccumulator, kind_of_accumulator? hacc] at hcall
      cases hcall
    · cases hreceiver with
      | some hreceiver =>
        exact ⟨_, hreceiver,
          keptIn_of_mem_nodes (mem_nodes_of_part (by simp [parts]) (self_mem_nodes _))⟩
  | argument ha hkind =>
    obtain ⟨a', args', hbound, ha', hresult⟩ := bind_argument hb ha hkind
    exact ⟨a', hbound, hresult.keptIn ha'⟩
  | body h => exact h.keptIn hb

/-- The whole way: what comes of a visited expression is kept. -/
theorem Visits.keptIn {s' : Scope} {e' : Expr} (h : Visits r s e s' e') (he : e.Written)
    (hs : s.Plain) (hb : e.bind r s = .ok b) : ∃ b', e'.bind r s' = .ok b' ∧ b'.KeptIn b := by
  induction h generalizing b with
  | refl => exact ⟨b, hb, keptIn_of_mem_nodes (self_mem_nodes b)⟩
  | step h rest ih =>
    obtain ⟨b₁, hb₁, hkept₁⟩ := h.keptIn he hs hb
    obtain ⟨b₂, hb₂, hkept₂⟩ := ih (he.below h.mem_nodes) (h.plain hs) hb₁
    exact ⟨b₂, hb₂, hkept₂.trans hkept₁⟩

theorem Within.keptIn {inner : Scope} {fn : Lambda} (h : Within r s e inner fn) (he : e.Written)
    (hs : s.Plain) (hb : e.bind r s = .ok b) :
    ∃ body, fn.body.bind r inner = .ok body ∧ body.KeptIn b := by
  obtain ⟨s', e', hvisits, hranges⟩ := h
  obtain ⟨b', hb', hkept'⟩ := hvisits.keptIn he hs hb
  obtain ⟨body, hbody, hkept⟩ := hranges.keptIn hb'
  exact ⟨body, hbody, hkept.trans hkept'⟩

/-- Every accumulator of an expression is kept in the selector of `outer`. -/
def SelectedIn (b outer : Expr) : Prop :=
  ∀ n ∈ b.nodes, n.isAccumulator = true → ∃ n' ∈ outer.selected, n'.isAccumulator = true

theorem KeptIn.selectedIn {outer : Expr} (h : a.KeptIn b) (h' : b.SelectedIn outer) :
    a.SelectedIn outer := by
  intro n hn hacc
  obtain ⟨n', hn', hacc', -⟩ := h n hn hacc
  exact h' n' hn' hacc'

theorem Ranges.selectedIn {inner : Scope} {fn : Lambda} {outer : Expr} (h : Ranges r s e inner fn)
    (hb : e.bind r s = .ok outer) (hacc : outer.isAccumulator = true) :
    ∃ body, fn.body.bind r inner = .ok body ∧ body.SelectedIn outer := by
  obtain ⟨body, hbody, hresult⟩ := h.exists_bind hb
  refine ⟨body, hbody, fun n hn hn_acc => ?_⟩
  rcases hresult with rfl | ⟨args', hmem, _, _, _, _, haccumulator | rfl⟩
  · cases hacc
  · exact ⟨n, mem_selected_of_accumulator? haccumulator hmem hn, hn_acc⟩
  · cases hacc

private theorem selectedIn_of_accumulator? {method : String} {declaring ty : Ty} {args : List Expr}
    {outer : Expr} (h : s.accumulator? method declaring args ty = some outer) (ha : a ∈ args) :
    (a.isAccumulator = true ∧ a.selected = outer.selected) ∨ a.SelectedIn outer := by
  rcases (accumulator?_cases h).2 with
    ⟨fn, source, selector, ty', rfl, rfl⟩ | ⟨source, fn, acc, counts, hargs, hgrouping, -⟩
  · cases List.mem_singleton.mp ha
    refine .inl ⟨rfl, ?_⟩
    cases selector <;> rfl
  · refine .inr fun n hn hacc => ?_
    have hsource (hmem : n ∈ source.nodes) : ∃ n' ∈ outer.selected, n'.isAccumulator = true :=
      ((noAccumulator_of_isGrouping hgrouping n hmem).false hacc).elim
    cases hargs with
    | alone =>
      cases List.mem_singleton.mp ha
      exact hsource hn
    | each fn =>
      simp only [List.mem_cons, List.not_mem_nil, or_false] at ha
      rcases ha with rfl | rfl
      · exact hsource hn
      · rcases mem_nodes_iff.mp hn with rfl | ⟨part, hpart, hmem⟩
        · cases hacc
        · cases List.mem_singleton.mp hpart
          exact ⟨n, mem_selected_of_accumulator? h (by simp) hmem, hacc⟩

/-- What comes of the lambdas within an expression that becomes an accumulator stands in its
selector. -/
theorem Within.selectedIn {inner : Scope} {fn : Lambda} {outer : Expr} (h : Within r s e inner fn)
    (he : e.Written) (hs : s.Plain) (hb : e.bind r s = .ok outer)
    (hacc : outer.isAccumulator = true) :
    ∃ body, fn.body.bind r inner = .ok body ∧ body.SelectedIn outer := by
  obtain ⟨s', e', hvisits, hranges⟩ := h
  induction hvisits generalizing outer with
  | refl => exact hranges.selectedIn hb hacc
  | @step s s₁ s' e e₁ e' h rest ih =>
    have he₁ : e₁.Written := he.below h.mem_nodes
    have hs₁ := h.plain hs
    cases h with
    | operand hplain hpart =>
      obtain ⟨hkind, -⟩ := forall₂_parts_of_bind hplain he.self hb
      have hwritten := he.self
      rw [isWritten, ← hkind] at hwritten
      exact ((noAccumulator_of_isWritten hwritten).false hacc).elim
    | target hkept =>
      rcases bind_member_cases hb with hkey | ⟨-, bound, hbound, hb⟩
      · obtain ⟨-, -, g, hg, rfl⟩ := Scope.key?_cases hkey
        exact ((hs.key hg).self.false hacc).elim
      · rcases bindMember_cases hb with hresolve | rfl | ⟨_, _, _, _, _, rfl, -, -, rfl⟩
        · have hno := noAccumulator_of_not_chosen he₁ hs hkept hbound hresolve
          exact ((noAccumulator_of_resolve? hresolve hno).self.false hacc).elim
        · cases hacc
        · -- The first or last element has no selector, so nothing can stand in it.
          obtain ⟨body, hbody, hin⟩ := ih he₁ hs₁ hbound rfl hranges
          refine ⟨body, hbody, fun n hn hn_acc => ?_⟩
          obtain ⟨n', hn', -⟩ := hin n hn hn_acc
          cases hn'
    | chosen hchosen => exact ih he₁ hs₁ (hchosen.bind_eq_ok hb) hacc hranges
    | receiver hkept =>
      exact (NoAccumulator.false (hkept outer hb) hacc).elim
    | argument ha hkind =>
      obtain ⟨a', args', hbound, ha', _, _, _, _, haccumulator | rfl⟩ := bind_argument hb ha hkind
      · rcases selectedIn_of_accumulator? haccumulator ha' with ⟨hacc', hselected⟩ | hselected
        · obtain ⟨body, hbody, hin⟩ := ih he₁ hs₁ hbound hacc' hranges
          rw [SelectedIn, hselected] at hin
          exact ⟨body, hbody, hin⟩
        · obtain ⟨body, hbody, hkept⟩ := Within.keptIn ⟨s', e', rest, hranges⟩ he₁ hs₁ hbound
          exact ⟨body, hbody, hkept.selectedIn hselected⟩
      · cases hacc
    | body h =>
      obtain ⟨b₁, hb₁, hselected⟩ := h.selectedIn hb hacc
      obtain ⟨body, hbody, hkept⟩ := Within.keptIn ⟨s', e', rest, hranges⟩ he₁ hs₁ hb₁
      exact ⟨body, hbody, hkept.selectedIn hselected⟩

end QueryStage.Expr
