import QueryStage.Proofs.GroupingUses
import QueryStage.Proofs.LoopHygiene

/-!
# Parameters of element lambdas

The lambda of a sequence method has one parameter, but only the loop that is emitted for it checks
that. A map that selects a field of the elements needs no loop, and a call on the grouping becomes
an accumulator, so their lambdas pass with any number of parameters. No other lambda does that
translation comes to.
-/

namespace QueryStage

namespace Expr

/-- The operands of a sequence method that are lowered with its own paths: all of them, but for the
lambda of a loop. -/
def sequenceOperands : List Expr → List Expr
  | [source, lambda _] => [source]
  | args => args

/-- The expressions that lowering an expression lowers with its own paths. -/
def loweredOperands : Expr → List Expr
  | call receiver _ declaring args _ =>
    if declaring = .enumerable then sequenceOperands args else receiver.toList ++ args
  | e => e.loweredParts

/-- Lowering an expression with `paths` lowers `n` with `inner`. -/
inductive LoweredAt (n : Expr) (inner : Path → Path) : (Path → Path) → Expr → Prop
  | here : LoweredAt n inner inner n
  | operand {paths : Path → Path} {e operand : Expr} (h : operand ∈ e.loweredOperands)
    (rest : LoweredAt n inner paths operand) : LoweredAt n inner paths e
  | loop {paths : Path → Path} {receiver : Option Expr} {method : String} {source body : Expr}
    {params : List Parameter} {ty : Ty}
    (rest : LoweredAt n inner (loopPaths paths (source.boundPath?.map paths) params) body) :
    LoweredAt n inner paths (call receiver method .enumerable [source, lambda ⟨params, body⟩] ty)

variable {unit : StringUnit} {n e : Expr} {paths inner : Path → Path}

theorem loweredOperands_of_kind_ne (h : e.kind ≠ .call) : e.loweredOperands = e.loweredParts := by
  cases e with
  | call => exact absurd rfl h
  | _ => rfl

theorem mem_sequenceOperands {args : List Expr} {a : Expr} (h : a ∈ sequenceOperands args) :
    a ∈ args := by
  unfold sequenceOperands at h
  split at h
  · exact List.mem_cons.mpr (.inl (List.mem_singleton.mp h))
  · exact h

theorem not_loweredAt_of_settled (hn : n.kind = .call) (h : e.IsSettled) :
    ¬ LoweredAt n inner paths e := by
  intro hlowered
  cases hlowered with
  | here =>
    rcases h with hpath | hkind
    · cases n with
      | call => cases hpath
      | _ => cases hn
    · rw [hn] at hkind
      cases hkind
  | operand hoperand =>
    cases e with
    | literal | field | document => cases hoperand
    | _ => rcases h with h | h <;> cases h
  | loop => rcases h with h | h <;> cases h

theorem lower_loweredOperand {operand : Expr} {x : Bson} (h : e.lower unit paths = .ok x)
    (hoperand : operand ∈ e.loweredOperands) :
    operand.IsSettled ∨ (operand.lower unit paths).Succeeds := by
  by_cases hkind : e.kind = .call
  · cases e with
    | call receiver method declaring args ty =>
      rw [loweredOperands] at hoperand
      split at hoperand
      · rename_i hdeclaring
        subst hdeclaring
        rcases lower_sequence_cases h with hargs | ⟨source, params, body, rfl, hloop⟩
        · exact .inr (hargs operand (mem_sequenceOperands hoperand))
        · cases List.mem_singleton.mp hoperand
          rcases hloop with ⟨-, hselection⟩ | ⟨-, hsource, -⟩
          · exact .inl (.inl (by simpa using (settled_of_selection? hselection).1))
          · exact .inr hsource
      · rename_i hdeclaring
        exact lower_operand_of_call hdeclaring h hoperand
    | _ => cases hkind
  · rw [loweredOperands_of_kind_ne hkind] at hoperand
    exact .inr (lower_part_of_kind_ne h hkind hoperand)

theorem LoweredAt.succeeds (h : LoweredAt n inner paths e) (hn : n.kind = .call)
    (he : (e.lower unit paths).Succeeds) : (n.lower unit inner).Succeeds := by
  induction h with
  | here => exact he
  | operand hoperand rest ih =>
    obtain ⟨x, hx⟩ := he
    rcases lower_loweredOperand hx hoperand with hsettled | hlower
    · exact (not_loweredAt_of_settled hn hsettled rest).elim
    · exact ih hlower
  | loop rest ih =>
    obtain ⟨x, hx⟩ := he
    rcases lower_sequence_cases hx with hargs | ⟨source, params, body, heq, hloop⟩
    · obtain ⟨y, hy⟩ := hargs _ (List.mem_cons_of_mem _ (List.mem_singleton_self _))
      exact absurd rfl (kind_ne_lambda_of_lower hy)
    · cases heq
      rcases hloop with ⟨-, hselection⟩ | ⟨-, -, hbody⟩
      · exact (not_loweredAt_of_settled hn (settled_of_selection? hselection).2 rest).elim
      · exact ih hbody

/-- With any paths, lowering an expression comes to `n`. -/
def AlwaysLowers (n e : Expr) : Prop := ∀ paths, ∃ inner, LoweredAt n inner paths e

variable {r : Decoders} {s s' : Scope} {b c : Expr}

theorem AlwaysLowers.above (h : AlwaysLowers n e) (he : e ∈ b.loweredOperands) :
    AlwaysLowers n b := by
  intro paths
  obtain ⟨inner, hlowered⟩ := h paths
  exact ⟨inner, .operand he hlowered⟩

theorem AlwaysLowers.exists_operand (h : AlwaysLowers n e) (hn : n.kind = .call)
    (he : e.kind ≠ .call) (paths : Path → Path) :
    ∃ operand ∈ e.loweredOperands, ∃ inner, LoweredAt n inner paths operand := by
  obtain ⟨inner, hlowered⟩ := h paths
  cases hlowered with
  | here => exact absurd hn he
  | operand hoperand rest => exact ⟨_, hoperand, inner, rest⟩
  | loop => exact absurd rfl he

theorem AlwaysLowers.body {fn : Lambda} (h : AlwaysLowers n (lambda fn)) (hn : n.kind = .call) :
    AlwaysLowers n fn.body := by
  intro paths
  obtain ⟨operand, hoperand, hlowered⟩ := h.exists_operand hn (by simp [kind]) paths
  cases List.mem_singleton.mp hoperand
  exact hlowered

theorem not_alwaysLowers_of_isGrouping (hn : n.kind = .call) (h : s.isGrouping e = true) :
    ¬ AlwaysLowers n e := by
  intro hlowers
  obtain ⟨_, p, -, -, rfl | ⟨d, rfl⟩⟩ := Scope.isGrouping_cases h
  · obtain ⟨_, hoperand, -⟩ := hlowers.exists_operand hn (by simp [kind]) id
    cases hoperand
  · obtain ⟨_, hoperand, -⟩ := hlowers.exists_operand hn (by simp [kind]) id
    cases hoperand

private theorem alwaysLowers_accumulator? {method : String} {declaring ty : Ty} {args : List Expr}
    {a : Expr} (hn : n.kind = .call) (h : s.accumulator? method declaring args ty = some b)
    (ha : a ∈ args) (hlowers : AlwaysLowers n a) : AlwaysLowers n b := by
  rcases (accumulator?_cases h).2 with
    ⟨fn, source, selector, ty', rfl, rfl⟩ | ⟨source, fn, acc, counts, hargs, hgrouping, rfl⟩
  · cases List.mem_singleton.mp ha
    intro paths
    obtain ⟨operand, hoperand, inner, hlowered⟩ := hlowers.exists_operand hn (by simp [kind]) paths
    refine ⟨inner, .operand ?_ hlowered⟩
    cases selector <;> exact hoperand
  · have hsource : a ≠ source := by
      rintro rfl
      exact not_alwaysLowers_of_isGrouping hn hgrouping hlowers
    cases hargs with
    | alone => exact (hsource (List.mem_singleton.mp ha)).elim
    | each f =>
      simp only [List.mem_cons, hsource, List.not_mem_nil, or_false, false_or] at ha
      subst ha
      have hbody := hlowers.body hn
      cases counts with
      | false => exact hbody.above (List.mem_singleton_self _)
      | true =>
        obtain ⟨params, test⟩ := f
        have htest : AlwaysLowers n (conditional test (countOf 1 ty) (countOf 0 ty) ty) :=
          hbody.above List.mem_cons_self
        exact htest.above (List.mem_singleton_self _)

private theorem alwaysLowers_call {receiver : Option Expr} {method : String} {declaring ty : Ty}
    {args : List Expr} {a : Expr} (hn : n.kind = .call) (ha : a ∈ args)
    (hlowers : AlwaysLowers n a) : AlwaysLowers n (call receiver method declaring args ty) := by
  by_cases hdeclaring : declaring = .enumerable
  · subst hdeclaring
    by_cases hloop : ∃ source fn, args = [source, lambda fn]
    · obtain ⟨source, ⟨params, body⟩, rfl⟩ := hloop
      simp only [List.mem_cons, List.not_mem_nil, or_false] at ha
      rcases ha with rfl | rfl
      · exact hlowers.above (by simp [loweredOperands, sequenceOperands])
      · intro paths
        obtain ⟨inner, hbody⟩ :=
          hlowers.body hn (loopPaths paths (source.boundPath?.map paths) params)
        exact ⟨inner, .loop hbody⟩
    · refine hlowers.above ?_
      rw [loweredOperands, if_pos rfl]
      unfold sequenceOperands
      split
      · exact absurd ⟨_, _, rfl⟩ hloop
      · exact ha
  · refine hlowers.above ?_
    rw [loweredOperands, if_neg hdeclaring]
    exact List.mem_append_right _ ha

theorem CallResult.alwaysLowers {args : List Expr} {a : Expr} (h : CallResult s args b)
    (hn : n.kind = .call) (ha : a ∈ args) (hlowers : AlwaysLowers n a) : AlwaysLowers n b := by
  obtain ⟨receiver, method, declaring, ty, hacc | rfl⟩ := h
  · exact alwaysLowers_accumulator? hn hacc ha hlowers
  · exact alwaysLowers_call hn ha hlowers

/-- Binding an expression binds another one below it, in its own scope, and lowering the result
lowers what comes of it. Bound and not lowered are the receiver of a sequence method, the source of
an accumulator that has a selector, and the first or last element of a group whose member is
accumulated directly. -/
inductive DescendsTo (r : Decoders) : Scope → Expr → Scope → Expr → Prop
  | operand {s : Scope} {e part : Expr} (hplain : e.isPlain = true) (hwritten : e.isWritten = true)
    (h : part ∈ e.parts) : DescendsTo r s e s part
  | target {s : Scope} {target : Expr} {name : String} {declaring ty : Ty}
    (hkept : ∀ a, ¬ Chosen target name a)
    (hfold : ∀ b, (member target name declaring ty).bind r s = .ok b → b.isAccumulator = false) :
    DescendsTo r s (member target name declaring ty) s target
  | chosen {s : Scope} {target a : Expr} {name : String} {declaring ty : Ty}
    (h : Chosen target name a) : DescendsTo r s (member target name declaring ty) s a
  | receiver {s : Scope} {receiver : Expr} {method : String} {declaring : Ty} {args : List Expr}
    {ty : Ty} (hdeclaring : declaring ≠ .enumerable) :
    DescendsTo r s (call (some receiver) method declaring args ty) s receiver
  | argument {s : Scope} {receiver : Option Expr} {method : String} {declaring : Ty}
    {args : List Expr} {ty : Ty} {a : Expr} (h : a ∈ args) (hkind : a.kind ≠ .lambda) :
    DescendsTo r s (call receiver method declaring args ty) s a
  | body {s inner : Scope} {e : Expr} {fn : Lambda} (h : Ranges r s e inner fn) :
    DescendsTo r s e inner fn.body
  | source {s : Scope} {acc : AccumulatorFn} {source : Expr} {ty : Ty} :
    DescendsTo r s (accumulate acc source none ty) s source
  | selector {s inner : Scope} {acc : AccumulatorFn} {source items : Expr} {fn : Lambda} {ty : Ty}
    (hsource : source.bind r s = .ok items)
    (henter : s.enter r fn.params (some items) = .ok inner) :
    DescendsTo r s (accumulate acc source (some fn) ty) inner fn.body

/-- Translating the first expression in its scope comes to the second one in its own. -/
inductive ComesTo (r : Decoders) : Scope → Expr → Scope → Expr → Prop
  | refl (s : Scope) (e : Expr) : ComesTo r s e s e
  | step {s s₁ s₂ : Scope} {e e₁ e₂ : Expr} (h : DescendsTo r s e s₁ e₁)
    (rest : ComesTo r s₁ e₁ s₂ e₂) : ComesTo r s e s₂ e₂

theorem DescendsTo.mem_nodes {s₁ : Scope} {e₁ : Expr} (h : DescendsTo r s e s₁ e₁) :
    e₁ ∈ e.nodes := by
  cases h with
  | operand _ _ h => exact mem_nodes_of_part h (self_mem_nodes _)
  | target => exact mem_nodes_of_part (by simp [parts]) (self_mem_nodes _)
  | chosen h => exact mem_nodes_of_part (by simp [parts]) h.mem_nodes
  | receiver => exact mem_nodes_of_part (by simp [parts]) (self_mem_nodes _)
  | argument h => exact mem_nodes_of_part (by simp [parts, h]) (self_mem_nodes _)
  | body h => exact mem_nodes_trans h.mem_nodes (body_mem_nodes _)
  | source => exact mem_nodes_of_part (by simp [parts]) (self_mem_nodes _)
  | selector => exact mem_nodes_of_part (by simp [parts]) (self_mem_nodes _)

theorem not_comesTo_of_parameter {p : Parameter} (hc : c.kind = .call) :
    ¬ ComesTo r s (parameter p) s' c := by
  intro h
  cases h with
  | refl => cases hc
  | step h =>
    cases h with
    | operand hplain => cases hplain
    | body h => cases h

theorem not_comesTo_of_isGrouping {target : Expr} (htarget : target.Unbound) (hc : c.kind = .call)
    (h : s.isGrouping target = true) : ¬ ComesTo r s target s' c := by
  obtain ⟨_, p, -, -, rfl | ⟨d, rfl⟩⟩ := Scope.isGrouping_cases h
  · exact not_comesTo_of_parameter hc
  · cases htarget.self

theorem resolve?_eq_none_of_comesTo {target bound : Expr} {name : String} {ty : Ty}
    (htarget : target.Unbound) (hc : c.kind = .call) (hcomes : ComesTo r s target s' c)
    (hkept : ∀ a, ¬ Chosen target name a) (hbound : target.bind r s = .ok bound) :
    bound.resolve? name ty = none := by
  induction target using induct_nodes generalizing name ty bound with
  | step target ih =>
    cases target with
    | parameter p => exact (not_comesTo_of_parameter hc hcomes).elim
    | member target name' declaring ty' =>
      have hunbound : target.Unbound := htarget.part (by simp [parts])
      have below {a : Expr} (ha : a ∈ target.nodes) :=
        @ih target (by simp [parts]) a ha
      cases hcomes with
      | refl => cases hc
      | step hfollows hrest =>
        cases hfollows with
        | operand hplain => cases hplain
        | body h => cases h
        | target hkept' =>
          rcases bind_member_cases hbound with hkey | ⟨-, bound', hbound', hmember⟩
          · obtain ⟨-, hgrouping, -⟩ := Scope.key?_cases hkey
            exact (not_comesTo_of_isGrouping hunbound hc hgrouping hrest).elim
          · have hnone : bound'.resolve? name' ty' = none :=
              below (self_mem_nodes target) hunbound hrest hkept' hbound'
            rcases bindMember_cases hmember with hresolve | rfl | ⟨_, _, _, _, _, -, -, -, rfl⟩
            · rw [hnone] at hresolve
              cases hresolve
            · rfl
            · rfl
        | chosen ha =>
          refine below ha.mem_nodes (hunbound.below ha.mem_nodes) hrest ?_ (ha.bind_eq_ok hbound)
          -- What the member of the argument reads, the member of the target reads.
          rintro a' ⟨_, _, _, _, hreads, hargument⟩
          obtain ⟨_, _, _, _, htarget', hargument'⟩ := ha
          exact hkept a' ⟨_, _, _, _, .member htarget' hargument' hreads, hargument⟩
    | call receiver method declaring args ty' =>
      obtain ⟨_, _, -, -, hacc | rfl⟩ := bind_call_cases hbound
      · have hkind := kind_of_accumulator? hacc
        cases bound with
        | accumulate => rfl
        | _ => cases hkind
      · rfl
    | lambda fn =>
      obtain ⟨_, -, rfl⟩ := bind_lambda_cases hbound
      rfl
    | construct ty' parameters args members =>
      obtain ⟨args', hargs, rfl⟩ := bind_construct_cases hbound
      cases hargument : (construct ty' parameters args' members).resolve? name ty with
      | none => rfl
      | some b =>
        obtain ⟨a, ha⟩ := chosen_of_reads (.refl _) hargs hargument
        exact (hkept a ha).elim
    | accumulate =>
      obtain ⟨_, -, ⟨-, rfl⟩ | ⟨_, _, _, _, -, -, -, rfl⟩⟩ := bind_accumulate_cases hbound
      · rfl
      · rfl
    | field | document => cases htarget.self
    | literal | binary | unary | conditional =>
      have hkind := (forall₂_parts_of_bind rfl rfl hbound).1
      cases bound with
      | literal | binary | unary | conditional => rfl
      | _ => cases hkind

/-- One step: what is followed to a call is bound, and lowering the whole comes where lowering that
does. -/
private theorem DescendsTo.exists_bind {s₁ : Scope} {e₁ : Expr} (h : DescendsTo r s e s₁ e₁)
    (he : e.Unbound) (hc : c.kind = .call) (hcomes : ComesTo r s₁ e₁ s' c)
    (hb : e.bind r s = .ok b) : ∃ b₁, e₁.bind r s₁ = .ok b₁ ∧
      ∀ n, n.kind = .call → AlwaysLowers n b₁ → AlwaysLowers n b := by
  cases h with
  | operand hplain hwritten hpart =>
    obtain ⟨hkind, hparts⟩ := forall₂_parts_of_bind hplain hwritten hb
    obtain ⟨part', hpart', hbound⟩ := exists_of_forall₂ hparts.flip hpart
    have hcall : b.kind ≠ .call := by
      intro hcall
      rw [isPlain, ← hkind, hcall] at hplain
      cases hplain
    refine ⟨part', hbound, fun n _ hlowers => hlowers.above ?_⟩
    rwa [loweredOperands_of_kind_ne hcall, loweredParts_of_kind_eq hkind hplain hwritten]
  | target hkept hfold =>
    have htarget : e₁.Unbound := he.part (by simp [parts])
    rcases bind_member_cases hb with hkey | ⟨-, bound, hbound, hmember⟩
    · obtain ⟨-, hgrouping, -⟩ := Scope.key?_cases hkey
      exact (not_comesTo_of_isGrouping htarget hc hgrouping hcomes).elim
    · have hnone (ty : Ty) : bound.resolve? _ ty = none :=
        resolve?_eq_none_of_comesTo htarget hc hcomes hkept hbound
      rcases bindMember_cases hmember with hresolve | rfl | ⟨_, _, _, _, _, -, -, -, rfl⟩
      · rw [hnone] at hresolve
        cases hresolve
      · exact ⟨bound, hbound, fun n _ hlowers => hlowers.above (List.mem_singleton_self bound)⟩
      · cases hfold _ hb
  | chosen hchosen => exact ⟨b, hchosen.bind_eq_ok hb, fun n _ hlowers => hlowers⟩
  | receiver hdeclaring =>
    obtain ⟨receiver', args', hreceiver, -, hacc | rfl⟩ := bind_call_cases hb
    · exact (hdeclaring (declaring_of_accumulator? hacc)).elim
    · cases hreceiver with
      | some hreceiver =>
        refine ⟨_, hreceiver, fun n _ hlowers => hlowers.above ?_⟩
        rw [loweredOperands, if_neg hdeclaring]
        exact List.mem_cons_self
  | argument ha hkind =>
    obtain ⟨a', args', hbound, ha', hresult⟩ := bind_argument hb ha hkind
    exact ⟨a', hbound, fun n hn hlowers => hresult.alwaysLowers hn ha' hlowers⟩
  | @body _ _ fn hranges =>
    obtain ⟨body, hbody, hresult⟩ := hranges.exists_bind hb
    refine ⟨body, hbody, fun n hn hlowers => ?_⟩
    have hlambda : AlwaysLowers n (lambda ⟨fn.params, body⟩) :=
      hlowers.above (List.mem_singleton_self body)
    rcases hresult with rfl | ⟨args', hmem, hresult⟩
    · exact hlambda
    · exact hresult.alwaysLowers hn hmem hlambda
  | source =>
    obtain ⟨items, hitems, ⟨-, rfl⟩ | ⟨_, _, _, _, hselector, -⟩⟩ := bind_accumulate_cases hb
    · exact ⟨items, hitems, fun n _ hlowers => hlowers.above (List.mem_singleton_self items)⟩
    · cases hselector
  | selector hsource henter =>
    obtain ⟨items, hitems, ⟨hselector, -⟩ | ⟨_, _, _, body, hselector, henter', hbody, rfl⟩⟩ :=
      bind_accumulate_cases hb
    · cases hselector
    · cases hselector
      cases hsource.symm.trans hitems
      cases henter.symm.trans henter'
      exact ⟨body, hbody, fun n _ hlowers => hlowers.above (List.mem_singleton_self body)⟩

/-- The whole way: a call that translation comes to is bound and, if it stays one, lowered with the
result. -/
theorem ComesTo.exists_bind (h : ComesTo r s e s' c) (he : e.Unbound) (hc : c.kind = .call)
    (hb : e.bind r s = .ok b) :
    ∃ n, c.bind r s' = .ok n ∧ (n.kind = .call → AlwaysLowers n b) := by
  induction h generalizing b with
  | refl => exact ⟨b, hb, fun _ paths => ⟨paths, .here⟩⟩
  | step h rest ih =>
    obtain ⟨b₁, hb₁, hlowers⟩ := h.exists_bind he hc rest hb
    obtain ⟨n, hn, hbelow⟩ := ih (he.below h.mem_nodes) hc hb₁
    exact ⟨n, hn, fun hkind => hlowers n hkind (hbelow hkind)⟩

/-- A call is lowered alike whatever parameters its lambda has, if that only selects. -/
theorem lower_of_selection {receiver : Option Expr} {method : String} {source body : Expr} {ty : Ty}
    (hmaps : (SequenceMethod.named method).maps = true)
    (hselection : (selection? paths (source.boundPath?.map paths) body).isSome = true)
    (params params' : List Parameter) :
    (call receiver method .enumerable [source, lambda ⟨params, body⟩] ty).lower unit paths =
      (call receiver method .enumerable [source, lambda ⟨params', body⟩] ty).lower unit paths := by
  obtain ⟨selection, hselection⟩ := Option.isSome_iff_exists.mp hselection
  unfold SequenceMethod.maps at hmaps
  split at hmaps
  · rename_i f heach
    have hfamily : MethodFamily.of .enumerable = .sequence := rfl
    cases selection <;>
      simp [lower, MethodCall.lower, MethodCall.lowerSequence, lowerLoop, SequenceMethod.emit,
        Loop.emit, MethodCall.unsupported, hfamily, heach, hselection]
  · cases hmaps

/-- Every lambda of a sequence method that translation comes to has one parameter, but for a call
that becomes an accumulator, and one that is lowered where its lambda only selects. There the call
is lowered alike with any parameters. -/
def ChecksParameters (r : Decoders) (unit : StringUnit) (s : Scope) (e b : Expr) : Prop :=
  ∀ s' receiver method args ty fn, ComesTo r s e s' (call receiver method .enumerable args ty) →
    lambda fn ∈ args →
    fn.params.length = 1 ∨ Accumulates r s' (call receiver method .enumerable args ty) ∨
      ∃ receiver' source body paths,
        (call receiver method .enumerable args ty).bind r s' =
          .ok (call receiver' method .enumerable [source, lambda ⟨fn.params, body⟩] ty) ∧
        LoweredAt (call receiver' method .enumerable [source, lambda ⟨fn.params, body⟩] ty) paths
          id b ∧
        (SequenceMethod.named method).maps = true ∧
        (selection? paths (source.boundPath?.map paths) body).isSome = true ∧
        ∀ params,
          (call receiver' method .enumerable [source, lambda ⟨params, body⟩] ty).lower unit paths =
            (call receiver' method .enumerable [source, lambda ⟨fn.params, body⟩] ty).lower unit
              paths

theorem exists_lambda_of_boundArgs {receiver : Option Expr} {args args' : List Expr} {fn : Lambda}
    (h : BoundArgs r s receiver args args') (hfn : lambda fn ∈ args) :
    ∃ body, lambda ⟨fn.params, body⟩ ∈ args' := by
  have each {source : Option Expr} {b : Expr} (h : BoundArg r s source (lambda fn) b) :
      ∃ body, b = lambda ⟨fn.params, body⟩ := by
    cases h with
    | operand hkind => exact absurd rfl hkind
    | each => exact ⟨_, rfl⟩
  cases h with
  | on h =>
    obtain ⟨b, hb, harg⟩ := exists_of_forall₂ h.flip hfn
    obtain ⟨body, rfl⟩ := each harg
    exact ⟨body, hb⟩
  | nil => cases hfn
  | cons hfirst h =>
    rcases List.mem_cons.mp hfn with rfl | hfn
    · obtain ⟨body, rfl⟩ := each hfirst
      exact ⟨body, List.mem_cons_self⟩
    · obtain ⟨b, hb, harg⟩ := exists_of_forall₂ h.flip hfn
      obtain ⟨body, rfl⟩ := each harg
      exact ⟨body, List.mem_cons_of_mem _ hb⟩

theorem loop_of_lower {receiver : Option Expr} {method : String} {ty : Ty} {args : List Expr}
    {fn : Lambda} {x : Bson} (hfn : lambda fn ∈ args)
    (h : (call receiver method .enumerable args ty).lower unit paths = .ok x) :
    ∃ source, args = [source, lambda fn] ∧ (fn.params.length = 1 ∨
      (SequenceMethod.named method).maps = true ∧
        (selection? paths (source.boundPath?.map paths) fn.body).isSome = true) := by
  have hlambda : ¬ ((lambda fn).lower unit paths).Succeeds := by
    rintro ⟨y, hy⟩
    exact kind_ne_lambda_of_lower hy rfl
  rcases lower_sequence_cases h with hargs | ⟨source, params, body, rfl, hloop⟩
  · exact (hlambda (hargs _ hfn)).elim
  · have hsource : lambda fn ≠ source := by
      rintro rfl
      rcases hloop with ⟨-, hselection⟩ | ⟨-, hsource, -⟩
      · cases (settled_of_selection? hselection).1
      · exact hlambda hsource
    simp only [List.mem_cons, hsource, List.not_mem_nil, or_false, false_or] at hfn
    cases hfn
    refine ⟨source, rfl, ?_⟩
    rcases hloop with hselects | ⟨hparams, -⟩
    · exact .inr hselects
    · exact .inl hparams

theorem checksParameters (he : e.Unbound) (hb : e.bind r s = .ok b)
    (hlower : (b.lower unit id).Succeeds) : ChecksParameters r unit s e b := by
  intro s' receiver method args ty fn hcomes hfn
  obtain ⟨n, hn, hlowers⟩ := hcomes.exists_bind he rfl hb
  obtain ⟨receiver', args', -, hargs, hacc | rfl⟩ := bind_call_cases hn
  · refine .inr (.inl ⟨n, hn, ?_⟩)
    rw [isAccumulator, kind_of_accumulator? hacc]
    rfl
  · obtain ⟨paths, hlowered⟩ := hlowers rfl id
    obtain ⟨x, hx⟩ := hlowered.succeeds rfl hlower
    obtain ⟨body, hmem⟩ := exists_lambda_of_boundArgs hargs hfn
    obtain ⟨source, rfl, hparams | ⟨hmaps, hselection⟩⟩ := loop_of_lower hmem hx
    · exact .inl hparams
    · exact .inr (.inr ⟨receiver', source, body, paths, hn, hlowered, hmaps, hselection,
        fun params => lower_of_selection hmaps hselection params fn.params⟩)

theorem succeeds_of_lowerShape {shape : Entries Bson} (h : b.lowerShape unit = .ok shape) :
    (b.lower unit id).Succeeds := by
  cases b with
  | construct ty parameters args members =>
    rw [lowerShape] at h
    exact ⟨emitShape shape, by simp [lower, h]⟩
  | _ => cases h

end Expr

namespace Stage

/-- An accepted projection or group checks the parameters of the lambdas in its projector. -/
theorem element_parameters_checked (r : Decoders) (options : Options) (source : Decoder)
    (projector : Lambda) (hunbound : projector.body.Unbound) :
    (∀ stage, ofProjector r options source projector = .ok stage →
      ∃ p body, projector.params = [p] ∧
        projector.body.bind r (Lambda.projectorScope p source) = .ok body ∧
        Expr.ChecksParameters r options.stringUnit (Lambda.projectorScope p source)
          projector.body body) ∧
    ∀ keySelector stage, ofGroup r options source keySelector projector = .ok stage →
      ∃ bound key g body, keySelector.bindProjector r source = .ok bound ∧
        keyOf r bound = .ok key ∧ projector.params = [g] ∧
        projector.body.bind r (Lambda.groupScope g source key) = .ok body ∧
        Expr.ChecksParameters r options.stringUnit (Lambda.groupScope g source key)
          projector.body body := by
  constructor
  · intro stage h
    obtain ⟨body, shape, hbody, -, hshape, -⟩ := ofProjector_cases h
    obtain ⟨p, hp, hbody⟩ := Lambda.bindProjector_cases hbody
    exact ⟨p, body, hp, hbody,
      Expr.checksParameters hunbound hbody (Expr.succeeds_of_lowerShape hshape)⟩
  · intro keySelector stage h
    obtain ⟨bound, key, keyValue, body, shape, hbound, hkey, -, hbody, hshape, -⟩ :=
      ofGroup_cases h
    obtain ⟨g, hg, hbody⟩ := Lambda.bindGroupProjector_cases hbody
    exact ⟨bound, key, g, body, hbound, hkey, hg, hbody,
      Expr.checksParameters hunbound hbody (Expr.succeeds_of_lowerShape hshape)⟩

end Stage

namespace Orders

open QueryStage.Expr

def withPosition : List Parameter := [ofItem "i", ⟨"n", .int32⟩]

/-- All items of an order for each of them, by a lambda with the given parameters. -/
def itemsByItem (params : List Parameter) : Expr :=
  sequenceCall "Select" (itemsOf "o") [lambda ⟨params, itemsOf "o"⟩]
    (.array (.array (.record "Item")))

def itemLists (params : List Parameter) : Lambda :=
  ⟨[ofOrder "o"], named (.record "Lists") [("Lists", itemsByItem params)]⟩

/-- The lambda with a position only selects, and is lowered as one with any parameters. -/
theorem itemLists_select :
    (itemLists withPosition).body.Unbound ∧
      ∃ receiver items body paths ty,
        (itemsByItem withPosition).bind registry (Lambda.projectorScope (ofOrder "o") source) =
          .ok (call receiver "Select" .enumerable [items, lambda ⟨withPosition, body⟩] ty) ∧
        ∀ params,
          (call receiver "Select" .enumerable [items, lambda ⟨params, body⟩] ty).lower .bytes
              paths =
            (call receiver "Select" .enumerable [items, lambda ⟨withPosition, body⟩] ty).lower
              .bytes paths := by
  refine ⟨by decide, ?_⟩
  obtain ⟨p, body, hp, hbody, hchecks⟩ := (Stage.element_parameters_checked registry {} source
    (itemLists withPosition) (by decide)).1 _ rfl
  cases hp
  have hcomes : ComesTo registry (Lambda.projectorScope (ofOrder "o") source)
      (itemLists withPosition).body (Lambda.projectorScope (ofOrder "o") source)
      (itemsByItem withPosition) :=
    .step (.operand rfl rfl List.mem_cons_self) (.refl _ _)
  rcases hchecks _ _ _ _ _ _ hcomes (List.mem_cons_of_mem _ List.mem_cons_self) with
    hparams | ⟨n, hn, hacc⟩ | ⟨receiver, items, body, paths, hbind, -, -, -, hparams⟩
  · cases hparams
  · cases hn
    cases hacc
  · exact ⟨receiver, items, body, paths, _, hbind, hparams⟩

def pairCount : Lambda where
  params := [ofGroup "g" .boolean]
  body := named (.record "Counts")
    [("Count", sequenceCall "Sum" expressGroup
      [lambda ⟨[ofOrder "a", ofOrder "b"], literal (.int32 1) .int32⟩] .int32)]

def itemsAtAnyPosition : Expr :=
  sequenceCall "Where" (itemsOf "o") [lambda ⟨withPosition, literal (.boolean true) .boolean⟩]
    (.array (.record "Item"))

def countBesideItems : Lambda where
  params := [ofOrder "o"]
  body := named (.record "Counts")
    [("Count", call (some itemsAtAnyPosition) "Count" .enumerable [itemsOf "o"] .int32)]

def totalAtAnyPosition : Lambda where
  params := [ofOrder "o"]
  body := named (.record "Totals")
    [("Total", accumulate .sum itemsAtAnyPosition
      (some ⟨[ofItem "i"], access (parameter (ofItem "i")) "Quantity" .int32⟩) .int32)]

def firstAtAnyPosition : Lambda where
  params := [ofOrder "o"]
  body := named (.record "Firsts")
    [("Name", access (accumulate .first itemsAtAnyPosition none (.record "Item")) "Name" .string)]

/-- Without a parameter or with two of them, a lambda that only selects is accepted, and so is one
of an accumulator. With two it is also in the receiver of a sequence method, in the source of an
accumulator that has a selector, and in that of one whose member is accumulated directly. -/
theorem parameters_unchecked :
    (∀ params ∈ [[], withPosition], (itemLists params).body.Unbound ∧
      ∃ stage, Stage.ofProjector registry {} source (itemLists params) = .ok stage ∧
        stage.specification = Stage.projection [("Lists", .string "$items")]) ∧
    (byExpress.body.Unbound ∧ pairCount.body.Unbound ∧
      ∃ stage, Stage.ofGroup registry {} source byExpress pairCount = .ok stage ∧
        stage.specification = [("_id", .string "$express"),
          ("Count", Bson.apply "$sum" (.int32 1))]) ∧
    (countBesideItems.body.Unbound ∧
      ∃ stage, Stage.ofProjector registry {} source countBesideItems = .ok stage ∧
        stage.specification =
          Stage.projection [("Count", Bson.apply "$size" (.string "$items"))]) ∧
    (totalAtAnyPosition.body.Unbound ∧
      ∃ stage, Stage.ofProjector registry {} source totalAtAnyPosition = .ok stage ∧
        stage.specification =
          Stage.projection [("Total", Bson.apply "$sum" (.string "$$i.qty"))]) ∧
    firstAtAnyPosition.body.Unbound ∧
      ∃ stage, Stage.ofProjector registry {} source firstAtAnyPosition = .ok stage ∧
        stage.specification =
          Stage.projection [("Name", Bson.apply "$first" (.string "$$item.name"))] := by
  refine ⟨?_, ⟨by decide, by decide, _, rfl, rfl⟩, ⟨by decide, _, rfl, rfl⟩,
    ⟨by decide, _, rfl, rfl⟩, by decide, _, rfl, rfl⟩
  intro params hparams
  simp only [List.mem_cons, List.not_mem_nil, or_false] at hparams
  rcases hparams with rfl | rfl
  · exact ⟨by decide, _, rfl, rfl⟩
  · exact ⟨by decide, _, rfl, rfl⟩

end Orders

end QueryStage
