import QueryStage.Proofs.AccumulatorsKept
import QueryStage.Proofs.Orders
import QueryStage.Proofs.StageParts

/-!
# Nested accumulators

Inside the selector of an accumulator the grouping is still in scope, and calls on it become
accumulators there as anywhere else. No step refuses them. So accumulators nest in a bound projector
just when such calls are nested in it, and never where no lambda names the grouping.
-/

namespace QueryStage

namespace Expr

/-- An accumulator stands in the selector of another one. -/
def NestsAccumulators (body : Expr) : Prop :=
  ∃ outer ∈ body.nodes, ∃ inner ∈ outer.selected, inner.isAccumulator = true

instance (body : Expr) : Decidable body.NestsAccumulators :=
  inferInstanceAs (Decidable (∃ outer ∈ body.nodes, ∃ inner ∈ outer.selected,
    inner.isAccumulator = true))

/-- An expression becomes an accumulator. -/
def Accumulates (r : Decoders) (s : Scope) (e : Expr) : Prop :=
  ∃ n, e.bind r s = .ok n ∧ n.isAccumulator = true

/-- On the way through an expression, one becomes an accumulator and so does another one within a
lambda of it. -/
def NestsCalls (r : Decoders) (s : Scope) (e : Expr) : Prop :=
  ∃ s₁ c₁ s₂ fn s₃ c₂, Visits r s e s₁ c₁ ∧ Accumulates r s₁ c₁ ∧ Within r s₁ c₁ s₂ fn ∧
    Visits r s₂ fn.body s₃ c₂ ∧ Accumulates r s₃ c₂

variable {r : Decoders} {s : Scope} {e b : Expr}

theorem isAccumulator_of_selected {outer inner : Expr} (h : inner ∈ outer.selected) :
    outer.isAccumulator = true := by
  cases outer with
  | accumulate => rfl
  | _ => cases h

theorem nestsCalls_of_nestsAccumulators (he : e.Written) (hs : s.Plain) (h : e.bind r s = .ok b)
    (hnests : b.NestsAccumulators) : NestsCalls r s e := by
  obtain ⟨outer, houter, inner, hinner, hacc⟩ := hnests
  have houterAcc := isAccumulator_of_selected hinner
  obtain ⟨s₁, c₁, hcall, hc₁⟩ := accumulated_of_bind he hs h houter houterAcc
  obtain ⟨s₂, fn, body, hwithin, hbody, hmem⟩ := hc₁.selected inner hinner hacc
  have hc₁Written : c₁.Written := he.below hcall.mem_nodes
  have hbodyWritten : fn.body.Written := hc₁Written.below hwithin.body_mem_nodes
  have hs₂ := hwithin.plain (hcall.plain hs)
  obtain ⟨s₃, c₂, hvisits, hc₂⟩ := accumulated_of_bind hbodyWritten hs₂ hbody hmem hacc
  exact ⟨s₁, c₁, s₂, fn, s₃, c₂, hcall, ⟨outer, hc₁.bind, houterAcc⟩, hwithin, hvisits,
    inner, hc₂.bind, hacc⟩

theorem nestsAccumulators_of_nestsCalls (he : e.Written) (hs : s.Plain) (h : e.bind r s = .ok b)
    (hnests : NestsCalls r s e) : b.NestsAccumulators := by
  obtain ⟨s₁, c₁, s₂, fn, s₃, c₂, hcall, ⟨outer, houter, houterAcc⟩, hwithin, hvisits, inner,
    hinner, hinnerAcc⟩ := hnests
  have hc₁Written : c₁.Written := he.below hcall.mem_nodes
  have hbodyWritten : fn.body.Written := hc₁Written.below hwithin.body_mem_nodes
  have hs₁ := hcall.plain hs
  obtain ⟨b₁, hb₁, hkept₁⟩ := hcall.keptIn he hs h
  cases houter.symm.trans hb₁
  obtain ⟨body, hbody, hselected⟩ := hwithin.selectedIn hc₁Written hs₁ houter houterAcc
  obtain ⟨b₂, hb₂, hkept₂⟩ := hvisits.keptIn hbodyWritten (hwithin.plain hs₁) hbody
  cases hinner.symm.trans hb₂
  obtain ⟨outer', houter', -, hsub⟩ := hkept₁ outer (self_mem_nodes outer) houterAcc
  obtain ⟨inner', hinner', hinnerAcc'⟩ :=
    (hkept₂.selectedIn hselected) inner (self_mem_nodes inner) hinnerAcc
  exact ⟨outer', houter', inner', hsub hinner', hinnerAcc'⟩

theorem Accumulates.names {g : GroupScope} (h : Accumulates r s e) (he : e.Written) (hs : s.Plain)
    (hg : s.group = some g) : e.Names g.parameter := by
  obtain ⟨n, hn, hacc⟩ := h
  obtain ⟨s', e', hvisits, haccumulated⟩ := accumulated_of_bind he hs hn (self_mem_nodes n) hacc
  obtain ⟨fn, source, selector, ty, rfl, hgrouping⟩ := haccumulated.source
  rw [Scope.isGrouping_congr hvisits.group] at hgrouping
  have hsource : source ∈ (accumulate fn source selector ty).nodes :=
    mem_nodes_of_part (by simp [parts]) (self_mem_nodes source)
  exact names_of_isGrouping he hs hg hn hsource hgrouping

theorem exists_lambda_of_nestsCalls {g : GroupScope} (he : e.Written) (hs : s.Plain)
    (hg : s.group = some g) (h : NestsCalls r s e) :
    ∃ fn, lambda fn ∈ e.nodes ∧ fn.body.Names g.parameter := by
  obtain ⟨s₁, c₁, s₂, fn, s₃, c₂, hcall, -, hwithin, hvisits, hc₂⟩ := h
  have hbodyWritten : fn.body.Written := (he.below hcall.mem_nodes).below hwithin.body_mem_nodes
  have hg₃ : s₃.group = some g := by rw [hvisits.group, hwithin.group, hcall.group, hg]
  have hs₃ := hvisits.plain (hwithin.plain (hcall.plain hs))
  have hnames := hc₂.names (hbodyWritten.below hvisits.mem_nodes) hs₃ hg₃
  exact ⟨fn, mem_nodes_trans hcall.mem_nodes hwithin.mem_nodes, hnames.above hvisits.mem_nodes⟩

end Expr

namespace Lambda

theorem plain_projectorScope (p : Parameter) (source : Decoder) :
    (projectorScope p source).Plain := by
  have hempty : ({} : Scope).Plain := ⟨nofun, nofun⟩
  exact hempty.bind p none source

theorem plain_groupScope (g : Parameter) (source : Decoder) {key : Expr}
    (hkey : key.All Expr.NoAccumulator) : (groupScope g source key).Plain := by
  have hgroup : ({ group := some ⟨g.name, key⟩ } : Scope).Plain := by
    refine ⟨nofun, ?_⟩
    rintro _ ⟨⟩
    exact hkey
  exact hgroup.bind g none (.array source)

end Lambda

namespace Stage

theorem noAccumulator_of_keyOf {r : Decoders} {bound key : Expr}
    (hbound : bound.All Expr.NoAccumulator) (h : keyOf r bound = .ok key) :
    key.All Expr.NoAccumulator := by
  have hdocument (d : Decoder) : (Expr.document bound none d).All Expr.NoAccumulator :=
    Expr.all_iff.mpr ⟨rfl, by simpa [Expr.parts] using hbound⟩
  rcases keyOf_cases h with ⟨-, rfl⟩ | ⟨_, _, _, _, d, -, -, rfl⟩ | ⟨d, -, -, rfl⟩
  · exact hbound
  · exact hdocument d
  · exact hdocument d

/-- In the bound projector of an accepted group, accumulators nest just when calls that become
accumulators are nested in the projector. They do not if no lambda names the grouping. -/
theorem accumulators_nest_iff (r : Decoders) (options : Options) (source : Decoder)
    (keySelector projector : Lambda) (stage : Stage) (hkeyWritten : keySelector.body.Written)
    (hwritten : projector.body.Written)
    (h : ofGroup r options source keySelector projector = .ok stage) :
    ∃ bound key g body, keySelector.bindProjector r source = .ok bound ∧ keyOf r bound = .ok key ∧
      projector.params = [g] ∧
      projector.body.bind r (Lambda.groupScope g source key) = .ok body ∧
      (body.NestsAccumulators ↔
        Expr.NestsCalls r (Lambda.groupScope g source key) projector.body) ∧
      ((∀ fn, Expr.lambda fn ∈ projector.body.nodes → ¬ fn.body.Names g.name) →
        ¬ body.NestsAccumulators) := by
  obtain ⟨bound, key, keyValue, body, shape, hbound, hkey, -, hbody, -, -⟩ := ofGroup_cases h
  obtain ⟨p, -, hkeyBody⟩ := Lambda.bindProjector_cases hbound
  obtain ⟨g, hg, hbody⟩ := Lambda.bindGroupProjector_cases hbody
  have hboundPlain : bound.All Expr.NoAccumulator :=
    Expr.noAccumulator_of_bind hkeyWritten (Lambda.plain_projectorScope p source) rfl hkeyBody
  have hscope := Lambda.plain_groupScope g source (noAccumulator_of_keyOf hboundPlain hkey)
  have hcalls := Expr.nestsCalls_of_nestsAccumulators hwritten hscope hbody
  refine ⟨bound, key, g, body, hbound, hkey, hg, hbody, ⟨hcalls, ?_⟩, ?_⟩
  · exact Expr.nestsAccumulators_of_nestsCalls hwritten hscope hbody
  · intro hno hnests
    obtain ⟨fn, hfn, hnames⟩ :=
      Expr.exists_lambda_of_nestsCalls hwritten hscope rfl (hcalls hnests)
    exact hno fn hfn hnames

end Stage

namespace Orders

open QueryStage.Expr

def byExpress : Lambda :=
  ⟨[ofOrder "o"], access (parameter (ofOrder "o")) "Express" .boolean⟩

def total : Expr :=
  sequenceCall "Sum" (parameter (ofGroup "g" .boolean))
    [lambda ⟨[ofOrder "p"], access (parameter (ofOrder "p")) "Amount" .int32⟩] .int32

def shares : Lambda where
  params := [ofGroup "g" .boolean]
  body := named (.record "Shares")
    [("Share", sequenceCall "Sum" (parameter (ofGroup "g" .boolean))
      [lambda ⟨[ofOrder "o"], binary .divide (access (parameter (ofOrder "o")) "Amount" .int32)
        total .int32⟩] .int32)]

/-- The total in the shares is a call in the lambda of another one. -/
theorem nestsCalls_of_shares :
    NestsCalls registry (Lambda.groupScope (ofGroup "g" .boolean) source
      (field ⟨["express"]⟩ (.value .boolean) .boolean)) shares.body := by
  obtain ⟨bound, key, g, body, hbound, hkey, hparams, hbody, hiff, -⟩ :=
    Stage.accumulators_nest_iff registry {} source byExpress shares _ (by decide) (by decide) rfl
  cases hbound
  cases hkey
  cases hparams
  cases hbody
  exact hiff.mp (by decide)

/-- Shares of a total are accepted, with the total accumulated for each order. -/
theorem shares_nest :
    ∃ stage body, Stage.ofGroup registry {} source byExpress shares = .ok stage ∧
      byExpress.body.Written ∧ shares.body.Written ∧
      stage.specification = [("_id", .string "$express"),
        ("Share", Bson.apply "$sum" (Bson.applyAll "$divide"
          [.string "$amount", Bson.apply "$sum" (.string "$amount")]))] ∧
      shares.bindGroupProjector registry source
        (field ⟨["express"]⟩ (.value .boolean) .boolean) = .ok body ∧ body.NestsAccumulators :=
  ⟨_, _, rfl, by decide, by decide, rfl, rfl, by decide⟩

end Orders

end QueryStage
