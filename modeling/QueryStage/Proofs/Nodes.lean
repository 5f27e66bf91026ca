import Mathlib.Data.List.Basic
import QueryStage.Lowering.Rerooting

/-!
# Nodes of an expression

All nodes of an expression, each before its parts and the parts from left to right, and the paths of
the bound nodes among them. Moving paths moves exactly these, and lowering depends on the map that
moves them nowhere else.
-/

namespace QueryStage.Expr

/-- The expressions directly below one: operands, the bodies of lambdas and selectors, and the
expression that a document stands for. -/
def parts : Expr → List Expr
  | literal _ _ => []
  | parameter _ => []
  | member target _ _ _ => [target]
  | binary _ left right _ => [left, right]
  | unary _ operand _ => [operand]
  | conditional test ifTrue ifFalse _ => [test, ifTrue, ifFalse]
  | call receiver _ _ args _ => receiver.toList ++ args
  | lambda fn => [fn.body]
  | construct _ _ args _ => args
  | accumulate _ source selector _ => source :: (selector.map Lambda.body).toList
  | field _ _ _ => []
  | document inner _ _ => [inner]

theorem induct_parts {P : Expr → Prop} (step : ∀ e, (∀ part ∈ e.parts, P part) → P e) (e : Expr) :
    P e := by
  induction e with
  | call receiver method declaring args ty ihr iha _ =>
    refine step _ fun part h => ?_
    rcases List.mem_append.mp h with h | h
    · exact ihr part (Option.mem_toList.mp h)
    · exact iha part h
  | construct ty parameters args members ih => exact step _ ih
  | accumulate fn source selector ty ihs ihb =>
    refine step _ fun part h => ?_
    rcases List.mem_cons.mp h with rfl | h
    · exact ihs
    · obtain ⟨⟨params, body⟩, hselector, rfl⟩ := Option.map_eq_some_iff.mp (Option.mem_toList.mp h)
      exact ihb params body hselector
  | _ =>
    refine step _ ?_
    simp_all [parts]

mutual

/-- The expression and all that is below it. -/
def nodes : Expr → List Expr
  | literal value ty => [literal value ty]
  | parameter p => [parameter p]
  | member target name declaring ty => member target name declaring ty :: target.nodes
  | binary op left right ty => binary op left right ty :: (left.nodes ++ right.nodes)
  | unary op operand ty => unary op operand ty :: operand.nodes
  | conditional test ifTrue ifFalse ty =>
    conditional test ifTrue ifFalse ty :: (test.nodes ++ (ifTrue.nodes ++ ifFalse.nodes))
  | call none method declaring args ty => call none method declaring args ty :: nodesAll args
  | call (some receiver) method declaring args ty =>
    call (some receiver) method declaring args ty :: (receiver.nodes ++ nodesAll args)
  | lambda ⟨params, body⟩ => lambda ⟨params, body⟩ :: body.nodes
  | construct ty parameters args members => construct ty parameters args members :: nodesAll args
  | accumulate fn source none ty => accumulate fn source none ty :: source.nodes
  | accumulate fn source (some ⟨params, body⟩) ty =>
    accumulate fn source (some ⟨params, body⟩) ty :: (source.nodes ++ body.nodes)
  | field path decoder ty => [field path decoder ty]
  | document inner path decoder => document inner path decoder :: inner.nodes

def nodesAll : List Expr → List Expr
  | [] => []
  | e :: es => e.nodes ++ nodesAll es

end

@[simp] theorem nodesAll_eq_flatMap (es : List Expr) : nodesAll es = es.flatMap nodes := by
  induction es with
  | nil => rfl
  | cons e es ih => simp [nodesAll, ih]

theorem nodes_eq (e : Expr) : e.nodes = e :: e.parts.flatMap nodes := by
  cases e with
  | call receiver => cases receiver <;> simp [nodes, parts]
  | accumulate fn source selector =>
    rcases selector with _ | ⟨params, body⟩ <;> simp [nodes, parts]
  | lambda fn => obtain ⟨params, body⟩ := fn; simp [nodes, parts]
  | _ => simp [nodes, parts]

theorem mem_nodes_iff {e n : Expr} : n ∈ e.nodes ↔ n = e ∨ ∃ part ∈ e.parts, n ∈ part.nodes := by
  rw [nodes_eq, List.mem_cons, List.mem_flatMap]

@[simp] theorem self_mem_nodes (e : Expr) : e ∈ e.nodes := mem_nodes_iff.mpr (.inl rfl)

theorem mem_nodes_of_part {e part n : Expr} (h : part ∈ e.parts) (hn : n ∈ part.nodes) :
    n ∈ e.nodes :=
  mem_nodes_iff.mpr (.inr ⟨part, h, hn⟩)

theorem body_mem_nodes (fn : Lambda) : fn.body ∈ (lambda fn).nodes :=
  mem_nodes_of_part (by simp [parts]) (self_mem_nodes _)

theorem mem_nodes_trans {e n m : Expr} (hn : n ∈ e.nodes) (hm : m ∈ n.nodes) : m ∈ e.nodes := by
  induction e using induct_parts with
  | step e ih =>
    rcases mem_nodes_iff.mp hn with rfl | ⟨part, hpart, hn⟩
    · exact hm
    · exact mem_nodes_of_part hpart (ih part hpart hn)

/-- A property of an expression may be shown from the same property of all that is below it. -/
theorem induct_nodes {P : Expr → Prop}
    (step : ∀ e, (∀ part ∈ e.parts, ∀ n ∈ part.nodes, P n) → P e) (e : Expr) : P e := by
  have hall : ∀ n ∈ e.nodes, P n := by
    induction e using induct_parts with
    | step e ih =>
      intro n hn
      rcases mem_nodes_iff.mp hn with rfl | ⟨part, hpart, hn⟩
      · exact step _ ih
      · exact ih part hpart n hn
  exact hall e (self_mem_nodes e)

/-- The paths of the bound nodes, in the order of the nodes. -/
def boundPaths (e : Expr) : List Path := e.nodes.filterMap boundPath?

theorem mem_boundPaths {e : Expr} {p : Path} :
    p ∈ e.boundPaths ↔ ∃ n ∈ e.nodes, n.boundPath? = some p :=
  List.mem_filterMap

theorem boundPaths_eq (e : Expr) :
    e.boundPaths = e.boundPath?.toList ++ e.parts.flatMap boundPaths := by
  rw [boundPaths, nodes_eq, List.filterMap_cons, List.filterMap_flatMap]
  cases e.boundPath? <;> rfl

theorem mem_boundPaths_of_part {e part : Expr} {p : Path} (h : part ∈ e.parts)
    (hp : p ∈ part.boundPaths) : p ∈ e.boundPaths := by
  obtain ⟨n, hn, hp⟩ := mem_boundPaths.mp hp
  exact mem_boundPaths.mpr ⟨n, mem_nodes_of_part h hn, hp⟩

theorem mapPaths_congr {f g : Path → Path} {e : Expr} (h : ∀ p ∈ e.boundPaths, f p = g p) :
    e.mapPaths f = e.mapPaths g := by
  induction e using induct_parts with
  | step e ih =>
    have below (part : Expr) (hpart : part ∈ e.parts) : part.mapPaths f = part.mapPaths g :=
      ih part hpart fun p hp => h p (mem_boundPaths_of_part hpart hp)
    have here (p : Path) (hp : e.boundPath? = some p) : f p = g p :=
      h p (mem_boundPaths.mpr ⟨e, self_mem_nodes e, hp⟩)
    clear h ih
    cases e with
    | call receiver => cases receiver <;> simp_all [mapPaths, parts]
    | accumulate fn source selector =>
      rcases selector with _ | ⟨params, body⟩ <;> simp_all [mapPaths, parts]
    | lambda fn => obtain ⟨params, body⟩ := fn; simp_all [mapPaths, parts]
    | field path => simp [mapPaths, here path rfl]
    | document inner path => cases path <;> simp_all [mapPaths, parts, boundPath?]
    | _ => simp_all [mapPaths, parts]

/-- Lowering reads the map of paths at the bound paths only. -/
theorem lower_congr (unit : StringUnit) {f g : Path → Path} {e : Expr}
    (h : ∀ p ∈ e.boundPaths, f p = g p) : e.lower unit f = e.lower unit g := by
  have hf := lower_mapPaths unit f e id
  have hg := lower_mapPaths unit g e id
  rw [mapPaths_congr h] at hf
  exact hf.symm.trans hg

end QueryStage.Expr
