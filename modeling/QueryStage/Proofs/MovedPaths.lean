import QueryStage.Proofs.Relocation
import QueryStage.Proofs.Traversals

/-!
# Moving paths keeps the tree

Moving the bound paths of an expression changes the bound nodes at their addresses, in their path
only. The bound paths, in the order of the nodes, are those of the expression moved one by one, and
paths that are moved to a place where the expression reads nothing can be moved back.
-/

namespace QueryStage

namespace Path

/-- A path below `old` and the corresponding one below `new`, or a path elsewhere and itself. -/
def Rerooted (old new p q : Path) : Prop :=
  (∃ rest, p.segments = old.segments ++ rest ∧ q.segments = new.segments ++ rest) ∨
    (∀ rest, p.segments ≠ old.segments ++ rest) ∧ q = p

theorem rerooted_reroot (old new p : Path) : Rerooted old new p (reroot old new p) := by
  cases h : p.startsWith old with
  | true =>
    obtain ⟨rest, hrest⟩ := (startsWith_iff p old).mp h
    obtain rfl : p = ⟨old.segments ++ rest⟩ := by cases p; simp_all
    exact .inl ⟨rest, rfl, by rw [reroot_append]⟩
  | false =>
    refine .inr ⟨fun rest hrest => ?_, reroot_of_not_startsWith h⟩
    rw [(startsWith_iff p old).mpr ⟨rest, hrest⟩] at h
    cases h

theorem reroot_reroot {old new p : Path} (h : p.startsWith new = false) :
    reroot new old (reroot old new p) = p := by
  rcases rerooted_reroot old new p with ⟨rest, hp, hq⟩ | ⟨-, hq⟩
  · obtain rfl : p = ⟨old.segments ++ rest⟩ := by cases p; simp_all
    rw [reroot_append, reroot_append]
  · rw [hq, reroot_of_not_startsWith h]

end Path

namespace Expr

theorem parts_mapPaths (f : Path → Path) (e : Expr) :
    (e.mapPaths f).parts = e.parts.map (mapPaths f) := by
  cases e with
  | call receiver => cases receiver <;> simp [mapPaths, parts]
  | accumulate fn source selector =>
    rcases selector with _ | ⟨params, body⟩ <;> simp [mapPaths, parts]
  | lambda fn => obtain ⟨params, body⟩ := fn; simp [mapPaths, parts]
  | _ => simp [mapPaths, parts]

theorem nodes_mapPaths (f : Path → Path) (e : Expr) :
    (e.mapPaths f).nodes = e.nodes.map (mapPaths f) := by
  induction e using induct_parts with
  | step e ih =>
    rw [nodes_eq, nodes_eq e, parts_mapPaths, List.map_cons, List.flatMap_map, List.map_flatMap]
    exact congrArg _ (List.flatMap_congr ih)

theorem boundPaths_mapPaths (f : Path → Path) (e : Expr) :
    (e.mapPaths f).boundPaths = e.boundPaths.map f := by
  rw [boundPaths, boundPaths, nodes_mapPaths, List.filterMap_map, List.map_filterMap]
  exact List.filterMap_congr fun n _ => boundPath?_mapPaths f n

theorem mapPaths_mapPaths {f g : Path → Path} {e : Expr} (h : ∀ p ∈ e.boundPaths, g (f p) = p) :
    (e.mapPaths f).mapPaths g = e := by
  induction e using induct_parts with
  | step e ih =>
    have below (part : Expr) (hpart : part ∈ e.parts) : (part.mapPaths f).mapPaths g = part :=
      ih part hpart fun p hp => h p (mem_boundPaths_of_part hpart hp)
    have here (p : Path) (hp : e.boundPath? = some p) : g (f p) = p :=
      h p (mem_boundPaths.mpr ⟨e, self_mem_nodes e, hp⟩)
    have hall (es : List Expr) (hes : ∀ part ∈ es, part ∈ e.parts) :
        es.map (mapPaths g ∘ mapPaths f) = es :=
      (List.map_congr_left fun part hpart => below part (hes part hpart)).trans (List.map_id es)
    clear h ih
    cases e with
    | call receiver method declaring args =>
      have hargs := hall args (by simp +contextual [parts])
      cases receiver <;> simp_all [mapPaths, parts]
    | construct ty parameters args =>
      have hargs := hall args fun _ h => h
      simp_all [mapPaths]
    | accumulate fn source selector =>
      rcases selector with _ | ⟨params, body⟩ <;> simp_all [mapPaths, parts]
    | lambda fn => obtain ⟨params, body⟩ := fn; simp_all [mapPaths, parts]
    | field path => simp [mapPaths, here path rfl]
    | document inner path => cases path <;> simp_all [mapPaths, parts, boundPath?]
    | _ => simp_all [mapPaths, parts]

end Expr

namespace Node

def mapPaths (f : Path → Path) : Node → Node
  | expr e => expr (e.mapPaths f)
  | lambda fn => lambda ⟨fn.params, fn.body.mapPaths f⟩

/-- The node without the path that it is bound to. -/
def unplaced : Node → Node
  | expr (.field _ decoder ty) => expr (.field ⟨[]⟩ decoder ty)
  | expr (.document inner path decoder) => expr (.document inner (path.map fun _ => ⟨[]⟩) decoder)
  | n => n

def boundPath? (n : Node) : Option Path := n.expr?.bind Expr.boundPath?

theorem children_mapPaths (f : Path → Path) (n : Node) :
    (n.mapPaths f).children = n.children.map (mapPaths f) := by
  cases n with
  | lambda fn => rfl
  | expr e =>
    cases e with
    | call receiver =>
      cases receiver <;> simp [mapPaths, Expr.mapPaths, children, Expr.parts]
    | lambda fn => obtain ⟨params, body⟩ := fn; rfl
    | accumulate fn source selector => rcases selector with _ | ⟨params, body⟩ <;> rfl
    | construct => simp [mapPaths, Expr.mapPaths, children, Expr.parts]
    | _ => rfl

theorem unplaced_outline_mapPaths (f : Path → Path) (n : Node) :
    (n.mapPaths f).outline.unplaced = n.outline.unplaced := by
  cases n with
  | lambda fn => rfl
  | expr e =>
    cases e with
    | call receiver =>
      cases receiver <;> simp [mapPaths, Expr.mapPaths, outline, Expr.outline, Function.comp_def]
    | lambda fn => obtain ⟨params, body⟩ := fn; rfl
    | accumulate fn source selector => rcases selector with _ | ⟨params, body⟩ <;> rfl
    | construct => simp [mapPaths, Expr.mapPaths, outline, Expr.outline, Function.comp_def]
    | document inner path => cases path <;> rfl
    | _ => rfl

/-- The tree is the same at each address, but for the bound paths. -/
theorem mirrors_mapPaths (f : Path → Path) (n : Node) :
    Mirrors (fun k => k.outline.unplaced) (fun k => k.outline.unplaced) n (n.mapPaths f) := by
  induction n using induct_children with
  | step n ih =>
    refine .of_children (unplaced_outline_mapPaths f n).symm ?_
    rw [children_mapPaths, List.forall₂_map_right_iff, List.forall₂_same]
    exact ih

end Node

namespace Expr

/-- The bound paths are listed in the order of the addresses of all nodes. -/
theorem exists_enumerates_boundPaths (e : Expr) :
    ∃ trace, (Node.expr e).Enumerates trace ∧ trace.filterMap Node.boundPath? = e.boundPaths := by
  obtain ⟨trace, henumerates, hexprs, -⟩ := Node.exists_trace (.expr e)
  refine ⟨trace, henumerates, ?_⟩
  change trace.filterMap _ = (Node.expr e).exprs.filterMap boundPath?
  rw [← hexprs, List.filterMap_filterMap]
  rfl

/-- Moving the paths below one root to another changes bound paths and nothing else. At each address
there is the same node but for its path, the bound paths of all nodes in their order are those
before with each one moved or kept, and they can be moved back from where none was before. -/
theorem reroot_moves_only_paths (old new : Path) (e : Expr) :
    Node.Mirrors (fun n => n.outline.unplaced) (fun n => n.outline.unplaced) (.expr e)
        (.expr (e.reroot old new)) ∧
      (e.reroot old new).nodes.length = e.nodes.length ∧
      (∃ trace moved, (Node.expr e).Enumerates trace ∧
        (Node.expr (e.reroot old new)).Enumerates moved ∧
        trace.filterMap Node.boundPath? = e.boundPaths ∧
        List.Forall₂ (Path.Rerooted old new) (trace.filterMap Node.boundPath?)
          (moved.filterMap Node.boundPath?)) ∧
      ((∀ p ∈ e.boundPaths, p.startsWith new = false) →
        (e.reroot old new).reroot new old = e) := by
  refine ⟨Node.mirrors_mapPaths _ (.expr e), ?_, ?_, fun h =>
    mapPaths_mapPaths fun p hp => Path.reroot_reroot (h p hp)⟩
  · rw [reroot, nodes_mapPaths, List.length_map]
  · obtain ⟨trace, henumerates, hpaths⟩ := exists_enumerates_boundPaths e
    obtain ⟨moved, hmoved, hmovedPaths⟩ := exists_enumerates_boundPaths (e.reroot old new)
    refine ⟨trace, moved, henumerates, hmoved, hpaths, ?_⟩
    rw [hpaths, hmovedPaths, reroot, boundPaths_mapPaths, List.forall₂_map_right_iff,
      List.forall₂_same]
    exact fun p _ => Path.rerooted_reroot old new p

end Expr

namespace Orders

open QueryStage.Expr

/-- Quantities with the amount added, summed: bound paths in the source and in the selector. -/
def summedItems : Expr :=
  accumulate .sum
    (document (access (parameter (ofOrder "o")) "Items" (.array (.record "Item")))
      (some ⟨["items"]⟩) (.array (.document item)))
    (some ⟨[ofItem "i"], binary .add (field ⟨["items", "qty"]⟩ (.value .int32) .int32)
      (field ⟨["amount"]⟩ (.value .int32) .int32) .int32⟩) .int32

theorem summedItems_moved_back :
    (summedItems.reroot ⟨["items"]⟩ (.loopVariable "i")).boundPaths =
        [⟨["$i"]⟩, ⟨["$i", "qty"]⟩, ⟨["amount"]⟩] ∧
      (∀ p ∈ summedItems.boundPaths, p.startsWith (.loopVariable "i") = false) ∧
      (summedItems.reroot ⟨["items"]⟩ (.loopVariable "i")).reroot (.loopVariable "i")
        ⟨["items"]⟩ = summedItems := by
  have hfree : ∀ p ∈ summedItems.boundPaths, p.startsWith (.loopVariable "i") = false := by
    decide
  exact ⟨by decide, hfree, (reroot_moves_only_paths _ _ summedItems).2.2.2 hfree⟩

end Orders

end QueryStage
