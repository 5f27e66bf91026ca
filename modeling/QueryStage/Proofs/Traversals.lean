import QueryStage.Expr.Equality
import QueryStage.Expr.Traversal
import QueryStage.Proofs.Orders
import QueryStage.Proofs.SyntaxTrees

/-!
# Traversals reach every node

A traversal that does not replace a node sees it, goes through its children in order and gives the
node the children that come back. So a traversal that notes what it sees notes the nodes of the tree
in the order of their addresses, and one that also replaces parameter nodes gives back a tree that
has the same outlines at the same addresses, but for these nodes.
-/

namespace QueryStage

namespace Node

variable {m : Type → Type} [Monad m]

/-- Traverses the tree below a node. -/
def walk (t : Traversal m) : Node → m Node
  | expr e => expr <$> e.traverse t
  | lambda fn => do
    t.lambda fn
    return lambda ⟨fn.params, ← fn.body.traverse t⟩

variable [LawfulMonad m]

private theorem mapM_walk_expr (t : Traversal m) (es : List Expr) :
    es.mapM (walk t ∘ expr) = List.map expr <$> Expr.traverseAll t es := by
  induction es with
  | nil => simp [Expr.traverseAll]
  | cons e es ih => simp [Expr.traverseAll, walk, ih]

private theorem map_enter {α : Type} (t : Traversal m) (e : Expr) (descend : m Expr)
    (f : Expr → α) :
    f <$> t.enter e descend = t.node e >>= (Option.elim · (f <$> descend) (pure ∘ f)) := by
  rw [Traversal.enter, map_bind]
  refine bind_congr fun replaced => ?_
  cases replaced <;> simp

theorem walk_lambda (t : Traversal m) (fn : Lambda) :
    (lambda fn).walk t =
      t.lambda fn >>= fun _ => (lambda fn).fill <$> (lambda fn).children.mapM (walk t) := by
  simp [walk, children, fill]

theorem walk_expr (t : Traversal m) (e : Expr) :
    (expr e).walk t = t.node e >>=
      (Option.elim · ((expr e).fill <$> (expr e).children.mapM (walk t)) (pure ∘ expr)) := by
  cases e with
  | call receiver =>
    cases receiver <;>
      simp [walk, Expr.traverse, map_enter, children, Expr.parts, mapM_walk_expr,
        fill_call_none, fill_call_some]
  | lambda fn =>
    obtain ⟨params, body⟩ := fn
    simp [walk, Expr.traverse, map_enter, children, fill]
  | construct =>
    simp [walk, Expr.traverse, map_enter, children, Expr.parts, mapM_walk_expr, fill_construct]
  | accumulate fn source selector =>
    rcases selector with _ | ⟨params, body⟩ <;>
      simp [walk, Expr.traverse, map_enter, children, fill]
  | _ => simp [walk, Expr.traverse, map_enter, children, Expr.parts, fill]

private theorem mapM_eq_pure {f : Node → m Node} {cs : List Node} (h : ∀ c ∈ cs, f c = pure c) :
    cs.mapM f = pure cs := by
  induction cs with
  | nil => rfl
  | cons c cs ih =>
    obtain ⟨hc, hcs⟩ := List.forall_mem_cons.mp h
    simp [hc, ih hcs]

theorem walk_plain (n : Node) : n.walk Traversal.plain = pure n := by
  induction n using induct_children with
  | step n ih =>
    have hbelow : n.fill <$> n.children.mapM (walk Traversal.plain) = pure n := by
      rw [mapM_eq_pure ih, map_pure, fill_children]
    cases n with
    | expr e => exact (walk_expr _ e).trans hbelow
    | lambda fn => exact (walk_lambda _ fn).trans hbelow

end Node

/-- The computation gives `b` and adds `l` to the log. -/
def Logs {α β : Type} (x : StateM (List α) β) (b : β) (l : List α) : Prop :=
  ∀ log, x.run log = (b, log ++ l)

namespace Logs

variable {α β γ : Type} {x : StateM (List α) β} {b : β} {l l' : List α}

theorem of_pure (b : β) : Logs (pure b : StateM (List α) β) b [] := by
  intro log
  rw [List.append_nil]
  rfl

theorem of_modify (a : α) : Logs (modify (· ++ [a])) () [a] := fun _ => rfl

theorem bind {f : β → StateM (List α) γ} {c : γ} (hx : Logs x b l) (hf : Logs (f b) c l') :
    Logs (x >>= f) c (l ++ l') := by
  intro log
  rw [StateT.run_bind, hx log, ← List.append_assoc]
  exact hf (log ++ l)

theorem map {f : β → γ} (hx : Logs x b l) : Logs (f <$> x) (f b) l := by
  intro log
  rw [StateT.run_map, hx log]
  rfl

theorem of_map {f : β → γ} {c : γ} (h : Logs (f <$> x) c l) : ∃ b, c = f b ∧ x.run [] = (b, l) := by
  have hrun := h []
  rw [StateT.run_map] at hrun
  obtain ⟨hb, hl⟩ := Prod.mk.inj hrun
  exact ⟨_, hb.symm, Prod.ext rfl hl⟩

end Logs

/-- The node that takes the place of a parameter node. -/
def Expr.substitute? (replace : Parameter → Option Parameter) : Expr → Option Expr
  | parameter p => (replace p).map parameter
  | _ => none

/-- The node after parameter nodes are replaced. -/
def Node.replaced (replace : Parameter → Option Parameter) : Node → Node
  | expr e => expr ((e.substitute? replace).getD e)
  | lambda fn => lambda fn

/-- Notes every node and every lambda before what is below it, and replaces parameter nodes. -/
def Traversal.logging {α : Type} (describe : Node → α) (replace : Parameter → Option Parameter) :
    Traversal (StateM (List α)) where
  node e := do
    modify (· ++ [describe (.expr e)])
    return e.substitute? replace
  lambda fn := modify (· ++ [describe (.lambda fn)])

/-- Notes every node and every lambda. -/
def Traversal.recorder : Traversal (StateM (List Node)) := logging id fun _ => none

namespace Node

@[simp] theorem replaced_none (n : Node) : n.replaced (fun _ => none) = n := by
  cases n with
  | lambda fn => rfl
  | expr e => cases e <;> rfl

/-- Every traversal that keeps a log goes through these nodes, and gives back the tree with
parameter nodes replaced. -/
def Traced (n : Node) (trace : List Node) : Prop :=
  ∀ {α : Type} (describe : Node → α) (replace : Parameter → Option Parameter),
    ∃ n', Logs (n.walk (.logging describe replace)) n' (trace.map describe) ∧
      Mirrors (fun k => k.outline.replaced replace) outline n n'

private theorem Traced.mapM {cs : List Node} {traces : Node → List Node}
    (h : ∀ c ∈ cs, c.Traced (traces c)) {α : Type} (describe : Node → α)
    (replace : Parameter → Option Parameter) :
    ∃ cs', Logs (cs.mapM (walk (.logging describe replace))) cs'
        ((cs.flatMap traces).map describe) ∧
      List.Forall₂ (Mirrors (fun k => k.outline.replaced replace) outline) cs cs' := by
  induction cs with
  | nil => exact ⟨[], .of_pure [], .nil⟩
  | cons c cs ih =>
    obtain ⟨hc, hcs⟩ := List.forall_mem_cons.mp h
    obtain ⟨c', hlogs, hmirrors⟩ := hc describe replace
    obtain ⟨cs', hlogs', hmirrors'⟩ := ih hcs
    refine ⟨c' :: cs', ?_, .cons hmirrors hmirrors'⟩
    rw [List.mapM_cons, List.flatMap_cons, List.map_append]
    exact hlogs.bind (by simpa using hlogs'.map (f := (c' :: ·)))

@[simp] private theorem isExpr_replaced (replace : Parameter → Option Parameter) (n : Node) :
    (n.replaced replace).isExpr = n.isExpr := by
  cases n <;> rfl

private theorem map_isExpr_eq {replace : Parameter → Option Parameter} {cs cs' : List Node}
    (h : List.Forall₂ (Mirrors (fun k => k.outline.replaced replace) outline) cs cs') :
    cs'.map isExpr = cs.map isExpr := by
  induction h with
  | nil => rfl
  | cons hd _ ih =>
    have hhead := congrArg isExpr (Option.some.inj (hd []))
    simp only [isExpr_replaced, isExpr_outline] at hhead
    simp [hhead, ih]

theorem Traced.of_children {n : Node} {traces : Node → List Node}
    (h : ∀ c ∈ n.children, c.Traced (traces c)) : n.Traced (n :: n.children.flatMap traces) := by
  intro α describe replace
  obtain ⟨cs', hlogs, hmirrors⟩ := Traced.mapM h describe replace
  obtain ⟨ho, hc⟩ := outline_children_fill (map_isExpr_eq hmirrors)
  have hsame (hn : n.outline.replaced replace = n.outline) :
      Mirrors (fun k => k.outline.replaced replace) outline n (n.fill cs') :=
    .of_children (hn.trans ho.symm) (by rwa [hc])
  cases n with
  | lambda fn =>
    rw [walk_lambda]
    exact ⟨_, Logs.bind (.of_modify _) hlogs.map, hsame rfl⟩
  | expr e =>
    have hnode : Logs ((Traversal.logging describe replace).node e) (e.substitute? replace)
        [describe (expr e)] :=
      Logs.bind (.of_modify _) (.of_pure _)
    rw [walk_expr]
    cases hs : e.substitute? replace with
    | none =>
      rw [hs] at hnode
      refine ⟨_, hnode.bind hlogs.map, hsame ?_⟩
      cases e with
      | parameter p => simp [outline, Expr.outline, replaced, hs]
      | _ => rfl
    | some e' =>
      rw [hs] at hnode
      cases e with
      | parameter p =>
        obtain ⟨p', hp, rfl⟩ := Option.map_eq_some_iff.mp hs
        refine ⟨_, hnode.bind (.of_pure _), .of_children ?_ .nil⟩
        simp [outline, Expr.outline, replaced, hs]
      | _ => simp [Expr.substitute?] at hs

/-- There is one list of the nodes of a tree that every traversal goes through. -/
theorem exists_trace (n : Node) :
    ∃ trace, n.Enumerates trace ∧ trace.filterMap expr? = n.exprs ∧ n.Traced trace := by
  induction n using induct_children with
  | step n ih =>
    choose! traces henumerates hexprs htraced using ih
    refine ⟨_, .of_children henumerates, ?_, Traced.of_children htraced⟩
    have hbelow : (n.children.flatMap traces).filterMap expr? = n.children.flatMap exprs := by
      rw [List.filterMap_flatMap]
      exact List.flatMap_congr hexprs
    rw [exprs_eq, ← hbelow]
    cases n <;> rfl

end Node

namespace Expr

private theorem valuesEq_self_iff (es : List Expr) :
    valuesEq es es = true ↔ ∀ e ∈ es, e.valueEq e = true := by
  induction es with
  | nil => simp [valuesEq]
  | cons e es ih => simp [valuesEq, ih]

def isNaN : Expr → Bool
  | literal (.double x) _ => x.isNaN
  | _ => false

private theorem valueEq_self_step (e : Expr) :
    e.valueEq e = true ↔ e.isNaN = false ∧ ∀ part ∈ e.parts, part.valueEq part = true := by
  cases e with
  | literal value => cases value <;> simp [valueEq, Literal.valueEq, Binary64.valueEq, isNaN, parts]
  | call receiver => cases receiver <;> simp [valueEq, valuesEq_self_iff, isNaN, parts]
  | lambda fn => obtain ⟨params, body⟩ := fn; simp [valueEq, isNaN, parts]
  | construct => simp [valueEq, valuesEq_self_iff, isNaN, parts]
  | accumulate fn source selector =>
    rcases selector with _ | ⟨params, body⟩ <;> simp [valueEq, isNaN, parts]
  | _ => simp [valueEq, isNaN, parts, and_assoc]

theorem valueEq_self_iff (e : Expr) : e.valueEq e = true ↔ ∀ n ∈ e.nodes, n.isNaN = false := by
  induction e using induct_parts with
  | step e ih =>
    rw [valueEq_self_step, nodes_eq, List.forall_mem_cons, List.forall_mem_flatMap]
    exact and_congr_right' (forall₂_congr ih)

end Expr

namespace Node

/-- What a recording traversal notes of a node. -/
def visit : Node → Expr.Visit
  | expr e => .node e.kind
  | lambda fn => .lambda (fn.params.map Parameter.name)

/-- The node with its own name changed, if it is a parameter node called `old`. -/
def renamed (old new : String) : Node → Node
  | expr (.parameter p) => expr (.parameter (if p.name = old then ⟨new, p.ty⟩ else p))
  | n => n

end Node

def Parameter.rename? (old new : String) (p : Parameter) : Option Parameter :=
  if p.name = old then some ⟨new, p.ty⟩ else none

theorem Node.replaced_rename? (old new : String) (n : Node) :
    n.replaced (Parameter.rename? old new) = n.renamed old new := by
  cases n with
  | lambda fn => rfl
  | expr e =>
    cases e with
    | parameter p =>
      by_cases h : p.name = old <;> simp [replaced, Expr.substitute?, Parameter.rename?, renamed, h]
    | _ => rfl

theorem Traversal.renamer_eq (old new : String) :
    renamer old new = logging Node.visit (Parameter.rename? old new) := by
  rw [renamer, logging]
  congr 1
  funext e
  cases e with
  | parameter p =>
    have hrename : Expr.substitute? (Parameter.rename? old new) (.parameter p) =
        if p.name = old then some (.parameter ⟨new, p.ty⟩) else none := by
      by_cases h : p.name = old <;> simp [Expr.substitute?, Parameter.rename?, h]
    rw [hrename]
    rfl
  | _ => rfl

theorem Node.eq_of_outline_parameter {n : Node} {p : Parameter}
    (h : n.outline = expr (.parameter p)) : n = expr (.parameter p) := by
  cases n with
  | lambda fn => simp [outline] at h
  | expr e => cases e <;> simp_all [outline, Expr.outline]

theorem Node.renamed_renamed {old new : String} {n : Node}
    (h : ∀ p, n = expr (.parameter p) → p.name ≠ new) :
    (n.renamed old new).renamed new old = n := by
  cases n with
  | lambda fn => rfl
  | expr e =>
    cases e with
    | parameter p =>
      obtain ⟨name, ty⟩ := p
      have hnew : name ≠ new := h _ rfl
      by_cases hold : name = old <;> simp [renamed, hold, hnew]
    | _ => rfl

namespace Expr

private theorem run_logging {e : Expr} {trace : List Node} (h : (Node.expr e).Traced trace)
    {α : Type} (describe : Node → α) (replace : Parameter → Option Parameter) :
    ∃ e', (e.traverse (.logging describe replace)).run [] = (e', trace.map describe) ∧
      Node.Mirrors (fun n => n.outline.replaced replace) Node.outline (.expr e) (.expr e') := by
  obtain ⟨n', hlogs, hmirrors⟩ := h describe replace
  obtain ⟨e', rfl, hrun⟩ := hlogs.of_map
  exact ⟨e', hrun, hmirrors⟩

theorem mirrors_renameTraced (old new : String) (e : Expr) :
    Node.Mirrors (fun n => n.outline.renamed old new) Node.outline (.expr e)
      (.expr (e.renameTraced old new).1) := by
  obtain ⟨trace, -, -, htraced⟩ := Node.exists_trace (.expr e)
  obtain ⟨e', hrun, hmirrors⟩ := run_logging htraced Node.visit (Parameter.rename? old new)
  rw [← Traversal.renamer_eq] at hrun
  rw [renameTraced, hrun]
  simpa only [Node.replaced_rename?] using hmirrors

/-- A name that no parameter node has can be taken back. -/
theorem renameTraced_renameTraced {old new : String} {e : Expr}
    (h : ∀ p, parameter p ∈ e.nodes → p.name ≠ new) :
    ((e.renameTraced old new).1.renameTraced new old).1 = e := by
  obtain ⟨trace, henumerates, hexprs, -⟩ := Node.exists_trace (.expr e)
  have hthere := (mirrors_renameTraced old new e).map (Node.renamed new old)
  have hback := mirrors_renameTraced new old (e.renameTraced old new).1
  refine (Node.expr.inj (Node.Mirrors.eq ((hthere.trans hback).congr_left ?_))).symm
  intro address n hn
  refine (Node.renamed_renamed fun p hp => h p ?_).symm
  rw [Node.eq_of_outline_parameter hp] at hn
  change _ ∈ (Node.expr e).exprs
  rw [← hexprs]
  exact List.mem_filterMap.mpr ⟨_, henumerates.mem hn, rfl⟩

/-- The traversal that changes nothing gives back an equal tree. One that records what it sees goes
through all nodes, each once and before its children, the children from left to right, and one that
renames parameter nodes changes just those of the name, so that it can be undone if the new name was
free. -/
theorem traverse_complete (e : Expr) :
    e.rebuild = e ∧ (e.rebuild.valueEq e = true ↔ ∀ n ∈ e.nodes, n.isNaN = false) ∧
      ∃ trace, (e.traverse Traversal.recorder).run [] = (e, trace) ∧
        (Node.expr e).Enumerates trace ∧ trace.filterMap Node.expr? = e.nodes ∧
        ∀ old new, (e.renameTraced old new).2 = trace.map Node.visit ∧
          Node.Mirrors (fun n => n.outline.renamed old new) Node.outline (.expr e)
            (.expr (e.renameTraced old new).1) ∧
          ((∀ p, parameter p ∈ e.nodes → p.name ≠ new) →
            ((e.renameTraced old new).1.renameTraced new old).1 = e) := by
  have hrebuild : e.rebuild = e := Node.expr.inj (Node.walk_plain (.expr e))
  refine ⟨hrebuild, by rw [hrebuild, valueEq_self_iff], ?_⟩
  obtain ⟨trace, henumerates, hexprs, htraced⟩ := Node.exists_trace (.expr e)
  refine ⟨trace, ?_, henumerates, hexprs, fun old new => ⟨?_, mirrors_renameTraced old new e,
    renameTraced_renameTraced⟩⟩
  · obtain ⟨e', hrun, hmirrors⟩ := run_logging htraced id fun _ => none
    have hsame : Node.expr e = .expr e' :=
      (hmirrors.congr_left fun _ n _ => (Node.replaced_none n.outline).symm).eq
    rw [Traversal.recorder, hrun, Node.expr.inj hsame, List.map_id]
  · obtain ⟨e', hrun, -⟩ := run_logging htraced Node.visit (Parameter.rename? old new)
    rw [← Traversal.renamer_eq] at hrun
    rw [renameTraced, hrun]

end Expr

namespace Orders

open QueryStage.Expr

/-- The sum of the amounts in a group, where the selector's parameter has the group's name. -/
def totalAmount : Expr :=
  accumulate .sum (parameter (ofGroup "o" .boolean))
    (some ⟨[ofOrder "o"], binary .add (access (parameter (ofOrder "o")) "Amount" .int32)
      (access (parameter (ofOrder "x")) "Amount" .int32) .int32⟩) .int32

/-- Both nodes called `o` are renamed and renamed back, and the lambda's own name stays. -/
theorem totalAmount_renamed_back :
    (totalAmount.renameTraced "o" "g").1 =
        accumulate .sum (parameter (ofGroup "g" .boolean))
          (some ⟨[ofOrder "o"], binary .add (member (parameter (ofOrder "g")) "Amount"
              (.record "Order") .int32)
            (access (parameter (ofOrder "x")) "Amount" .int32) .int32⟩) .int32 ∧
      (∀ p, parameter p ∈ totalAmount.nodes → p.name ≠ "g") ∧
      ((totalAmount.renameTraced "o" "g").1.renameTraced "g" "o").1 = totalAmount := by
  have hfree : ∀ p, parameter p ∈ totalAmount.nodes → p.name ≠ "g" := by
    simp [totalAmount, nodes, access, ofGroup, ofOrder]
  obtain ⟨-, -, trace, -, -, -, hrenamed⟩ := traverse_complete totalAmount
  exact ⟨rfl, hfree, (hrenamed "o" "g").2.2 hfree⟩

end Orders

end QueryStage
