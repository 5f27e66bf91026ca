import Mathlib.Data.List.Lex
import Mathlib.Data.List.Forall2
import QueryStage.Proofs.Nodes

/-!
# Syntax trees

The tree of an expression, with its lambdas as nodes of their own. A node is found at an address,
the list of the child numbers on the way to it, and addresses in lexicographic order list the nodes
each before its children and the children from left to right. A tree is known by the outlines of its
nodes: what a node says by itself, and how many children it has.
-/

namespace QueryStage

namespace Expr

/-- The expression with a blank in place of each expression and lambda that it holds. -/
def outline : Expr → Expr
  | literal value ty => literal value ty
  | parameter p => parameter p
  | member _ name declaring ty => member default name declaring ty
  | binary op _ _ ty => binary op default default ty
  | unary op _ ty => unary op default ty
  | conditional _ _ _ ty => conditional default default default ty
  | call receiver method declaring args ty =>
    call (receiver.map fun _ => default) method declaring (args.map fun _ => default) ty
  | lambda _ => lambda ⟨[], default⟩
  | construct ty parameters args members =>
    construct ty parameters (args.map fun _ => default) members
  | accumulate fn _ selector ty =>
    accumulate fn default (selector.map fun _ => ⟨[], default⟩) ty
  | field path decoder ty => field path decoder ty
  | document _ path decoder => document default path decoder

end Expr

/-- A node of a syntax tree: an expression, or a lambda that an expression holds. -/
inductive Node where
  | expr (e : Expr)
  | lambda (fn : Lambda)

namespace Node

/-- The nodes directly below one, from left to right. -/
def children : Node → List Node
  | expr (.lambda fn) => [lambda fn]
  | expr (.accumulate _ source selector _) => expr source :: (selector.map lambda).toList
  | expr e => e.parts.map expr
  | lambda fn => [expr fn.body]

/-- What a node says by itself, with blanks in place of its children. -/
def outline : Node → Node
  | expr e => expr e.outline
  | lambda fn => lambda ⟨fn.params, default⟩

def expr? : Node → Option Expr
  | expr e => some e
  | lambda _ => none

theorem filterMap_expr? (es : List Expr) : (es.map expr).filterMap expr? = es := by
  rw [List.filterMap_map]
  exact List.filterMap_some

theorem induct_children {P : Node → Prop} (step : ∀ n, (∀ c ∈ n.children, P c) → P n) (n : Node) :
    P n := by
  have hlambda {fn : Lambda} (h : P (expr fn.body)) : P (lambda fn) := by
    refine step _ fun c hc => ?_
    rw [List.mem_singleton.mp hc]
    exact h
  have hexpr (e : Expr) : P (expr e) := by
    induction e using Expr.induct_parts with
    | step e ih =>
      refine step _ fun c hc => ?_
      cases e with
      | lambda fn =>
        rw [List.mem_singleton.mp hc]
        exact hlambda (ih fn.body (by simp [Expr.parts]))
      | accumulate fn source selector ty =>
        rcases List.mem_cons.mp hc with rfl | hc
        · exact ih source (by simp [Expr.parts])
        · obtain ⟨selector, rfl, rfl⟩ := Option.map_eq_some_iff.mp (Option.mem_toList.mp hc)
          exact hlambda (ih selector.body (by simp [Expr.parts]))
      | _ =>
        obtain ⟨part, hpart, rfl⟩ := List.mem_map.mp hc
        exact ih part hpart
  cases n with
  | expr e => exact hexpr e
  | lambda fn => exact hlambda (hexpr fn.body)

/-- The node with other children. -/
def fill : Node → List Node → Node
  | expr (.member _ name declaring ty), [expr target] => expr (.member target name declaring ty)
  | expr (.binary op _ _ ty), [expr left, expr right] => expr (.binary op left right ty)
  | expr (.unary op _ ty), [expr operand] => expr (.unary op operand ty)
  | expr (.conditional _ _ _ ty), [expr test, expr ifTrue, expr ifFalse] =>
    expr (.conditional test ifTrue ifFalse ty)
  | expr (.call none method declaring _ ty), args =>
    expr (.call none method declaring (args.filterMap expr?) ty)
  | expr (.call (some _) method declaring _ ty), expr receiver :: args =>
    expr (.call (some receiver) method declaring (args.filterMap expr?) ty)
  | expr (.lambda _), [lambda fn] => expr (.lambda fn)
  | expr (.construct ty parameters _ members), args =>
    expr (.construct ty parameters (args.filterMap expr?) members)
  | expr (.accumulate fn _ none ty), [expr source] => expr (.accumulate fn source none ty)
  | expr (.accumulate fn _ (some _) ty), [expr source, lambda selector] =>
    expr (.accumulate fn source (some selector) ty)
  | expr (.document _ path decoder), [expr inner] => expr (.document inner path decoder)
  | lambda fn, [expr body] => lambda ⟨fn.params, body⟩
  | n, _ => n

section Arguments

variable {method : String} {declaring ty : Ty} {parameters : List String}
  {members : Option (List String)} {before : List Expr}

theorem fill_call_none (args : List Expr) :
    (expr (.call none method declaring before ty)).fill (args.map expr) =
      expr (.call none method declaring args ty) :=
  congrArg (fun args => expr (.call _ _ _ args _)) (filterMap_expr? args)

theorem fill_call_some {old : Expr} (receiver : Expr) (args : List Expr) :
    (expr (.call (some old) method declaring before ty)).fill (expr receiver :: args.map expr) =
      expr (.call (some receiver) method declaring args ty) :=
  congrArg (fun args => expr (.call _ _ _ args _)) (filterMap_expr? args)

theorem fill_construct (args : List Expr) :
    (expr (.construct ty parameters before members)).fill (args.map expr) =
      expr (.construct ty parameters args members) :=
  congrArg (fun args => expr (.construct _ _ args _)) (filterMap_expr? args)

end Arguments

theorem fill_outline (n : Node) : n.outline.fill n.children = n := by
  cases n with
  | lambda fn => obtain ⟨params, body⟩ := fn; rfl
  | expr e =>
    cases e with
    | call receiver =>
      cases receiver with
      | none => exact fill_call_none _
      | some receiver => exact fill_call_some receiver _
    | construct => exact fill_construct _
    | accumulate fn source selector => cases selector <;> rfl
    | _ => rfl

theorem eq_of_outline_of_children {m n : Node} (ho : m.outline = n.outline)
    (hc : m.children = n.children) : m = n := by
  rw [← fill_outline m, ← fill_outline n, ho, hc]

def isExpr : Node → Bool
  | expr _ => true
  | lambda _ => false

@[simp] theorem isExpr_outline (n : Node) : n.outline.isExpr = n.isExpr := by
  cases n <;> rfl

private theorem eq_map_expr {cs : List Node} (es : List Expr)
    (h : cs.map isExpr = (es.map expr).map isExpr) :
    ∃ args : List Expr, cs = args.map expr ∧ args.length = es.length := by
  induction es generalizing cs with
  | nil => exact ⟨[], by simpa using h, rfl⟩
  | cons e es ih =>
    rcases cs with _ | ⟨_ | _, cs⟩
    · simp at h
    · obtain ⟨args, rfl, hlength⟩ := ih (List.tail_eq_of_cons_eq h)
      exact ⟨_ :: args, rfl, congrArg (· + 1) hlength⟩
    · simp [isExpr] at h

theorem outline_children_fill {n : Node} {cs : List Node}
    (h : cs.map isExpr = n.children.map isExpr) :
    (n.fill cs).outline = n.outline ∧ (n.fill cs).children = cs := by
  cases n with
  | lambda fn =>
    obtain ⟨args, rfl, hlength⟩ := eq_map_expr [fn.body] h
    obtain ⟨body, rfl⟩ := List.length_eq_one_iff.mp hlength
    exact ⟨rfl, rfl⟩
  | expr e =>
    cases e with
    | lambda fn =>
      obtain ⟨c, rfl, hc⟩ := List.map_eq_singleton_iff.mp h
      cases c with
      | expr e => simp [isExpr] at hc
      | lambda fn => exact ⟨rfl, rfl⟩
    | accumulate fn source selector =>
      obtain ⟨c, cs, rfl, hc, hcs⟩ := List.map_eq_cons_iff.mp h
      cases c with
      | lambda fn => simp [isExpr] at hc
      | expr source =>
        cases selector with
        | none =>
          obtain rfl := List.map_eq_nil_iff.mp hcs
          exact ⟨rfl, rfl⟩
        | some selector =>
          obtain ⟨c, rfl, hc⟩ := List.map_eq_singleton_iff.mp hcs
          cases c with
          | expr e => simp [isExpr] at hc
          | lambda fn => exact ⟨rfl, rfl⟩
    | call receiver =>
      obtain ⟨args, rfl, hlength⟩ := eq_map_expr _ h
      cases receiver with
      | none =>
        rw [fill_call_none]
        exact ⟨by simp_all [outline, Expr.outline, Expr.parts, List.map_const'], rfl⟩
      | some receiver =>
        obtain ⟨receiver, args, rfl⟩ := List.exists_cons_of_length_eq_add_one hlength
        rw [List.map_cons, fill_call_some]
        exact ⟨by simp_all [outline, Expr.outline, Expr.parts, List.map_const'], rfl⟩
    | construct =>
      obtain ⟨args, rfl, hlength⟩ := eq_map_expr _ h
      rw [fill_construct]
      exact ⟨by simp_all [outline, Expr.outline, Expr.parts, List.map_const'], rfl⟩
    | literal | parameter | field =>
      obtain ⟨args, rfl, hlength⟩ := eq_map_expr _ h
      obtain rfl := List.length_eq_zero_iff.mp hlength
      exact ⟨rfl, rfl⟩
    | member | unary | document =>
      obtain ⟨args, rfl, hlength⟩ := eq_map_expr _ h
      obtain ⟨part, rfl⟩ := List.length_eq_one_iff.mp hlength
      exact ⟨rfl, rfl⟩
    | binary =>
      obtain ⟨args, rfl, hlength⟩ := eq_map_expr _ h
      obtain ⟨left, right, rfl⟩ := List.length_eq_two.mp hlength
      exact ⟨rfl, rfl⟩
    | conditional =>
      obtain ⟨args, rfl, hlength⟩ := eq_map_expr _ h
      obtain ⟨test, ifTrue, ifFalse, rfl⟩ := List.length_eq_three.mp hlength
      exact ⟨rfl, rfl⟩

@[simp] theorem fill_children (n : Node) : n.fill n.children = n := by
  obtain ⟨ho, hc⟩ := outline_children_fill (n := n) rfl
  exact eq_of_outline_of_children ho hc

/-- The expressions in the tree, in the order of `Expr.nodes`. -/
def exprs : Node → List Expr
  | expr e => e.nodes
  | lambda fn => fn.body.nodes

theorem exprs_eq (n : Node) : n.exprs = n.expr?.toList ++ n.children.flatMap exprs := by
  cases n with
  | lambda fn => simp [exprs, expr?, children]
  | expr e =>
    rw [exprs, Expr.nodes_eq]
    cases e with
    | accumulate fn source selector => cases selector <;> simp [expr?, children, exprs, Expr.parts]
    | _ => simp [expr?, children, exprs, Expr.parts, List.flatMap_map]

def reach? : List Nat → Node → Option Node
  | [], n => some n
  | i :: address, n => n.children[i]?.bind (reach? address)

/-- At each address the two trees both have no node or have nodes of which `f` and `g` say the
same. -/
def Mirrors {α : Type} (f g : Node → α) (m n : Node) : Prop :=
  ∀ address, (reach? address m).map f = (reach? address n).map g

section Mirrors

variable {α : Type} {f g : Node → α} {m n : Node}

theorem Mirrors.of_children (h : f m = g n)
    (hc : List.Forall₂ (Mirrors f g) m.children n.children) : Mirrors f g m n := by
  intro address
  cases address with
  | nil => exact congrArg some h
  | cons i address =>
    simp only [reach?]
    generalize m.children = ms, n.children = ns at hc
    induction hc generalizing i with
    | nil => rfl
    | cons hd _ ih =>
      cases i with
      | zero => exact hd address
      | succ i => exact ih i

theorem Mirrors.trans {h : Node → α} {o : Node} (hm : Mirrors f g m n) (hn : Mirrors g h n o) :
    Mirrors f h m o :=
  fun address => (hm address).trans (hn address)

theorem Mirrors.map {β : Type} (k : α → β) (h : Mirrors f g m n) :
    Mirrors (fun c => k (f c)) (fun c => k (g c)) m n := by
  intro address
  simpa [Function.comp_def] using congrArg (Option.map k) (h address)

theorem Mirrors.congr_left {f' : Node → α} (h : Mirrors f g m n)
    (hf : ∀ address c, reach? address m = some c → f' c = f c) : Mirrors f' g m n := by
  intro address
  rw [← h address]
  exact Option.map_congr fun c hc => hf address c hc

theorem Mirrors.child (h : Mirrors f g m n) (i : Nat) {c : Node} (hc : m.children[i]? = some c) :
    ∃ d, n.children[i]? = some d ∧ Mirrors f g c d := by
  have hd : (n.children[i]?).isSome = true := by
    simpa [reach?, hc, Function.comp_def] using congrArg Option.isSome (h [i]).symm
  obtain ⟨d, hd⟩ := Option.isSome_iff_exists.mp hd
  refine ⟨d, hd, fun address => ?_⟩
  simpa [reach?, hc, hd] using h (i :: address)

/-- A tree is known by the outlines of its nodes. -/
theorem Mirrors.eq (h : Mirrors outline outline m n) : m = n := by
  induction m using induct_children generalizing n with
  | step m ih =>
    refine eq_of_outline_of_children (Option.some.inj (h [])) (List.ext_getElem? fun i => ?_)
    cases hc : m.children[i]? with
    | some c =>
      obtain ⟨d, hd, hcd⟩ := h.child i hc
      rw [hd, ih c (List.mem_of_getElem? hc) hcd]
    | none => simpa [reach?, hc] using (h [i]).symm

end Mirrors

/-- These are all nodes that are reached, each from one address and in the order of the
addresses. -/
def Lists (reached : List Nat → Option Node) (trace : List Node) : Prop :=
  ∃ addresses : List (List Nat), addresses.Pairwise (· < ·) ∧
    (∀ address, address ∈ addresses ↔ (reached address).isSome = true) ∧
    addresses.map reached = trace.map some

/-- All nodes of the tree, each exactly once, before its children and with the children from left to
right. -/
def Enumerates (n : Node) (trace : List Node) : Prop := Lists (reach? · n) trace

theorem Enumerates.mem {n m : Node} {trace : List Node} (h : n.Enumerates trace)
    {address : List Nat} (hm : reach? address n = some m) : m ∈ trace := by
  obtain ⟨addresses, -, hall, htrace⟩ := h
  have hmem : some m ∈ trace.map some := by
    rw [← htrace, ← hm]
    exact List.mem_map_of_mem ((hall address).mpr (by simp [hm]))
  simpa using hmem

/-- The node at an address below one of these, whose number comes first. -/
def reachAmong? (cs : List Node) : List Nat → Option Node
  | [] => none
  | i :: address => cs[i]?.bind (reach? address)

private theorem eq_cons_of_reachAmong? {cs : List Node} {address : List Nat}
    (h : (reachAmong? cs address).isSome = true) : ∃ i rest, address = i :: rest := by
  cases address with
  | nil => simp [reachAmong?] at h
  | cons i rest => exact ⟨i, rest, rfl⟩

/-- The address below the same nodes behind one more. -/
private def behind : List Nat → List Nat
  | [] => []
  | i :: address => (i + 1) :: address

private theorem reachAmong?_behind (c : Node) (cs : List Node) (address : List Nat) :
    reachAmong? (c :: cs) (behind address) = reachAmong? cs address := by
  cases address <;> simp [reachAmong?, behind]

private theorem lists_nil : Lists (reachAmong? []) [] := by
  refine ⟨[], .nil, fun address => ?_, rfl⟩
  cases address <;> simp [reachAmong?]

private theorem lists_cons {c : Node} {cs trace traces : List Node} (hc : c.Enumerates trace)
    (hcs : Lists (reachAmong? cs) traces) : Lists (reachAmong? (c :: cs)) (trace ++ traces) := by
  obtain ⟨addresses, hsorted, hall, htrace⟩ := hc
  obtain ⟨later, hsorted', hall', htrace'⟩ := hcs
  refine ⟨addresses.map (0 :: ·) ++ later.map behind, ?_, fun address => ?_, ?_⟩
  · refine List.pairwise_append.mpr ⟨?_, ?_, ?_⟩
    · exact List.pairwise_map.mpr (hsorted.imp List.cons_lt_cons_self.mpr)
    · refine List.pairwise_map.mpr (hsorted'.imp_of_mem ?_)
      intro a b ha hb h
      obtain ⟨i, a, rfl⟩ := eq_cons_of_reachAmong? ((hall' a).mp ha)
      obtain ⟨j, b, rfl⟩ := eq_cons_of_reachAmong? ((hall' b).mp hb)
      simpa [behind, List.cons_lt_cons_iff] using h
    · intro a ha b hb
      obtain ⟨a, -, rfl⟩ := List.mem_map.mp ha
      obtain ⟨b, hlast, rfl⟩ := List.mem_map.mp hb
      obtain ⟨j, b, rfl⟩ := eq_cons_of_reachAmong? ((hall' b).mp hlast)
      simp [behind, List.cons_lt_cons_iff]
  · rw [List.mem_append, List.mem_map, List.mem_map]
    constructor
    · rintro (⟨a, ha, rfl⟩ | ⟨a, ha, rfl⟩)
      · exact (hall a).mp ha
      · rw [reachAmong?_behind]
        exact (hall' a).mp ha
    · intro h
      rcases address with _ | ⟨_ | i, a⟩
      · simp [reachAmong?] at h
      · exact .inl ⟨a, (hall a).mpr h, rfl⟩
      · exact .inr ⟨i :: a, (hall' _).mpr h, rfl⟩
  · rw [List.map_append, List.map_append, List.map_map, List.map_map, ← htrace, ← htrace']
    congr 1
    exact List.map_congr_left fun a _ => reachAmong?_behind c cs a

/-- A node followed by the enumerations of its children enumerates its tree. -/
theorem Enumerates.of_children {n : Node} {traces : Node → List Node}
    (h : ∀ c ∈ n.children, c.Enumerates (traces c)) :
    n.Enumerates (n :: n.children.flatMap traces) := by
  have hbelow : Lists (reachAmong? n.children) (n.children.flatMap traces) := by
    generalize n.children = cs at h
    induction cs with
    | nil => exact lists_nil
    | cons c cs ih =>
      obtain ⟨hc, hcs⟩ := List.forall_mem_cons.mp h
      exact lists_cons hc (ih hcs)
  obtain ⟨addresses, hsorted, hall, htrace⟩ := hbelow
  refine ⟨[] :: addresses, List.pairwise_cons.mpr ⟨?_, hsorted⟩, fun address => ?_, ?_⟩
  · intro address h
    obtain ⟨i, rest, rfl⟩ := eq_cons_of_reachAmong? ((hall address).mp h)
    exact List.nil_lt_cons i rest
  · cases address with
    | nil => simp [reach?]
    | cons i rest => simpa [reach?, reachAmong?] using hall (i :: rest)
  · rw [List.map_cons, List.map_cons, ← htrace]
    congr 1
    refine List.map_congr_left fun address h => ?_
    obtain ⟨i, rest, rfl⟩ := eq_cons_of_reachAmong? ((hall address).mp h)
    rfl

end Node

end QueryStage
