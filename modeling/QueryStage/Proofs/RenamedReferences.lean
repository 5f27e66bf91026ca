import QueryStage.Proofs.CapturedVariables
import QueryStage.Proofs.RelatedLowering

/-!
# References to a renamed variable

Two values differ by the name of a loop variable if they are the same but for some loops, and there
the loop variable and the references to it have the one name in the first value and the other in the
second. A loop inside that has the second name itself hides the variable, and what it holds is the
same in both. Paths are related accordingly, and loops that move them keep them related.
-/

namespace QueryStage

/-- The same path below the variable `w` in one place and below `v` in the other, or a path that is
below neither. -/
inductive Path.Renamed (w v : String) : Path → Path → Prop
  | below (rest : List String) : Renamed w v ⟨("$" ++ w) :: rest⟩ ⟨("$" ++ v) :: rest⟩
  | other {p : Path} (start : p.segments ≠ []) (hw : ¬ p.AtVariable w) (hv : ¬ p.AtVariable v) :
    Renamed w v p p

/-- How references inside a renamed loop are related. A loop over `v` in it hides the variable, and
there the paths are the same. -/
def Path.Seen (w v : String) : Bool → Path → Path → Prop
  | false, p, q => Path.Renamed w v p q
  | true, p, q => p = q ∧ ¬ p.AtVariable w

namespace Bson

/-- The same value, with its references to fields and variables related. In some loops what is
emitted for the body is related otherwise. -/
inductive Agrees (R : Path → Path → Prop) (H : String → Bson → Bson → Prop) : Bson → Bson → Prop
  | reference {p q : Path} (h : R p q) : Agrees R H (string p.reference) (string q.reference)
  | current : Agrees R H (string "$$ROOT") (string "$$ROOT")
  | literal {value : Literal} {ty : Ty} {b : Bson} (h : value.lower ty = .ok b) : Agrees R H b b
  | array {as bs : List Bson} (h : List.Forall₂ (Agrees R H) as bs) :
    Agrees R H (array as) (array bs)
  | document {as bs : Entries Bson} (h : as.Rel (Agrees R H) bs) :
    Agrees R H (document as) (document bs)
  | loop (kind : LoopKind) (binder : String) {a b c d : Bson} (hinput : Agrees R H a b)
    (hbody : Agrees R H c d) : Agrees R H (kind.emit binder a c) (kind.emit binder b d)
  | hidden (kind : LoopKind) (binder : String) {a b c d : Bson} (hinput : Agrees R H a b)
    (hbody : H binder c d) : Agrees R H (kind.emit binder a c) (kind.emit binder b d)

/-- What is emitted where a loop over `v` hides the variable: it is the same on both sides and does
not refer to `w`. -/
def Hidden (w v : String) : Bson → Bson → Prop := Agrees (Path.Seen w v true) fun _ _ _ => False

/-- What is emitted inside a loop whose variable is `w` in the one value and `v` in the other. -/
def Inside (w v : String) : Bool → Bson → Bson → Prop
  | true => Hidden w v
  | false => Agrees (Path.Seen w v false) fun x a b => x = v ∧ Hidden w v a b

/-- The same value but for loops and selectors in it whose variable is `w` in the one and `v` in the
other, where all references to the variable are renamed with it. -/
inductive Renamed (w v : String) : Bson → Bson → Prop
  | same (b : Bson) : Renamed w v b b
  | array {as bs : List Bson} (h : List.Forall₂ (Renamed w v) as bs) :
    Renamed w v (array as) (array bs)
  | document {as bs : Entries Bson} (h : as.Rel (Renamed w v) bs) :
    Renamed w v (document as) (document bs)
  | loop (kind : LoopKind) {a b c d : Bson} (hinput : Renamed w v a b)
    (hbody : Inside w v false c d) : Renamed w v (kind.emit w a c) (kind.emit v b d)
  | selector (fn : AccumulatorFn) {a b : Bson} (h : Inside w v false a b) :
    Renamed w v (apply fn.operator a) (apply fn.operator b)

theorem chained?_literal {value : Literal} {ty : Ty} {b : Bson} (h : value.lower ty = .ok b)
    (operator : String) : b.chained? operator = none ∧ b.items? = none := by
  cases value with
  | string s =>
    rw [Literal.lower, Except.ok.injEq] at h
    subst h
    split <;> simp [apply, chained?, items?]
  | _ => cases h <;> exact ⟨rfl, rfl⟩

section

variable {R : Path → Path → Prop} {H : String → Bson → Bson → Prop}

theorem Agrees.items? {a b : Bson} (h : Agrees R H a b) :
    Option.Rel (List.Forall₂ (Agrees R H)) a.items? b.items? := by
  cases h with
  | literal h =>
    rw [(chained?_literal h "").2]
    exact .none
  | array h => exact .some h
  | loop kind => cases kind <;> exact .none
  | hidden kind => cases kind <;> exact .none
  | _ => exact .none

end

variable {w v : String} {hidden : Bool}

theorem inside_reference {p q : Path} (h : Path.Seen w v hidden p q) :
    Inside w v hidden (string p.reference) (string q.reference) := by
  cases hidden with
  | true => exact Agrees.reference h
  | false => exact Agrees.reference h

theorem Renamed.refl_list (bs : List Bson) : List.Forall₂ (Renamed w v) bs bs :=
  List.forall₂_same.mpr fun b _ => .same b

theorem Renamed.items? {a b : Bson} (h : Renamed w v a b) :
    Option.Rel (List.Forall₂ (Renamed w v)) a.items? b.items? := by
  cases h with
  | same =>
    cases a with
    | array items => exact .some (refl_list items)
    | _ => exact .none
  | array h => exact .some h
  | loop kind => cases kind <;> exact .none
  | _ => exact .none

end Bson

namespace Path

variable {w v : String} {p q s t : Path}

theorem renamed_loopVariable {x : String} (hw : x ≠ w) (hv : x ≠ v) :
    Renamed w v (loopVariable x) (loopVariable x) :=
  .other (by simp [loopVariable]) (fun h => hw (atVariable_loopVariable.mp h).symm)
    fun h => hv (atVariable_loopVariable.mp h).symm

theorem renamed_of_ne {x : String} (hv : x ≠ v) :
    Renamed w v (loopVariable x) (loopVariable (replacing w v x)) := by
  by_cases hw : x = w
  · rw [hw, replacing_self]
    exact .below []
  · rw [replacing_of_ne hw]
    exact renamed_loopVariable hw hv

namespace Renamed

theorem append (h : Renamed w v p q) (rest : List String) :
    Renamed w v ⟨p.segments ++ rest⟩ ⟨q.segments ++ rest⟩ := by
  cases h with
  | below path => exact .below (path ++ rest)
  | other start hw hv =>
    have hhead : (p.segments ++ rest).head? = p.segments.head? :=
      List.head?_append_of_ne_nil _ start
    refine .other (by simp [start]) ?_ ?_
    · rwa [AtVariable, hhead]
    · rwa [AtVariable, hhead]

theorem startsWith (h : Renamed w v p q) (hroot : Renamed w v s t) :
    (∃ rest, p = ⟨s.segments ++ rest⟩ ∧ q = ⟨t.segments ++ rest⟩) ∨
      p.startsWith s = false ∧ q.startsWith t = false := by
  -- A path at a variable and one that is not at it have no start in common.
  have apart {x : String} {root : Path} (start : root.segments ≠ []) (hx : ¬ root.AtVariable x)
      (path : List String) : Path.startsWith ⟨("$" ++ x) :: path⟩ root = false := by
    rw [Bool.eq_false_iff, Ne, startsWith_iff]
    rintro ⟨rest, hrest⟩
    refine hx ?_
    rw [AtVariable, ← List.head?_append_of_ne_nil _ start, ← hrest, List.head?_cons]
  have apart' {x : String} {path : Path} (hx : ¬ path.AtVariable x) (root : List String) :
      path.startsWith ⟨("$" ++ x) :: root⟩ = false := by
    rw [Bool.eq_false_iff, Ne, startsWith_iff]
    rintro ⟨rest, hrest⟩
    refine hx ?_
    rw [AtVariable, hrest, List.cons_append, List.head?_cons]
  cases h with
  | below path =>
    cases hroot with
    | other start hw hv => exact .inr ⟨apart start hw path, apart start hv path⟩
    | below root =>
      cases hprefix : root.isPrefixOf path with
      | true =>
        obtain ⟨rest, rfl⟩ := List.isPrefixOf_iff_prefix.mp hprefix
        exact .inl ⟨rest, rfl, rfl⟩
      | false => exact .inr ⟨by simpa [Path.startsWith], by simpa [Path.startsWith]⟩
  | other start hw hv =>
    cases hroot with
    | below root => exact .inr ⟨apart' hw root, apart' hv root⟩
    | other =>
      cases hstarts : p.startsWith s with
      | false => exact .inr ⟨rfl, rfl⟩
      | true =>
        obtain ⟨rest, hrest⟩ := (startsWith_iff p s).mp hstarts
        have hp : p = ⟨s.segments ++ rest⟩ := by rw [← hrest]
        exact .inl ⟨rest, hp, hp⟩

theorem reroot (h : Renamed w v p q) (hroot : Renamed w v s t) {new new' : Path}
    (hnew : Renamed w v new new') : Renamed w v (Path.reroot s new p) (Path.reroot t new' q) := by
  rcases h.startsWith hroot with ⟨rest, rfl, rfl⟩ | ⟨hp, hq⟩
  · rw [reroot_append, reroot_append]
    exact hnew.append rest
  · rw [reroot_of_not_startsWith hp, reroot_of_not_startsWith hq]
    exact h

theorem child (h : Renamed w v p q) (name : String) :
    Renamed w v (p.child name) (q.child name) :=
  h.append [name]

end Renamed

end Path

/-- Where a path is in the other expression, in which the variable `w` is called `v`. What is below
the variable `v` already stays there. -/
def Path.Moved (w v : String) (p q : Path) : Prop := Path.Renamed w v p q ∨ p = q ∧ p.AtVariable v

/-- The parameter `w` is called `v` in the other expression, and so is its variable. -/
def Relocation.ofNames (w v : String) (closed : List String) : Relocation where
  place := Path.Moved w v
  name := replacing w v
  closed := closed

namespace Relocation

variable {w v : String} {closed : List String}

theorem name_ofNames : (ofNames w v closed).name = replacing w v := rfl

theorem steady_ofNames (w v : String) (closed : List String) : (ofNames w v closed).Steady where
  child := by
    rintro p q name (h | ⟨rfl, h⟩)
    · exact .inl (h.child name)
    · refine .inr ⟨rfl, ?_⟩
      rwa [Path.AtVariable, Path.head?_child (by rintro hp; simp [Path.AtVariable, hp] at h)]
  loopVariable x := by
    by_cases hv : x = v
    · subst hv
      by_cases hw : x = w
      · rw [name_ofNames, hw, replacing_self]
        exact .inr ⟨rfl, Path.atVariable_loopVariable.mpr rfl⟩
      · rw [name_ofNames, replacing_of_ne hw]
        exact .inr ⟨rfl, Path.atVariable_loopVariable.mpr rfl⟩
    · exact .inl (Path.renamed_of_ne hv)

theorem keepsItem_ofNames (h : w ≠ "item") : (ofNames w v closed).KeepsItem := by
  have hitem := (steady_ofNames w v closed).loopVariable "item"
  rwa [name_ofNames, replacing_of_ne h.symm] at hitem

end Relocation

/-- Two places that differ by the name of the parameter, where these names are declared. -/
structure Path.Placed (w v : String) (outer : List String) (p q : Path) : Prop where
  place : Path.Moved w v p q
  within : p.Within v w outer

namespace Path.Moved

variable {w v : String} {p q : Path}

theorem eq (h : Path.Moved w v p q) (hw : ¬ p.AtVariable w) : p = q := by
  rcases h with hrenamed | ⟨rfl, -⟩
  · cases hrenamed with
    | below rest => exact absurd rfl hw
    | other => rfl
  · rfl

theorem renamed (h : Path.Moved w v p q) (hv : ¬ p.AtVariable v) : Renamed w v p q := by
  rcases h with hrenamed | ⟨rfl, hat⟩
  · exact hrenamed
  · exact absurd hat hv

end Path.Moved

theorem Path.AtVariable.unique {x y : String} {p : Path} (hx : p.AtVariable x)
    (hy : p.AtVariable y) : x = y := by
  rw [AtVariable, hx, Option.some.injEq] at hy
  simpa using hy

/-- A map of paths outside the loops over `w`: it leads none to that variable, and it keeps renamed
paths renamed where no `v` is declared. -/
structure Path.Steers (w v : String) (outer : List String) (f : Path → Path) : Prop where
  start : ∀ p, p.segments ≠ [] → (f p).segments ≠ []
  atVariable : ∀ p, (f p).AtVariable w → p.AtVariable w
  renamed : v ∉ outer → ∀ p q, Path.Renamed w v p q → Path.Renamed w v (f p) (f q)

namespace Path.Placed

variable {w v : String} {outer : List String} {p q : Path}

theorem eq (h : Placed w v outer p q) (hw : w ∉ outer) : p = q :=
  h.place.eq fun hat => hw (h.within.declared w (by simp) hat)

theorem renamed (h : Placed w v outer p q) (hv : v ∉ outer) : Renamed w v p q :=
  h.place.renamed fun hat => hv (h.within.declared v (by simp) hat)

end Path.Placed

namespace Path.Steers

variable {w v : String} {outer : List String} {f : Path → Path} {p q s : Path}

theorem mono (hf : Steers w v outer f) (params : List String) : Steers w v (params ++ outer) f :=
  ⟨hf.start, hf.atVariable, fun hv => hf.renamed fun h => hv (List.mem_append_right _ h)⟩

theorem loop (hf : Steers w v outer f) (hs : Placed w v outer s s) {x : String} (hx : x ≠ w) :
    Steers w v (x :: outer) fun p => reroot (f s) (loopVariable x) (f p) where
  start p hp := by
    cases hstarts : (f p).startsWith (f s) with
    | true =>
      obtain ⟨rest, hrest⟩ := (startsWith_iff _ _).mp hstarts
      have hfp : f p = ⟨(f s).segments ++ rest⟩ := by rw [← hrest]
      simp [hfp, reroot_append, loopVariable]
    | false =>
      rw [reroot_of_not_startsWith hstarts]
      exact hf.start p hp
  atVariable p hp := by
    rcases atVariable_reroot hp with hp | rfl
    · exact hf.atVariable p hp
    · exact absurd rfl hx
  renamed hv p q hpq := by
    rw [List.mem_cons, not_or] at hv
    have hsource := hf.renamed hv.2 s s (hs.renamed hv.2)
    exact (hf.renamed hv.2 p q hpq).reroot hsource (renamed_loopVariable hx (Ne.symm hv.1))

end Path.Steers

/-- Inside a renamed loop, a loop over another variable keeps its paths renamed, and one over `v`
makes them the same. -/
theorem Path.Seen.loop {w v : String} {hidden : Bool} {p q s t : Path}
    (hpq : Path.Seen w v hidden p q) (hst : Path.Seen w v hidden s t) {x : String} (hx : x ≠ w)
    (hw : x = v → ¬ (reroot s (loopVariable x) p).AtVariable w) :
    Path.Seen w v (hidden || decide (x = v)) (reroot s (loopVariable x) p)
      (reroot t (loopVariable x) q) := by
  cases hidden with
  | true =>
    obtain ⟨rfl, hp⟩ := hpq
    obtain ⟨rfl, -⟩ := hst
    refine ⟨rfl, fun hat => ?_⟩
    rcases atVariable_reroot hat with hat | rfl
    · exact hp hat
    · exact hx rfl
  | false =>
    by_cases hxv : x = v
    · rw [decide_eq_true hxv]
      refine ⟨?_, hw hxv⟩
      have hat := hw hxv
      rcases Renamed.startsWith hpq hst with ⟨rest, rfl, rfl⟩ | ⟨hp, hq⟩
      · rw [reroot_append, reroot_append]
      · rw [reroot_of_not_startsWith hp] at hat ⊢
        rw [reroot_of_not_startsWith hq]
        exact Moved.eq (.inl hpq) hat
    · rw [decide_eq_false hxv]
      exact Renamed.reroot hpq hst (renamed_loopVariable hx hxv)

theorem Path.Seen.hide {w v : String} {hidden : Bool} {p q : Path} (h : Path.Seen w v hidden p q)
    {x : String} (hw : x = v → ¬ p.AtVariable w) :
    Path.Seen w v (hidden || decide (x = v)) p q := by
  cases hidden with
  | true => exact h
  | false =>
    by_cases hxv : x = v
    · rw [decide_eq_true hxv]
      exact ⟨Moved.eq (.inl h) (hw hxv), hw hxv⟩
    · rw [decide_eq_false hxv]
      exact h

end QueryStage
