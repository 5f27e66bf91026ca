import QueryStage.Proofs.Orders
import QueryStage.Proofs.Relocation

/-!
# Hygiene of element loops

The items of a bound array are bound at the path of the array itself, and the loop over it moves
every path below the array to its loop variable. So the loop variable also stands for what other
variables read there. A reference comes from the parameter of the loop if it moves when the items
are bound elsewhere, and with that a loop is hygienic just when outside the loop the references of
its parameter, and no others, are at or below the array.
-/

namespace QueryStage

namespace Path

/-- The same place, or places that correspond below `old` and below `new`. -/
def Relocated (old new p q : Path) : Prop :=
  p = q ∨ ∃ rest, p.segments = old.segments ++ rest ∧ q.segments = new.segments ++ rest

theorem steady_relocated (old new : Path) : Steady (Relocated old new) where
  refl p := .inl rfl
  child := by
    rintro p q name (rfl | ⟨rest, hp, hq⟩)
    · exact .inl rfl
    · refine .inr ⟨rest ++ [name], ?_, ?_⟩
      · rw [segments_child, hp, List.append_assoc]
      · rw [segments_child, hq, List.append_assoc]

/-- What moves is what goes from below `old` to the corresponding place below `new`. -/
theorem Relocated.ne_iff {old new p q : Path} (hne : new ≠ old) (h : Relocated old new p q) :
    p ≠ q ↔ ∃ rest, p.segments = old.segments ++ rest ∧ q.segments = new.segments ++ rest := by
  constructor
  · intro hpq
    exact h.resolve_left hpq
  · rintro ⟨rest, hp, hq⟩ rfl
    have hsegments : old.segments = new.segments := List.append_cancel_right (hp.symm.trans hq)
    exact hne (by cases old; cases new; simp_all)

theorem startsWith_reroot {old new p : Path} (h : p.startsWith old = true) :
    (reroot old new p).startsWith new = true := by
  rw [reroot, replaceRoot, if_pos h, Option.getD_some]
  exact (startsWith_iff _ _).mpr ⟨_, rfl⟩

end Path

namespace Expr

def placedAt (path : Path) : Expr → Expr
  | field _ decoder ty => field path decoder ty
  | document inner (some _) decoder => document inner (some path) decoder
  | e => e

theorem placedAt_moved {source : Expr} {path : Path} (h : source.boundPath? = some path)
    (elsewhere : Path) :
    Moved (.ofPlaces (Path.Relocated path elsewhere)) source (source.placedAt elsewhere) := by
  have hR := Path.steady_relocated path elsewhere
  have hpath : Path.Relocated path elsewhere path elsewhere := .inr ⟨[], by simp, by simp⟩
  cases source with
  | field p decoder ty =>
    cases h
    exact .field decoder ty hpath
  | document inner p decoder =>
    cases h
    exact .document decoder (.refl hR inner) hpath
  | _ => cases h

/-- The bound paths of an expression, and whether each is another one in `there`, the same
expression bound with something at another place. -/
def origins (here there : Expr) : List (Path × Bool) :=
  List.zipWith (fun p q => (p, decide (p ≠ q))) here.boundPaths there.boundPaths

/-- The loop variable is read where the parameter occurs and nowhere else, and all that comes from
elsewhere is read as it is outside the loop. -/
def Hygienic (paths move : Path → Path) (v : Parameter) (refs : List (Path × Bool)) : Prop :=
  ∀ ref ∈ refs, (move ref.1).startsWith (Path.loopVariable v.name) = ref.2 ∧
    (ref.2 = false → move ref.1 = paths ref.1)

/-- Outside the loop the references of the parameter are at or below the source or already under
the name of the parameter, and no others are. -/
def Apart (paths : Path → Path) (source : Path) (v : Parameter) (refs : List (Path × Bool)) :
    Prop :=
  ∀ ref ∈ refs, ((paths ref.1).startsWith (paths source) ||
    (paths ref.1).startsWith (Path.loopVariable v.name)) = ref.2

instance (paths : Path → Path) (source : Path) (v : Parameter) (refs : List (Path × Bool)) :
    Decidable (Apart paths source v refs) :=
  inferInstanceAs (Decidable (∀ ref ∈ refs, _ = ref.2))

theorem hygienic_iff_apart (paths : Path → Path) (source : Path) (v : Parameter)
    (refs : List (Path × Bool)) :
    Hygienic paths (loopPaths paths (some (paths source)) [v]) v refs ↔
      Apart paths source v refs := by
  refine forall₂_congr fun ref _ => ?_
  simp only [loopPaths]
  cases h : (paths ref.1).startsWith (paths source) with
  | true =>
    rw [Path.startsWith_reroot h, Bool.true_or]
    constructor
    · exact fun hown => hown.1
    · intro hown
      exact ⟨hown, fun hother => absurd (hown.trans hother) (by decide)⟩
  | false =>
    rw [Path.reroot_of_not_startsWith h, Bool.false_or]
    exact ⟨fun hown => hown.1, fun hown => ⟨hown, fun _ => rfl⟩⟩

theorem enter_of_bind_loop {r : Decoders} {s : Scope} {method : String} {v : Parameter} {ty : Ty}
    {written b source body : Expr}
    (h : (sequenceCall method written [lambda ⟨[v], b⟩] ty).bind r s =
      .ok (sequenceCall method source [lambda ⟨[v], body⟩] ty)) :
    ∃ inner, s.enter r [v] (some source) = .ok inner ∧ b.bind r inner = .ok body := by
  obtain ⟨receiver, args, hreceiver, hargs, hacc | hcall⟩ := bind_call_cases h
  · cases kind_of_accumulator? hacc
  · cases hreceiver
    injection hcall with _ _ _ hcall
    subst hcall
    cases hargs with
    | cons hfirst hrest =>
      cases hrest with
      | cons heach _ =>
        cases heach with
        | operand hkind _ => exact absurd rfl hkind
        | each henter hbody => exact ⟨_, henter, hbody⟩

theorem mem_origins_self {e : Expr} {p : Path} (h : p ∈ e.boundPaths) :
    (p, false) ∈ origins e e := by
  unfold origins
  generalize e.boundPaths = ps at h ⊢
  induction ps with
  | nil => cases h
  | cons q qs ih =>
    rw [List.zipWith_cons_cons, List.mem_cons]
    rcases List.mem_cons.mp h with rfl | h
    · exact .inl (by simp)
    · exact .inr (ih h)

theorem head?_origins {path elsewhere p : Path} {here there : Expr}
    (h : Moved (.ofPlaces (Path.Relocated path elsewhere)) here there)
    (hp : here.boundPath? = some p) :
    ∃ own, (origins here there).head? = some (p, own) := by
  have hpaths := h.forall₂_boundPaths
  have hhead : here.boundPaths = p :: here.parts.flatMap boundPaths := by
    rw [boundPaths_eq, hp]
    rfl
  unfold origins
  rw [hhead] at hpaths ⊢
  obtain ⟨q, qs, -, -, hthere⟩ := List.forall₂_cons_left_iff.mp hpaths
  rw [hthere]
  exact ⟨_, rfl⟩

/-- A loop is left out for a body that selects something at or below the source. -/
theorem startsWith_of_selection? {paths : Path → Path} {source : Path} {body : Expr}
    (h : (selection? paths (some source) body).isSome = true) :
    ∃ p, body.boundPath? = some p ∧ (paths p).startsWith source = true := by
  cases body with
  | field p decoder ty =>
    refine ⟨p, rfl, ?_⟩
    by_contra hp
    simp [selection?, hp] at h
  | document inner path decoder =>
    cases path with
    | none => cases h
    | some p =>
      refine ⟨p, rfl, ?_⟩
      have hp : paths p = source := by
        by_contra hp
        simp [selection?, hp] at h
      exact hp ▸ (Path.startsWith_iff _ _).mpr ⟨[], by simp⟩
  | _ => cases h

/-- A loop over a bound source is hygienic just when references are apart outside it. A reference
comes from the parameter `v` if it moves when the items of the source are bound elsewhere. The
body is emitted with every bound path moved by the loop, and as outside if `v` does not occur. -/
theorem loop_hygienic_iff_apart (r : Decoders) (unit : StringUnit) (s : Scope)
    (paths : Path → Path) (method : String) (v : Parameter) (ty : Ty)
    (written b source body : Expr) (path elsewhere : Path)
    (hcall : (sequenceCall method written [lambda ⟨[v], b⟩] ty).bind r s =
      .ok (sequenceCall method source [lambda ⟨[v], body⟩] ty))
    (hsource : source.boundPath? = some path) (helsewhere : elsewhere ≠ path) :
    ∃ inner there loop,
      s.enter r [v] (some (source.placedAt elsewhere)) = .ok inner ∧
      b.bind r inner = .ok there ∧
      List.Forall₂ (fun p q => p ≠ q ↔ ∃ rest, p.segments = path.segments ++ rest ∧
        q.segments = elsewhere.segments ++ rest) body.boundPaths there.boundPaths ∧
      lowerLoop unit paths [source, lambda ⟨[v], body⟩] = some loop ∧
      loop.body = (body.mapPaths (loopPaths paths (some (paths path)) [v])).lower unit id ∧
      (Hygienic paths (loopPaths paths (some (paths path)) [v]) v (origins body there) ↔
        Apart paths path v (origins body there)) ∧
      (Apart paths path v (origins body there) → loop.selection.isSome = true →
        ∃ p, (origins body there).head? = some (p, true)) ∧
      (v.name ∉ b.free → there = body ∧ b.bind r s = .ok body ∧
        (Apart paths path v (origins body there) → loop.body = body.lower unit paths)) := by
  obtain ⟨bound, hbound, hbody⟩ := enter_of_bind_loop hcall
  have hR := Path.steady_relocated path elsewhere
  have hmoved := placedAt_moved hsource elsewhere
  obtain ⟨inner, hinner, hscope⟩ :=
    ((Scope.MovedOn.refl hR s _).enter hR r [v] (.some hmoved)).exists_ok hbound
  obtain ⟨there, hthere, hthere_moved⟩ := (bind_moved hR r b bound inner hscope).exists_ok hbody
  have hloop_body := lower_mapPaths unit (loopPaths paths (some (paths path)) [v]) body id
  refine ⟨inner, there, _, hinner, hthere, ?_, rfl, ?_, hygienic_iff_apart paths path v _, ?_, ?_⟩
  · exact hthere_moved.forall₂_boundPaths.imp fun _ _ h => h.ne_iff helsewhere
  · rw [hloop_body, hsource]
    rfl
  · intro hapart hselection
    rw [hsource] at hselection
    obtain ⟨p, hp, hbelow⟩ := startsWith_of_selection? hselection
    obtain ⟨own, hhead⟩ := head?_origins hthere_moved hp
    have hown := hapart (p, own) (List.mem_of_head? hhead)
    rw [hbelow, Bool.true_or] at hown
    exact ⟨p, hown ▸ hhead⟩
  · intro hfree
    have hagree {inner : Scope} {source : Expr} (h : s.enter r [v] (some source) = .ok inner) :
        b.bind r s = b.bind r inner := by
      refine bind_congr r (fun name hname => ?_) (Scope.group_of_enter h).symm
      exact (Scope.lookup_of_enter h fun heq => hfree (heq ▸ hname)).symm
    have hsame : there = body := by
      have h := (hagree hinner).symm.trans (hagree hbound)
      rw [hthere, hbody, Except.ok.injEq] at h
      exact h
    refine ⟨hsame, (hagree hbound).trans hbody, fun hapart => ?_⟩
    rw [hsame] at hapart
    have hygienic := (hygienic_iff_apart paths path v _).mpr hapart
    rw [hsource]
    refine lower_congr unit fun p hp => ?_
    exact (hygienic (p, false) (mem_origins_self hp)).2 rfl

end Expr

namespace Orders

open QueryStage.Expr

def itemsOf (name : String) : Expr :=
  access (parameter (ofOrder name)) "Items" (.array (.record "Item"))

def amountOf (name : String) : Expr := access (parameter (ofOrder name)) "Amount" .int32

def quantityOf (name : String) : Expr := access (parameter (ofItem name)) "Quantity" .int32

def largeItems : Expr :=
  sequenceCall "Where" (itemsOf "o")
    [lambda ⟨[ofItem "i"], binary .greaterThan (quantityOf "i") (amountOf "o") .boolean⟩]
    (.array (.record "Item"))

/-- The test reads the item where it mentions it, and the amount of the order as outside. -/
theorem hygienic_of_largeItems : ∃ body there,
    largeItems.bind registry (({} : Scope).bind "o" (Lambda.root (ofOrder "o") source)) =
        .ok (sequenceCall "Where" (field ⟨["items"]⟩ (.array (.document item))
          (.array (.record "Item"))) [lambda ⟨[ofItem "i"], body⟩] (.array (.record "Item"))) ∧
      origins body there = [(⟨["items", "qty"]⟩, true), (⟨["amount"]⟩, false)] ∧
      Hygienic id (loopPaths id (some ⟨["items"]⟩) [ofItem "i"]) (ofItem "i")
        (origins body there) := by
  obtain ⟨inner, there, loop, hinner, hthere, -, -, -, hygienic, -, -⟩ :=
    loop_hygienic_iff_apart registry .codePoints
      (({} : Scope).bind "o" (Lambda.root (ofOrder "o") source)) id "Where" (ofItem "i")
      (.array (.record "Item")) (itemsOf "o")
      (binary .greaterThan (quantityOf "i") (amountOf "o") .boolean)
      (field ⟨["items"]⟩ (.array (.document item)) (.array (.record "Item")))
      (binary .greaterThan (field ⟨["items", "qty"]⟩ (.value .int32) .int32)
        (field ⟨["amount"]⟩ (.value .int32) .int32) .boolean)
      ⟨["items"]⟩ (Path.loopVariable "i") rfl rfl (by decide)
  injection hinner with hinner
  subst hinner
  injection hthere with hthere
  subst hthere
  exact ⟨_, _, rfl, rfl, hygienic.mpr (by decide)⟩

def itemCount : Expr := sequenceCall "Count" (itemsOf "o") [] .int32

def itemCounts : Lambda where
  params := [ofOrder "o"]
  body := named (.record "Counts")
    [("Alone", itemCount),
      ("Each", sequenceCall "Select" (itemsOf "o") [lambda ⟨[ofItem "i"], itemCount⟩]
        (.array .int32))]

/-- Where it stands for each item, the number of items is emitted as the size of the item, although
the item does not occur in it. -/
theorem itemCount_captured : "i" ∉ itemCount.free ∧
    (Stage.ofProjector registry {} source itemCounts).map Stage.specification =
      .ok [("_id", .int32 0), ("Alone", Bson.apply "$size" (.string "$items")),
        ("Each", LoopKind.map.emit "i" (.string "$items")
          (Bson.apply "$size" (.string "$$i")))] :=
  ⟨by decide, rfl⟩

end Orders

end QueryStage
