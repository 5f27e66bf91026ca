import QueryStage.Proofs.Orders
import QueryStage.Proofs.Shapes
import QueryStage.Proofs.StageParts

/-!
# Readers of a construction

Three steps look up an argument of a construction by its name: binding, where a member of the
construction is accessed, lowering, for the field of that name, and the inference of decoders, for
the member of that name. Binding takes the first argument of the name and the other two take the
last one. So they read the same argument of every construction that gives a name once, and of no
construction that repeats it.
-/

namespace QueryStage

def firstPosition? (name : String) : List String → Option Nat
  | [] => none
  | n :: names => if n = name then some 0 else (firstPosition? name names).map (· + 1)

def lastPosition? (name : String) : List String → Option Nat
  | [] => none
  | n :: names =>
    ((lastPosition? name names).map (· + 1)).or (if n = name then some 0 else none)

theorem lastPosition?_eq_none_iff (name : String) (names : List String) :
    lastPosition? name names = none ↔ names.count name = 0 := by
  induction names with
  | nil => simp [lastPosition?]
  | cons n names ih =>
    by_cases hn : n = name
    · simp [lastPosition?, hn]
    · simp [lastPosition?, hn, ih]

theorem lt_length_of_lastPosition? {name : String} {names : List String} {i : Nat}
    (h : lastPosition? name names = some i) : i < names.length := by
  induction names generalizing i with
  | nil => cases h
  | cons n names ih =>
    rw [lastPosition?] at h
    cases hlast : lastPosition? name names with
    | none =>
      rw [hlast, Option.map_none, Option.none_or] at h
      split at h
      · cases h
        exact Nat.zero_lt_succ _
      · cases h
    | some j =>
      rw [hlast] at h
      cases h
      exact Nat.succ_lt_succ (ih hlast)

theorem firstPosition?_eq_lastPosition?_iff (name : String) (names : List String) :
    firstPosition? name names = lastPosition? name names ↔ names.count name ≤ 1 := by
  induction names with
  | nil => simp [firstPosition?, lastPosition?]
  | cons n names ih =>
    by_cases hn : n = name
    · have hnone := lastPosition?_eq_none_iff name names
      rw [firstPosition?, lastPosition?, if_pos hn, if_pos hn, hn, List.count_cons_self]
      cases hlast : lastPosition? name names with
      | none => simp [hnone.mp hlast]
      | some i =>
        have hcount : names.count name ≠ 0 := by simp [← hnone, hlast]
        simp [hcount]
    · have hinjective : Function.Injective (Option.map (· + 1) : Option Nat → Option Nat) :=
        Option.map_injective fun _ _ => Nat.succ.inj
      have hcount : (n :: names).count name = names.count name := List.count_cons_of_ne (by simpa)
      rw [firstPosition?, lastPosition?, if_neg hn, if_neg hn, Option.or_none, hcount, ← ih]
      exact hinjective.eq_iff

namespace Entries

variable {α : Type} (name : String)

theorem get?_zip (names : List String) (as : List α) :
    get? name (names.zip as) = (firstPosition? name names).bind (as[·]?) := by
  induction names generalizing as with
  | nil => rfl
  | cons n names ih =>
    cases as with
    | nil => cases firstPosition? name (n :: names) <;> rfl
    | cons a as =>
      by_cases hn : n = name
      · simp [firstPosition?, hn]
      · rw [List.zip_cons_cons, get?_cons_of_ne hn, ih, firstPosition?, if_neg hn, Option.bind_map]
        rfl

theorem get?_collect_zip {names : List String} {as : List α} (h : names.length = as.length) :
    get? name (collect (names.zip as)) = (lastPosition? name names).bind (as[·]?) := by
  rw [get?_collect]
  induction names generalizing as with
  | nil => rfl
  | cons n names ih =>
    cases as with
    | nil => cases h
    | cons a as =>
      rw [List.zip_cons_cons, List.reverse_cons, get?_append, ih (Nat.succ.inj h), lastPosition?]
      cases hlast : lastPosition? name names with
      | none => by_cases hn : n = name <;> simp [get?, hn]
      | some i =>
        have hi : i < as.length := Nat.succ.inj h ▸ lt_length_of_lastPosition? hlast
        simp [List.getElem?_eq_getElem hi]

end Entries

namespace Expr

variable {ds : Decoders} {s : Scope} {ty : Ty} {parameters members : List String}
  {args bound : List Expr}

theorem constructed?_eq (hmembers : ∀ p ∈ parameters, p ∈ members) (name : String) :
    constructed? name parameters bound (some members) =
      (firstPosition? name parameters).bind (bound[·]?) := by
  rw [← Entries.get?_zip, constructed?]
  split
  · rfl
  · rename_i hname
    have hparameter : name ∉ parameters :=
      fun hmem => hname (List.contains_iff_mem.mpr (hmembers name hmem))
    refine ((Entries.get?_eq_none_iff name _).mpr fun hkey => hparameter ?_).symm
    obtain ⟨entry, hentry, rfl⟩ := List.mem_map.mp hkey
    exact (List.of_mem_zip hentry).1

/-- Binding takes the first argument of a name. -/
theorem bind_member_of_construct
    (hbound : (construct ty parameters args (some members)).bind ds s =
      .ok (construct ty parameters bound (some members)))
    (hmembers : ∀ p ∈ parameters, p ∈ members) (name : String) (declaring ty' : Ty) :
    (member (construct ty parameters args (some members)) name declaring ty').bind ds s =
      .ok (((firstPosition? name parameters).bind (bound[·]?)).getD
        (member (construct ty parameters bound (some members)) name declaring ty')) := by
  have hgrouping : s.isGrouping (construct ty parameters args (some members)) = false :=
    Scope.isGrouping_of_kind (by simp [kind]) (by simp [kind])
  rw [bind, Scope.key?_of_isGrouping_eq_false hgrouping]
  simp only [hbound, ok_bind, bindMember, resolve?, constructed?_eq hmembers]
  cases (firstPosition? name parameters).bind (bound[·]?) with
  | none => rfl
  | some e => rfl

theorem resolve?_held (hmembers : ∀ p ∈ parameters, p ∈ members) (name : String)
    (path : Option Path) (d : Decoder) (ty' : Ty) :
    (document (construct ty parameters bound (some members)) path d).resolve? name ty' =
      ((firstPosition? name parameters).bind (bound[·]?)).or
        (resolve?.declared? name ty' path d) := by
  rw [resolve?, constructed?_eq hmembers]
  cases (firstPosition? name parameters).bind (bound[·]?) with
  | none => rfl
  | some e => rfl

/-- Lowering takes the last argument of a name. -/
theorem get?_shapeOf {unit : StringUnit} {paths : Path → Path} {xs : List Bson}
    (hlength : parameters.length = bound.length)
    (hxs : List.Forall₂ (fun e x => e.lower unit paths = .ok x) bound xs) (name : String) :
    ∃ shape, shapeOf ty parameters (bound.map (lower unit paths)) = .ok shape ∧
      Entries.get? name shape = (lastPosition? name parameters).bind (xs[·]?) := by
  have hlowered : bound.map (lower unit paths) = xs.map .ok := by
    rw [← List.forall₂_eq_eq_eq, List.forall₂_map_left_iff, List.forall₂_map_right_iff]
    exact hxs
  have hlengths := hlength.trans hxs.length_eq
  rw [hlowered, shapeOf_map_ok xs hlengths]
  exact ⟨_, rfl, Entries.get?_collect_zip name hlengths⟩

theorem member?_decoder {inner : List Decoder} (hlength : parameters.length = bound.length)
    (hmembers : ∀ p ∈ parameters, p ∈ members)
    (hinner : List.Forall₂ (fun e d => e.decoder ds = .ok d) bound inner) (name : String) :
    ∃ d, (construct ty parameters bound (some members)).decoder ds = .ok d ∧
      d.member? name =
        ((lastPosition? name parameters).bind (inner[·]?)).map (MemberDecoder.mk name) := by
  have hdecoders : decoders ds bound = inner.map .ok := by
    rw [decoders_eq_map, ← List.forall₂_eq_eq_eq, List.forall₂_map_left_iff,
      List.forall₂_map_right_iff]
    exact hinner
  have hlengths := hlength.trans hinner.length_eq
  rw [decoder, hdecoders, Decoder.ofConstruction_map_ok hlengths hmembers]
  refine ⟨_, rfl, ?_⟩
  rw [← Entries.get?_collect_zip name hlengths, ← Entries.get?_mapValues]
  rfl

/-- Of a construction whose parameters are all declared, a member access is bound to the first
argument of its name, also where the construction is held as the key of a group. The field and the
member of that name come from the last one. These are the same argument just when the name is given
once. -/
theorem readers_agree_iff (ds : Decoders) (s : Scope) (unit : StringUnit) (paths : Path → Path)
    (ty : Ty) (parameters members : List String) (args bound : List Expr) (name : String)
    (hlength : parameters.length = args.length) (hmembers : ∀ p ∈ parameters, p ∈ members)
    (hbound : (construct ty parameters args (some members)).bind ds s =
      .ok (construct ty parameters bound (some members))) :
    (∀ declaring ty',
      (member (construct ty parameters args (some members)) name declaring ty').bind ds s =
        .ok (((firstPosition? name parameters).bind (bound[·]?)).getD
          (member (construct ty parameters bound (some members)) name declaring ty'))) ∧
    (∀ path d ty',
      (document (construct ty parameters bound (some members)) path d).resolve? name ty' =
        ((firstPosition? name parameters).bind (bound[·]?)).or
          (resolve?.declared? name ty' path d)) ∧
    (∀ xs, List.Forall₂ (fun e x => e.lower unit paths = .ok x) bound xs →
      ∃ shape, shapeOf ty parameters (bound.map (lower unit paths)) = .ok shape ∧
        Entries.get? name shape = (lastPosition? name parameters).bind (xs[·]?)) ∧
    (∀ inner, List.Forall₂ (fun e d => e.decoder ds = .ok d) bound inner →
      ∃ d, (construct ty parameters bound (some members)).decoder ds = .ok d ∧
        d.member? name =
          ((lastPosition? name parameters).bind (inner[·]?)).map (MemberDecoder.mk name)) ∧
    (firstPosition? name parameters = lastPosition? name parameters ↔
      parameters.count name ≤ 1) := by
  obtain ⟨_, hargs, heq⟩ := bind_construct_cases hbound
  cases heq
  have hlengths := hlength.trans hargs.length_eq
  refine ⟨bind_member_of_construct hbound hmembers name, ?_, ?_, ?_,
    firstPosition?_eq_lastPosition?_iff name parameters⟩
  · exact resolve?_held hmembers name
  · exact fun xs hxs => get?_shapeOf hlengths hxs name
  · exact fun inner hinner => member?_decoder hlengths hmembers hinner name

end Expr

namespace Orders

open QueryStage.Expr

def amountAndExpress : Expr :=
  named (.record "Pair")
    [("A", access (parameter (ofOrder "o")) "Amount" .int32),
      ("A", access (parameter (ofOrder "o")) "Express" .boolean)]

def pairReadings : Lambda where
  params := [ofOrder "o"]
  body := named (.record "Readings")
    [("Whole", amountAndExpress), ("Read", access amountAndExpress "A" .boolean)]

/-- The member is the amount, and where the pair is emitted its member is whether the order is
express. -/
theorem pairReadings_differ :
    ∃ stage, Stage.ofProjector registry {} source pairReadings = .ok stage ∧
      stage.specification = [("_id", .int32 0), ("Whole", .document [("A", .string "$express")]),
        ("Read", .string "$amount")] ∧
      stage.decoder.member? "Read" = some ⟨"Read", .value .int32⟩ ∧
      (stage.decoder.member? "Whole").bind (·.decoder.member? "A") =
        some ⟨"A", .value .boolean⟩ :=
  ⟨_, rfl, rfl, rfl, rfl⟩

/-- The readers of the pair disagree on its one name. -/
theorem readers_of_amountAndExpress :
    (access amountAndExpress "A" .boolean).bind registry
        (Lambda.projectorScope (ofOrder "o") source) =
      .ok (field ⟨["amount"]⟩ (.value .int32) .int32) ∧
    (∃ shape, shapeOf (.record "Pair") ["A", "A"]
        [.ok (.string "$amount"), .ok (.string "$express")] = .ok shape ∧
      Entries.get? "A" shape = some (.string "$express")) ∧
    firstPosition? "A" ["A", "A"] ≠ lastPosition? "A" ["A", "A"] := by
  obtain ⟨hmember, -, hshape, -, hiff⟩ :=
    readers_agree_iff registry (Lambda.projectorScope (ofOrder "o") source) .bytes id
      (.record "Pair") ["A", "A"] ["A", "A"]
      [access (parameter (ofOrder "o")) "Amount" .int32,
        access (parameter (ofOrder "o")) "Express" .boolean]
      [field ⟨["amount"]⟩ (.value .int32) .int32, field ⟨["express"]⟩ (.value .boolean) .boolean]
      "A" rfl (by simp) rfl
  refine ⟨hmember _ _, hshape _ (.cons rfl (.cons rfl .nil)), ?_⟩
  rw [ne_eq, hiff]
  decide

end Orders

end QueryStage
