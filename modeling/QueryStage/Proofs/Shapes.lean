import QueryStage.Proofs.BindingSteps
import QueryStage.Proofs.DistinctNames

/-!
# Shapes with any names

A construction may repeat a name. The lowered document and the members of the decoder then keep the
first place of the name and take the last argument, so both have the same keys in the same order and
the same argument under each.
-/

namespace QueryStage

namespace Entries

variable {α β : Type}

theorem keys_extend (base es : Entries α) :
    keys (extend base es) =
      keys base ++ ((keys es).filter fun key => key ∉ keys base).eraseDups := by
  induction es generalizing base with
  | nil => simp [extend, keys]
  | cons entry es ih =>
    obtain ⟨key, a⟩ := entry
    have hstep : extend base ((key, a) :: es) = extend (insert key a base) es := rfl
    have hkeys : keys ((key, a) :: es) = key :: keys es := rfl
    rw [hstep, ih, keys_insert, hkeys]
    by_cases hkey : key ∈ keys base
    · simp [hkey]
    · have hfilter : (keys es).filter (fun k => k ∉ keys base ++ [key]) =
          ((keys es).filter fun k => k ∉ keys base).filter fun k => !k == key := by
        rw [List.filter_filter]
        refine List.filter_congr fun k _ => ?_
        rw [Bool.eq_iff_iff]
        simp [and_comm]
      rw [if_neg hkey, List.filter_cons_of_pos (by simpa using hkey), List.eraseDups_cons,
        ← hfilter, List.append_assoc, List.singleton_append]

/-- A repeated key keeps its first place. -/
theorem keys_collect (es : Entries α) : keys (collect es) = (keys es).eraseDups := by
  have hkeys := keys_extend [] es
  have hnil : keys ([] : Entries α) = [] := rfl
  rw [collect, hkeys]
  simp [hnil]

theorem get?_append (as bs : Entries α) (key : String) :
    get? key (as ++ bs) = (get? key as).or (get? key bs) := by
  induction as with
  | nil => simp
  | cons entry as ih =>
    obtain ⟨k, a⟩ := entry
    by_cases hk : k = key
    · simp [get?, hk]
    · simp [get?, hk, ih]

theorem get?_extend (base es : Entries α) (key : String) :
    get? key (extend base es) = (get? key es.reverse).or (get? key base) := by
  induction es generalizing base with
  | nil => rfl
  | cons entry es ih =>
    obtain ⟨k, a⟩ := entry
    have hstep : extend base ((k, a) :: es) = extend (insert k a base) es := rfl
    rw [hstep, ih, get?_insert, List.reverse_cons, get?_append, Option.or_assoc]
    by_cases hk : k = key
    · simp [get?, hk]
    · simp [get?, hk]

/-- A repeated key takes its last value. -/
theorem get?_collect (es : Entries α) (key : String) :
    get? key (collect es) = get? key es.reverse := by
  rw [collect, get?_extend, get?_nil, Option.or_none]

section Map

variable (f : String → α → β)

def mapValues (es : Entries α) : Entries β := es.map fun e => (e.1, f e.1 e.2)

@[simp] theorem keys_mapValues (es : Entries α) : keys (es.mapValues f) = keys es := by
  simp [keys, mapValues]

theorem get?_mapValues (es : Entries α) (key : String) :
    get? key (es.mapValues f) = (get? key es).map (f key) := by
  induction es with
  | nil => rfl
  | cons entry es ih =>
    obtain ⟨k, a⟩ := entry
    by_cases hk : k = key
    · simp [mapValues, get?, hk]
    · simpa [mapValues, get?, hk] using ih

theorem insert_mapValues (es : Entries α) (key : String) (a : α) :
    insert key (f key a) (es.mapValues f) = (insert key a es).mapValues f := by
  induction es with
  | nil => rfl
  | cons entry es ih =>
    obtain ⟨k, x⟩ := entry
    by_cases hk : k = key
    · simp [mapValues, insert, hk]
    · simpa [mapValues, insert, hk] using ih

theorem extend_mapValues (base es : Entries α) :
    extend (base.mapValues f) (es.mapValues f) = (extend base es).mapValues f := by
  induction es generalizing base with
  | nil => rfl
  | cons entry es ih =>
    obtain ⟨key, a⟩ := entry
    have hinsert := insert_mapValues f base key a
    have hstep := ih (insert key a base)
    rw [← hinsert] at hstep
    exact hstep

theorem collect_mapValues (es : Entries α) :
    collect (es.mapValues f) = (collect es).mapValues f :=
  extend_mapValues f [] es

end Map

end Entries

theorem rel_cases {α β : Type} {R : α → β → Prop} {x : Option α} {y : Option β}
    (h : Option.Rel R x y) : x = none ∧ y = none ∨ ∃ a b, x = some a ∧ y = some b ∧ R a b := by
  cases h with
  | none => exact .inl ⟨rfl, rfl⟩
  | some h => exact .inr ⟨_, _, rfl, rfl, h⟩

theorem rel_refl {α : Type} {R : α → α → Prop} (h : ∀ a, R a a) (x : Option α) :
    Option.Rel R x x := by
  cases x with
  | none => exact .none
  | some a => exact .some (h a)

theorem exists_of_rel_some {α β : Type} {R : α → β → Prop} {a : α} {found : Option β}
    (h : Option.Rel R (some a) found) : ∃ b, found = some b ∧ R a b := by
  cases h with
  | some h => exact ⟨_, rfl, h⟩

theorem mapM_zip_cases {ε α : Type} {f : String × Except ε α → Except ε (String × α)}
    (hf : ∀ name x y, f (name, x) = .ok y → ∃ a, x = .ok a ∧ y = (name, a)) (names : List String)
    {xs : List (Except ε α)} (hlength : names.length = xs.length) {ys : List (String × α)}
    (h : (names.zip xs).mapM f = .ok ys) :
    ∃ as, List.Forall₂ (fun x a => x = .ok a) xs as ∧ ys = names.zip as := by
  rw [mapM_eq_ok_iff] at h
  induction names generalizing xs ys with
  | nil =>
    cases xs with
    | nil => cases h; exact ⟨[], .nil, rfl⟩
    | cons x xs => cases hlength
  | cons name names ih =>
    cases xs with
    | nil => cases hlength
    | cons x xs =>
      cases h with
      | cons hy hys =>
        obtain ⟨a, hx, rfl⟩ := hf name x _ hy
        obtain ⟨as, has, rfl⟩ := ih (Nat.succ.inj hlength) hys
        exact ⟨a :: as, .cons hx has, rfl⟩

theorem shapeOf_cases {ty : Ty} {parameters : List String} {args : List Lowered}
    {shape : Entries Bson} (h : shapeOf ty parameters args = .ok shape) :
    ∃ xs, List.Forall₂ (fun arg x => arg = .ok x) args xs ∧ parameters.length = xs.length ∧
      shape = Entries.collect (parameters.zip xs) := by
  unfold shapeOf at h
  split at h
  · cases h
  · rename_i hlength
    have hlength := not_not.mp hlength
    obtain ⟨fields, hfields, h⟩ := bind_eq_ok_iff.mp h
    obtain ⟨xs, hxs, rfl⟩ := mapM_zip_cases (fun name x y hy => by
      obtain ⟨a, ha, hy⟩ := bind_eq_ok_iff.mp hy
      cases hy
      exact ⟨a, ha, rfl⟩) parameters hlength hfields
    cases h
    exact ⟨xs, hxs, hlength.trans hxs.length_eq, rfl⟩

/-- The members that parameters declare, each read from the element of its own name. -/
def Decoder.declared (parameters : List String) (ds : List Decoder) : Entries MemberDecoder :=
  (Entries.collect (parameters.zip ds)).mapValues MemberDecoder.mk

theorem Decoder.build_declared (typeName : String) {parameters : List String} {ds : List Decoder}
    (hlength : parameters.length = ds.length) :
    ((parameters.zip ds).foldl ofConstruction.declare (DecoderBuilder.new typeName)).build =
      ⟨typeName, declared parameters ds, parameters⟩ := by
  have hnames : (parameters.zip ds).map Prod.fst = parameters := List.map_fst_zip (by omega)
  have hmembers : Entries.extend [] ((parameters.zip ds).map fun e =>
      (e.1, (⟨e.1, e.2⟩ : MemberDecoder))) = declared parameters ds :=
    Entries.collect_mapValues MemberDecoder.mk (parameters.zip ds)
  simp only [foldl_declare, DecoderBuilder.new, DecoderBuilder.build, hnames, List.nil_append,
    hmembers]
  cases parameters with
  | nil => rfl
  | cons => rfl

/-- The members of a construction are the decoders of its arguments, collected under its
parameters. -/
theorem Decoder.ofConstruction_eq_ok {ty : Ty} {parameters : List String}
    {members : Option (List String)} {args : List (Except Fault Decoder)} {d : Decoder}
    (h : ofConstruction ty parameters members args = .ok d) :
    ∃ ds, List.Forall₂ (fun arg d => arg = .ok d) args ds ∧ parameters.length = ds.length ∧
      d = .document ⟨constructedName ty, declared parameters ds, parameters⟩ := by
  unfold ofConstruction at h
  split at h
  · cases h
  · split at h
    · cases h
    · rename_i hlength
      have hlength := not_not.mp hlength
      obtain ⟨entries, hentries, h⟩ := bind_eq_ok_iff.mp h
      obtain ⟨ds, hds, rfl⟩ := mapM_zip_cases (fun name x y hy => by
        dsimp only at hy
        split at hy
        · obtain ⟨a, ha, hy⟩ := bind_eq_ok_iff.mp hy
          cases hy
          exact ⟨a, ha, rfl⟩
        · cases hy) parameters hlength hentries
      have hlengths := hlength.trans hds.length_eq
      cases h
      exact ⟨ds, hds, hlengths, by rw [build_declared _ hlengths]⟩

theorem Decoder.ofConstruction_map_ok {ty : Ty} {parameters members : List String}
    {ds : List Decoder} (hlength : parameters.length = ds.length)
    (hmembers : ∀ q ∈ parameters, q ∈ members) :
    ofConstruction ty parameters (some members) (ds.map .ok) =
      .ok (.document ⟨constructedName ty, declared parameters ds, parameters⟩) := by
  rw [ofConstruction, if_neg (by simp [hlength]), mapM_zip parameters ds, ok_bind, pure_eq_ok,
    build_declared _ hlength]
  intro q hq d
  simp only [List.contains_iff_mem.mpr (hmembers q hq), if_true]
  rfl

/-- A decoder that builds a document from these parameters: the constructor takes them in order, and
each is a member that is read from the element of its own name. -/
def Decoder.Constructs (parameters : List String) (d : Decoder) : Prop :=
  ∃ typeName members, d = .document ⟨typeName, members, parameters⟩ ∧
    Entries.keys members = parameters.eraseDups ∧ ∀ entry ∈ members, entry.2.element = entry.1

/-- An emitted document with these keys in order, each once. The one without keys is quoted. -/
def Bson.Shapes (parameters : List String) (b : Bson) : Prop :=
  (parameters = [] ∧ b = Bson.apply "$literal" (.document [])) ∨
    parameters ≠ [] ∧ ∃ fields, b = .document fields ∧
      Entries.keys fields = parameters.eraseDups

namespace Expr

variable {ds : Decoders} {unit : StringUnit} {paths : Path → Path} {ty : Ty}
  {parameters : List String} {args : List Expr} {members : Option (List String)} {d : Decoder}

theorem constructs_of_decoder (h : (construct ty parameters args members).decoder ds = .ok d) :
    d.Constructs parameters := by
  obtain ⟨inner, -, hlength, rfl⟩ := Decoder.ofConstruction_eq_ok h
  refine ⟨_, _, rfl, ?_, ?_⟩
  · rw [Decoder.declared, Entries.keys_mapValues, Entries.keys_collect, Entries.keys_zip hlength]
  · intro entry hentry
    obtain ⟨e, -, rfl⟩ := List.mem_map.mp hentry
    rfl

theorem member_of_decoder (h : (construct ty parameters args members).decoder ds = .ok d)
    {name : String} {a : Expr} (ha : Entries.get? name (parameters.zip args).reverse = some a) :
    ∃ m, d.member? name = some m ∧ a.decoder ds = .ok m.decoder := by
  obtain ⟨inner, hinner, -, rfl⟩ := Decoder.ofConstruction_eq_ok h
  rw [decoders_eq_map, List.forall₂_map_left_iff] at hinner
  have hrel := Entries.get?_rel name (List.rel_reverse (Entries.forall₂_zip parameters hinner))
  rw [ha] at hrel
  obtain ⟨d', hd', hdecoder⟩ := exists_of_rel_some hrel
  refine ⟨⟨name, d'⟩, ?_, hdecoder⟩
  change Entries.get? name (Decoder.declared parameters inner) = _
  rw [Decoder.declared, Entries.get?_mapValues, Entries.get?_collect, hd']
  rfl

theorem keys_of_shapeOf {xs : List Lowered} {shape : Entries Bson}
    (h : shapeOf ty parameters xs = .ok shape) : Entries.keys shape = parameters.eraseDups := by
  obtain ⟨xs, -, hlength, rfl⟩ := shapeOf_cases h
  rw [Entries.keys_collect, Entries.keys_zip hlength]

theorem field_of_shapeOf {shape : Entries Bson}
    (h : shapeOf ty parameters (args.map (lower unit paths)) = .ok shape) {name : String}
    {a : Expr} (ha : Entries.get? name (parameters.zip args).reverse = some a) :
    ∃ x, Entries.get? name shape = some x ∧ a.lower unit paths = .ok x := by
  obtain ⟨xs, hxs, -, rfl⟩ := shapeOf_cases h
  rw [List.forall₂_map_left_iff] at hxs
  have hrel := Entries.get?_rel name (List.rel_reverse (Entries.forall₂_zip parameters hxs))
  rw [ha] at hrel
  rw [Entries.get?_collect]
  exact exists_of_rel_some hrel

theorem lower_construct_cases {x : Bson}
    (h : (construct ty parameters args members).lower unit paths = .ok x) :
    ∃ shape, shapeOf ty parameters (args.map (lower unit paths)) = .ok shape ∧
      x = emitShape shape := by
  rw [lower, lowerEach_eq_map, bind_eq_ok_iff] at h
  obtain ⟨shape, hshape, h⟩ := h
  cases h
  exact ⟨shape, hshape, rfl⟩

end Expr

end QueryStage
