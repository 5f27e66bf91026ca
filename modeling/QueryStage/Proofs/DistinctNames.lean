import QueryStage.Decoder.Inference
import QueryStage.Lowering.Basic
import QueryStage.Proofs.Outcome

/-!
# Shapes with distinct names

Entries under distinct keys are found by their key and keep their order. So a construction with
distinct parameters is lowered to the document, and decoded by the members, that its parameters and
arguments spell out.
-/

namespace QueryStage

namespace Entries

variable {α : Type}

theorem get?_of_mem {es : Entries α} (h : (keys es).Nodup) {key : String} {a : α}
    (hm : (key, a) ∈ es) : get? key es = some a := by
  induction es with
  | nil => cases hm
  | cons e es ih =>
    obtain ⟨k, x⟩ := e
    have hnd : k ∉ keys es ∧ (keys es).Nodup := List.nodup_cons.mp h
    rcases List.mem_cons.mp hm with he | hm
    · cases he
      exact get?_cons_self _ _ _
    · have hk : k ≠ key := by
        rintro rfl
        exact hnd.1 (List.mem_map.mpr ⟨_, hm, rfl⟩)
      rw [get?_cons_of_ne hk]
      exact ih hnd.2 hm

private theorem insert_of_not_mem {es : Entries α} {key : String} (h : key ∉ keys es) (a : α) :
    insert key a es = es ++ [(key, a)] := by
  induction es with
  | nil => rfl
  | cons e es ih =>
    obtain ⟨k, x⟩ := e
    have hk : k ≠ key := fun hk => h (by simp [keys, hk])
    have hes : key ∉ keys es := fun hm => h (List.mem_cons_of_mem _ hm)
    simp [insert, hk, ih hes]

theorem extend_of_nodup (base : Entries α) {es : Entries α} (h : (keys (base ++ es)).Nodup) :
    extend base es = base ++ es := by
  induction es generalizing base with
  | nil => simp [extend]
  | cons e es ih =>
    obtain ⟨key, a⟩ := e
    have hkey : key ∉ keys base := by
      intro hm
      have hnd : (keys base ++ key :: keys es).Nodup := by simpa [keys] using h
      exact (List.nodup_append.mp hnd).2.2 key hm key (by simp) rfl
    have hstep : extend base ((key, a) :: es) = extend (base ++ [(key, a)]) es := by
      rw [← insert_of_not_mem hkey a]
      rfl
    rw [hstep, ih (base ++ [(key, a)]) (by simpa using h)]
    simp

theorem collect_of_nodup {es : Entries α} (h : (keys es).Nodup) : collect es = es :=
  extend_of_nodup [] h

theorem keys_zip {names : List String} {as : List α} (h : names.length = as.length) :
    keys (names.zip as) = names := by
  rw [keys, List.map_fst_zip (by omega)]

end Entries

theorem mapM_zip {ε α : Type} {f : String × Except ε α → Except ε (String × α)}
    (names : List String) (as : List α)
    (h : ∀ name ∈ names, ∀ a, f (name, .ok a) = .ok (name, a)) :
    (names.zip (as.map .ok)).mapM f = .ok (names.zip as) := by
  rw [mapM_eq_ok_iff]
  induction names generalizing as with
  | nil => exact .nil
  | cons name names ih =>
    cases as with
    | nil => exact .nil
    | cons a as =>
      exact .cons (h name (by simp) a) (ih as fun n hn => h n (List.mem_cons_of_mem _ hn))

theorem shapeOf_map_ok {ty : Ty} {parameters : List String} (xs : List Bson)
    (hlen : parameters.length = xs.length) :
    shapeOf ty parameters (xs.map .ok) = .ok (Entries.collect (parameters.zip xs)) := by
  rw [shapeOf, if_neg (by simp [hlen]), mapM_zip parameters xs fun _ _ _ => rfl, ok_bind,
    pure_eq_ok]

/-- A construction with distinct parameters is the document of its lowered arguments. -/
theorem shapeOf_of_nodup {ty : Ty} {parameters : List String} (xs : List Bson)
    (hlen : parameters.length = xs.length) (hnd : parameters.Nodup) :
    shapeOf ty parameters (xs.map .ok) = .ok (parameters.zip xs) := by
  have hkeys : (Entries.keys (parameters.zip xs)).Nodup := by rwa [Entries.keys_zip hlen]
  rw [shapeOf_map_ok xs hlen, Entries.collect_of_nodup hkeys]

namespace Decoder

theorem foldl_declare (b : DecoderBuilder) (entries : List (String × Decoder)) :
    entries.foldl ofConstruction.declare b =
      { typeName := b.typeName
        members := Entries.extend b.members (entries.map fun e => (e.1, ⟨e.1, e.2⟩))
        creator := b.creator ++ entries.map Prod.fst } := by
  induction entries generalizing b with
  | nil => simp [Entries.extend]
  | cons e entries ih =>
    rw [List.foldl_cons, ih]
    simp [ofConstruction.declare, DecoderBuilder.member, DecoderBuilder.creatorParameter,
      Entries.extend]

/-- The decoder of a construction with these parameters, each read from its own element. -/
def ofFields (ty : Ty) (parameters : List String) (ds : List Decoder) : Decoder :=
  .document ⟨constructedName ty, (parameters.zip ds).map fun e => (e.1, ⟨e.1, e.2⟩), parameters⟩

theorem ofConstruction_of_nodup {ty : Ty} {parameters members : List String} {ds : List Decoder}
    (hlen : parameters.length = ds.length) (hnd : parameters.Nodup)
    (hm : ∀ q ∈ parameters, q ∈ members) :
    ofConstruction ty parameters (some members) (ds.map .ok) = .ok (ofFields ty parameters ds) := by
  have hfst : (parameters.zip ds).map Prod.fst = parameters := List.map_fst_zip (by omega)
  have hkeys : (Entries.keys ((parameters.zip ds).map fun e =>
      (e.1, (⟨e.1, e.2⟩ : MemberDecoder)))).Nodup := by
    have hcomp : (parameters.zip ds).map (Prod.fst ∘ fun e =>
        (e.1, (⟨e.1, e.2⟩ : MemberDecoder))) = parameters := hfst
    rw [Entries.keys, List.map_map, hcomp]
    exact hnd
  have hcreator : (if parameters.isEmpty then (Entries.keys ((parameters.zip ds).map fun e =>
      (e.1, (⟨e.1, e.2⟩ : MemberDecoder)))) else parameters) = parameters := by
    cases parameters <;> simp [Entries.keys]
  rw [ofConstruction, if_neg (by simp [hlen]), mapM_zip parameters ds, ok_bind, pure_eq_ok,
    foldl_declare, DecoderBuilder.build]
  · simp only [DecoderBuilder.new, List.nil_append, hfst, ofFields]
    rw [Entries.extend_of_nodup [] hkeys, List.nil_append, hcreator]
  · intro q hq d
    simp only [List.contains_iff_mem.mpr (hm q hq), if_true]
    rfl

end Decoder

end QueryStage
