import QueryStage.Proofs.Orders
import QueryStage.Proofs.References
import QueryStage.Proofs.Shapes

/-!
# Runs of declarations

A document decoder is built by declaring members and constructor parameters one after the other. Its
members have the declared names, each once and in the order of their first declarations, and what
was declared for each name last. Members and parameters are kept apart, so it does not matter how
their declarations are interleaved.
-/

namespace QueryStage

namespace Entries

variable {α : Type} {declared es es' : Entries α} {key other : String} {a b : α}

/-- The last entry of a key has this value. -/
def IsLast (es : Entries α) (key : String) (a : α) : Prop :=
  ∃ earlier later, es = earlier ++ (key, a) :: later ∧ key ∉ keys later

theorem isLast_append_self (es : Entries α) (key : String) (a : α) :
    IsLast (es ++ [(key, a)]) key a :=
  ⟨es, [], rfl, List.not_mem_nil⟩

theorem IsLast.append_of_ne (h : IsLast es key a) (hne : key ≠ other) (b : α) :
    IsLast (es ++ [(other, b)]) key a := by
  obtain ⟨earlier, later, rfl, hlater⟩ := h
  refine ⟨earlier, later ++ [(other, b)], by simp, ?_⟩
  have hkeys : keys (later ++ [(other, b)]) = keys later ++ [other] := by simp [keys]
  rw [hkeys]
  simp [hlater, hne]

theorem IsLast.get?_reverse (h : IsLast es key a) : get? key es.reverse = some a := by
  obtain ⟨earlier, later, rfl, hlater⟩ := h
  have hnone : get? key later.reverse = none := by
    rw [get?_eq_none_iff]
    simpa [keys] using hlater
  have hreverse : (earlier ++ (key, a) :: later).reverse =
      later.reverse ++ (key, a) :: earlier.reverse := by simp
  rw [hreverse, get?_append, hnone, Option.none_or, get?_cons_self]

theorem IsLast.unique (ha : IsLast es key a) (hb : IsLast es key b) : a = b :=
  Option.some.inj (ha.get?_reverse.symm.trans hb.get?_reverse)

/-- What the entries hold once all that is declared has been set. -/
structure Collects (declared es : Entries α) : Prop where
  /-- The keys are the declared ones. -/
  mem_keys_iff : ∀ key, key ∈ keys es ↔ key ∈ keys declared
  /-- They are in the order of their first declarations. -/
  ordered : (keys es).Pairwise fun k k' => (keys declared).idxOf k < (keys declared).idxOf k'
  /-- Each has the value of its last declaration. -/
  isLast : ∀ key a, (key, a) ∈ es → IsLast declared key a

theorem Collects.nodup (h : Collects declared es) : (keys es).Nodup := by
  refine h.ordered.imp ?_
  rintro k k' hlt rfl
  exact Nat.lt_irrefl _ hlt

theorem collects_nil : Collects ([] : Entries α) [] where
  mem_keys_iff _ := Iff.rfl
  ordered := .nil
  isLast _ _ h := absurd h List.not_mem_nil

theorem mem_insert_cases (hnodup : (keys es).Nodup) (h : (other, b) ∈ insert key a es) :
    other = key ∧ b = a ∨ other ≠ key ∧ (other, b) ∈ es := by
  have hget := get?_of_mem (nodup_keys_insert hnodup key a) h
  rw [get?_insert] at hget
  split at hget
  · rename_i hkey
    exact .inl ⟨hkey.symm, (Option.some.inj hget).symm⟩
  · rename_i hkey
    exact .inr ⟨Ne.symm hkey, mem_of_get? hget⟩

private theorem ordered_insert (h : Collects declared es) (key : String) (a : α) :
    (keys (insert key a es)).Pairwise fun k k' =>
      (keys declared ++ [key]).idxOf k < (keys declared ++ [key]).idxOf k' := by
  have hidx : ∀ k ∈ keys es, (keys declared ++ [key]).idxOf k = (keys declared).idxOf k := by
    intro k hk
    rw [List.idxOf_append, if_pos ((h.mem_keys_iff k).mp hk)]
  have hkept : (keys es).Pairwise fun k k' =>
      (keys declared ++ [key]).idxOf k < (keys declared ++ [key]).idxOf k' := by
    refine h.ordered.imp_of_mem fun hk hk' hlt => ?_
    rw [hidx _ hk, hidx _ hk']
    exact hlt
  rw [keys_insert]
  split
  · exact hkept
  · -- A new key comes after all keys that were declared before it.
    rename_i hkey
    have hnew : key ∉ keys declared := fun hm => hkey ((h.mem_keys_iff key).mpr hm)
    refine List.pairwise_append.mpr ⟨hkept, List.pairwise_singleton _ _, fun k hk k' hk' => ?_⟩
    have hlast : (keys declared ++ [key]).idxOf k' = (keys declared).length := by
      rw [List.mem_singleton.mp hk', List.idxOf_append, if_neg hnew]
      simp
    rw [hidx k hk, hlast]
    exact List.idxOf_lt_length_of_mem ((h.mem_keys_iff k).mp hk)

theorem Collects.insert (h : Collects declared es) (key : String) (a : α) :
    Collects (declared ++ [(key, a)]) (es.insert key a) := by
  have hkeys : keys (declared ++ [(key, a)]) = keys declared ++ [key] := by simp [keys]
  refine ⟨fun k => ?_, ?_, fun k x hx => ?_⟩
  · rw [hkeys, keys_insert]
    split
    · rename_i hkey
      have hdeclared := (h.mem_keys_iff key).mp hkey
      rw [h.mem_keys_iff, List.mem_append, List.mem_singleton]
      exact ⟨.inl, fun hk => hk.elim id fun hk => hk ▸ hdeclared⟩
    · simp only [List.mem_append, h.mem_keys_iff]
  · rw [hkeys]
    exact ordered_insert h key a
  · rcases mem_insert_cases h.nodup hx with ⟨rfl, rfl⟩ | ⟨hne, hmem⟩
    · exact isLast_append_self declared k x
    · exact (h.isLast k x hmem).append_of_ne hne a

theorem Collects.extend {before : Entries α} (h : Collects before es) (declared : Entries α) :
    Collects (before ++ declared) (es.extend declared) := by
  induction declared generalizing before es with
  | nil => rwa [List.append_nil]
  | cons entry declared ih =>
    have hstep := ih (h.insert entry.1 entry.2)
    rw [List.append_assoc] at hstep
    exact hstep

theorem eq_of_keys_eq (hkeys : keys es = keys es')
    (h : ∀ key a b, (key, a) ∈ es → (key, b) ∈ es' → a = b) : es = es' := by
  induction es generalizing es' with
  | nil => exact (List.map_eq_nil_iff.mp hkeys.symm).symm
  | cons entry es ih =>
    obtain ⟨key, a⟩ := entry
    cases es' with
    | nil => cases hkeys
    | cons entry' es' =>
      obtain ⟨key', b⟩ := entry'
      obtain ⟨rfl, htail⟩ := List.cons.inj hkeys
      have hes : es = es' := ih htail fun k x y hx hy =>
        h k x y (List.mem_cons_of_mem _ hx) (List.mem_cons_of_mem _ hy)
      rw [h key a b List.mem_cons_self List.mem_cons_self, hes]

/-- Only one list of entries holds what is declared. -/
theorem Collects.unique (h : Collects declared es) (h' : Collects declared es') : es = es' := by
  have hperm : (keys es).Perm (keys es') :=
    (List.perm_ext_iff_of_nodup h.nodup h'.nodup).mpr fun k =>
      (h.mem_keys_iff k).trans (h'.mem_keys_iff k).symm
  have hkeys : keys es = keys es' :=
    hperm.eq_of_pairwise (fun _ _ _ _ hlt hgt => absurd hgt (Nat.lt_asymm hlt)) h.ordered h'.ordered
  exact eq_of_keys_eq hkeys fun key a b ha hb => (h.isLast key a ha).unique (h'.isLast key b hb)

end Entries

namespace Declaration

def member? : Declaration → Option (String × MemberDecoder)
  | member name element decoder => some (name, ⟨element, decoder⟩)
  | creatorParameter _ => none

def parameter? : Declaration → Option String
  | member _ _ _ => none
  | creatorParameter name => some name

def declaredMembers (ds : List Declaration) : Entries MemberDecoder := ds.filterMap member?

def declaredParameters (ds : List Declaration) : List String := ds.filterMap parameter?

end Declaration

/-- A decoder that holds what was declared for members and for parameters. -/
structure DocumentDecoder.BuiltFrom (typeName : String) (declared : Entries MemberDecoder)
    (parameters : List String) (d : DocumentDecoder) : Prop where
  typeName : d.typeName = typeName
  members : Entries.Collects declared d.members
  /-- Without declared parameters the constructor takes all members. -/
  creator : d.creator = if parameters = [] then Entries.keys d.members else parameters

theorem DocumentDecoder.BuiltFrom.unique {typeName : String} {declared : Entries MemberDecoder}
    {parameters : List String} {d d' : DocumentDecoder}
    (h : d.BuiltFrom typeName declared parameters)
    (h' : d'.BuiltFrom typeName declared parameters) : d = d' := by
  obtain ⟨name, members, creator⟩ := d
  obtain ⟨name', members', creator'⟩ := d'
  obtain rfl : members = members' := h.members.unique h'.members
  obtain rfl : name = name' := h.typeName.trans h'.typeName.symm
  obtain rfl : creator = creator' := h.creator.trans h'.creator.symm
  rfl

namespace DecoderBuilder

open Declaration (declaredMembers declaredParameters)

/-- One declaration sets a member or appends a parameter, and leaves the other list. -/
theorem declare_eq (b : DecoderBuilder) (d : Declaration) :
    b.declare d =
      ⟨b.typeName, b.members.extend (declaredMembers [d]),
        b.creator ++ declaredParameters [d]⟩ := by
  cases d with
  | member name element decoder =>
    have hparameters : declaredParameters [.member name element decoder] = [] := rfl
    rw [hparameters, List.append_nil]
    rfl
  | creatorParameter name => rfl

theorem declareAll_eq (b : DecoderBuilder) (ds : List Declaration) :
    b.declareAll ds =
      ⟨b.typeName, b.members.extend (declaredMembers ds), b.creator ++ declaredParameters ds⟩ := by
  induction ds generalizing b with
  | nil =>
    have hparameters : declaredParameters [] = [] := rfl
    rw [hparameters, List.append_nil]
    rfl
  | cons d ds ih =>
    have hmembers : declaredMembers (d :: ds) = declaredMembers [d] ++ declaredMembers ds :=
      List.filterMap_append (l := [d])
    have hparameters :
        declaredParameters (d :: ds) = declaredParameters [d] ++ declaredParameters ds :=
      List.filterMap_append (l := [d])
    have hextend : Entries.extend b.members (declaredMembers (d :: ds)) =
        Entries.extend (Entries.extend b.members (declaredMembers [d])) (declaredMembers ds) := by
      rw [hmembers]
      exact List.foldl_append
    calc b.declareAll (d :: ds) = (b.declare d).declareAll ds := rfl
      _ = _ := by rw [ih, declare_eq, hextend, hparameters, List.append_assoc]

theorem builtFrom_declareAll (typeName : String) (ds : List Declaration) :
    ((new typeName).declareAll ds).build.BuiltFrom typeName (declaredMembers ds)
      (declaredParameters ds) := by
  rw [declareAll_eq]
  refine ⟨rfl, Entries.collects_nil.extend (declaredMembers ds), ?_⟩
  simp [build, new]

/-- A run of declarations builds a decoder without repeated members. It is the only one whose
members have the declared names in the order of their first declarations, with the element and the
decoder that were declared last, and whose constructor takes the declared parameters in order, or
all members if there are none. Runs with the same declarations of members and the same declarations
of parameters build the same decoder, however the two are interleaved. -/
theorem build_of_declarations (typeName : String) (ds : List Declaration) :
    (Entries.keys ((new typeName).declareAll ds).build.members).Nodup ∧
      (∀ d : DocumentDecoder, d.BuiltFrom typeName (declaredMembers ds) (declaredParameters ds) ↔
        d = ((new typeName).declareAll ds).build) ∧
      ∀ ds' : List Declaration, declaredMembers ds' = declaredMembers ds →
        declaredParameters ds' = declaredParameters ds →
        ((new typeName).declareAll ds').build = ((new typeName).declareAll ds).build := by
  have hbuilt := builtFrom_declareAll typeName ds
  refine ⟨hbuilt.members.nodup, fun d => ⟨fun h => h.unique hbuilt, fun h => h ▸ hbuilt⟩, ?_⟩
  intro ds' hmembers hparameters
  rw [declareAll_eq, declareAll_eq, hmembers, hparameters]

end DecoderBuilder

namespace Orders

/-- The members of an item and the parameters of its constructor, declared in turn. The name is
declared again, and the quantity is taken twice. -/
def itemDeclarations : List Declaration :=
  [.member "Name" "name" (.value .string), .creatorParameter "Quantity",
    .member "Quantity" "qty" (.value .int32), .creatorParameter "Name",
    .member "Name" "title" (.value .string), .creatorParameter "Quantity"]

/-- The declarations of an item build the same decoder if all parameters are declared first. The
name is still its first member, and is read from the title. -/
theorem itemDeclarations_build :
    ((DecoderBuilder.new "Item").declareAll
        [.creatorParameter "Quantity", .creatorParameter "Name", .creatorParameter "Quantity",
          .member "Name" "name" (.value .string), .member "Quantity" "qty" (.value .int32),
          .member "Name" "title" (.value .string)]).build =
      ((DecoderBuilder.new "Item").declareAll itemDeclarations).build ∧
    DocumentDecoder.BuiltFrom "Item"
      [("Name", ⟨"name", .value .string⟩), ("Quantity", ⟨"qty", .value .int32⟩),
        ("Name", ⟨"title", .value .string⟩)]
      ["Quantity", "Name", "Quantity"]
      ⟨"Item", [("Name", ⟨"title", .value .string⟩), ("Quantity", ⟨"qty", .value .int32⟩)],
        ["Quantity", "Name", "Quantity"]⟩ := by
  obtain ⟨-, hbuilt, hsame⟩ := DecoderBuilder.build_of_declarations "Item" itemDeclarations
  exact ⟨hsame _ rfl rfl, (hbuilt _).mpr rfl⟩

end Orders

end QueryStage
