import QueryStage.Proofs.BindingInvariant
import QueryStage.Proofs.References

/-!
# Tracing paths in decoders

A path is traced in a decoder if its segments are the elements of members that lead on from one
another, through arrays and optional values. The paths of bound nodes are below a loop variable, or
traced from a decoder that a document without a path carries. Binding keeps it so.
-/

namespace QueryStage

namespace Decoder

/-- One decoder is reached from another along members read from these elements. Members and items
are also found behind optional values. -/
inductive Traces : Decoder → List String → Decoder → Prop
  | refl (d : Decoder) : Traces d [] d
  | member {d d' : Decoder} {name : String} {m : MemberDecoder} {es : List String}
    (h : d.member? name = some m) (rest : Traces m.decoder es d') : Traces d (m.element :: es) d'
  | item {d i d' : Decoder} {es : List String} (h : d.item? = some i) (rest : Traces i es d') :
    Traces d es d'

/-- A reference that names a field which the decoder knows. -/
def Reaches (d : Decoder) (ref : String) : Prop :=
  ∃ es d', es ≠ [] ∧ d.Traces es d' ∧ ref = Path.reference ⟨es⟩

theorem Traces.trans {d d' d'' : Decoder} {es fs : List String} (h : Traces d es d')
    (h' : Traces d' fs d'') : Traces d (es ++ fs) d'' := by
  induction h with
  | refl d => exact h'
  | member h _ ih => exact .member h (ih h')
  | item h _ ih => exact .item h (ih h')

theorem Traces.child {d d' : Decoder} {es : List String} (h : Traces d es d') {name : String}
    {m : MemberDecoder} (hm : d'.member? name = some m) :
    Traces d (es ++ [m.element]) m.decoder :=
  h.trans (.member hm (.refl _))

theorem Traces.each {d d' i : Decoder} {es : List String} (h : Traces d es d')
    (hi : d'.item? = some i) : Traces d es i := by
  have htrace := h.trans (.item hi (.refl i))
  rwa [List.append_nil] at htrace

theorem Traces.of_array {d d' : Decoder} {es : List String} (h : Traces (array d) es d')
    (hes : es ≠ []) : Traces d es d' := by
  cases h with
  | refl => exact absurd rfl hes
  | member h _ => cases h
  | item h rest =>
    cases h
    exact rest

mutual

/-- The elements that a decoder reads its members from, at any depth. -/
def elements : Decoder → List String
  | value _ => []
  | nullable d => d.elements
  | array d => d.elements
  | document ⟨_, members, _⟩ => elementsOf members

def elementsOf : List (String × MemberDecoder) → List String
  | [] => []
  | (_, ⟨element, d⟩) :: members => element :: (d.elements ++ elementsOf members)

end

private theorem elements_of_get? {name : String} {members : List (String × MemberDecoder)}
    {m : MemberDecoder} (h : Entries.get? name members = some m) :
    m.element ∈ elementsOf members ∧ ∀ e ∈ m.decoder.elements, e ∈ elementsOf members := by
  induction members with
  | nil => cases h
  | cons entry members ih =>
    obtain ⟨key, element, d⟩ := entry
    rw [Entries.get?] at h
    split at h
    · cases h
      exact ⟨by simp [elementsOf], fun e he => by simp [elementsOf, he]⟩
    · obtain ⟨hm, hbelow⟩ := ih h
      exact ⟨by simp [elementsOf, hm], fun e he => by simp [elementsOf, hbelow e he]⟩

theorem elements_of_member? {d : Decoder} {name : String} {m : MemberDecoder}
    (h : d.member? name = some m) :
    m.element ∈ d.elements ∧ ∀ e ∈ m.decoder.elements, e ∈ d.elements := by
  induction d with
  | value ty => cases h
  | nullable d ih => exact ih h
  | array d => cases h
  | document typeName members creator => exact elements_of_get? h

theorem elements_of_item? {d i : Decoder} (h : d.item? = some i) : i.elements = d.elements := by
  induction d with
  | value ty => cases h
  | nullable d ih => exact ih h
  | array d => cases h; rfl
  | document typeName members creator => cases h

theorem Traces.mem_elements {d d' : Decoder} {es : List String} (h : Traces d es d') :
    ∀ e ∈ es, e ∈ d.elements := by
  induction h with
  | refl d => exact List.forall_mem_nil _
  | member h _ ih =>
    obtain ⟨helement, hbelow⟩ := elements_of_member? h
    exact List.forall_mem_cons.mpr ⟨helement, fun e he => hbelow e (ih e he)⟩
  | item h _ ih => rwa [elements_of_item? h] at ih

end Decoder

/-- A path of a bound node: below a loop variable, or traced from one of the roots. -/
def Path.Located (roots : Decoder → Prop) (p : Path) (d : Decoder) : Prop :=
  (∃ name rest, p.segments = (Path.loopVariable name).segments ++ rest) ∨
    ∃ root, roots root ∧ root.Traces p.segments d

namespace Path.Located

variable {roots : Decoder → Prop} {p : Path} {d : Decoder}

theorem child (h : p.Located roots d) {name : String} {m : MemberDecoder}
    (hm : d.member? name = some m) : (p.child m.element).Located roots m.decoder := by
  rcases h with ⟨v, rest, hp⟩ | ⟨root, hroot, htrace⟩
  · exact .inl ⟨v, rest ++ [m.element], by rw [segments_child, hp, List.append_assoc]⟩
  · exact .inr ⟨root, hroot, htrace.child hm⟩

theorem each (h : p.Located roots d) {i : Decoder} (hi : d.item? = some i) :
    p.Located roots i := by
  rcases h with hvariable | ⟨root, hroot, htrace⟩
  · exact .inl hvariable
  · exact .inr ⟨root, hroot, htrace.each hi⟩

/-- A located path refers to what the roots reach. -/
theorem refers {S : String → Prop} (h : p.Located roots d) (hp : p.segments ≠ [])
    (hS : ∀ root ref, roots root → isFieldReference ref = true → root.Reaches ref → S ref) :
    p.Refers S := by
  rcases h with ⟨v, rest, hsegments⟩ | ⟨root, hroot, htrace⟩
  · have hvariable := Path.refers_loopVariable S v rest
    rwa [← hsegments] at hvariable
  · exact Path.refers_iff.mpr fun hfield => hS root _ hroot hfield ⟨_, d, hp, htrace, rfl⟩

end Path.Located

namespace Expr

/-- Every declared member of the decoder is an argument of the construction, and there are no
items. -/
def Covers (parameters : List String) (args : List Expr) (members : Option (List String))
    (d : Decoder) : Prop :=
  d.item? = none ∧ ∀ name m, d.member? name = some m →
    (constructed? name parameters args members).isSome = true

/-- A bound node is located where its path says. One without a path is at the start of all paths, or
stands for a construction that covers its decoder. -/
def Located (roots : Decoder → Prop) : Expr → Prop
  | field p d _ => p.segments ≠ [] ∧ p.Located roots d
  | document _ (some p) d => p.segments ≠ [] ∧ p.Located roots d
  | document (construct _ parameters args members) none d => Covers parameters args members d
  | document _ none d => Path.Located roots ⟨[]⟩ d
  | _ => True

variable {roots : Decoder → Prop}

theorem located_of_isWritten {e : Expr} (h : e.isWritten = true) : e.Located roots := by
  cases e with
  | field => cases h
  | document => cases h
  | _ => trivial

theorem all_field {I : Expr → Prop} {p : Path} {d : Decoder} {ty : Ty} (h : I (field p d ty)) :
    (field p d ty).All I :=
  all_iff.mpr ⟨h, nofun⟩

theorem all_document {I : Expr → Prop} {v : Parameter} {path : Option Path} {d : Decoder}
    (h : I (document (parameter v) path d)) (hv : I (parameter v)) :
    (document (parameter v) path d).All I := by
  refine all_iff.mpr ⟨h, fun part hpart => ?_⟩
  cases List.mem_singleton.mp hpart
  exact all_iff.mpr ⟨hv, nofun⟩

theorem Located.document_cases {inner : Expr} {path : Option Path} {d : Decoder}
    (h : (document inner path d).Located roots) :
    (path.getD ⟨[]⟩).Located roots d ∨
      ∃ ty parameters args members, inner = construct ty parameters args members ∧
        path = none ∧ Covers parameters args members d := by
  cases path with
  | some p => exact .inl h.2
  | none =>
    cases inner with
    | construct ty parameters args members =>
      exact .inr ⟨ty, parameters, args, members, rfl, rfl, h⟩
    | _ => exact .inl h

/-- Located nodes stay so when members are resolved and elements ranged over. -/
theorem invariant_located (r : Decoders) (roots : Decoder → Prop) :
    Invariant r (Located roots) where
  written := located_of_isWritten
  resolve := by
    intro e b name ty he h
    rcases resolve?_cases h with ⟨p, d, ty', m, rfl, hm, rfl⟩ |
      ⟨inner, path, d, m, rfl, hm, rfl, hinner⟩ | ⟨ty', parameters, args, members, he', hb⟩
    · have hp := he.self.2.child hm
      exact all_field ⟨by simp, hp⟩
    · rcases Located.document_cases he.self with hp |
        ⟨ty', parameters, args, members, rfl, -, hcovers⟩
      · exact all_field ⟨by simp, hp.child hm⟩
      · have hsome := hcovers.2 name m hm
        rw [hinner ty' parameters args members rfl] at hsome
        cases hsome
    · have hmem := mem_of_constructed? hb
      rcases he' with rfl | ⟨path, d, rfl⟩
      · exact he.part hmem
      · have hconstruct : (construct ty' parameters args members).All (Located roots) :=
          he.part (by simp [parts])
        exact hconstruct.part hmem
  element := by
    intro source b v hsource h
    rcases element?_cases h with ⟨path, d, ty, i, rfl, hi, rfl⟩ |
      ⟨inner, path, d, i, rfl, hi, rfl⟩ | ⟨i, -, -, -, rfl⟩
    · exact all_document ⟨hsource.self.1, hsource.self.2.each hi⟩ trivial
    · refine all_document ?_ trivial
      rcases Located.document_cases hsource.self with hp | ⟨_, _, _, _, rfl, rfl, hcovers⟩
      · cases path with
        | none => exact hp.each hi
        | some p => exact ⟨hsource.self.1, hp.each hi⟩
      · rw [hcovers.1] at hi
        cases hi
    · exact all_document ⟨by simp [Path.loopVariable], .inl ⟨v.name, [], by simp⟩⟩ trivial

end Expr

end QueryStage
