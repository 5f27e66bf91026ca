import Mathlib.Data.List.TakeWhile
import QueryStage.Proofs.CarriedDecoders
import QueryStage.Proofs.Tracing

/-!
# Names and variables

A text starts at a variable if it has two dollar signs, and the variable goes on to the next dot.
Where elements have plain names, the paths below the current document start at no variable, and a
path below a loop variable starts at that one.
-/

namespace QueryStage

/-- A text that is one segment of a path and is not read as a reference. -/
def isName (s : String) : Bool :=
  !s.isEmpty && !s.toList.contains '.' && !Literal.readsAsReference s

/-- The variable that a text refers to: what stands between two dollar signs and the next dot. -/
def variableOf? (s : String) : Option String :=
  match s.toList with
  | '$' :: '$' :: cs => some (String.ofList (cs.takeWhile (· ≠ '.')))
  | _ => none

/-- A text that refers to no variable but these and the current document. -/
def VariableIn (vars : List String) (s : String) : Prop :=
  ∀ v, variableOf? s = some v → v = "ROOT" ∨ v ∈ vars

instance (vars : List String) (s : String) : Decidable (VariableIn vars s) :=
  inferInstanceAs (Decidable (∀ v ∈ variableOf? s, v = "ROOT" ∨ v ∈ vars))

variable {vars vars' : List String}

theorem dotFree_of_isName {s : String} (h : isName s = true) : '.' ∉ s.toList := by
  simp only [isName, Bool.and_eq_true, Bool.not_eq_true', List.contains_eq_mem,
    decide_eq_false_iff_not] at h
  exact h.1.2

theorem variableOf?_of_not_reference {s : String} (h : Literal.readsAsReference s = false) :
    variableOf? s = none := by
  unfold variableOf?
  split
  · rename_i hs
    simp [Literal.readsAsReference, hs] at h
  · rfl

theorem variableOf?_of_isName {s : String} (h : isName s = true) : variableOf? s = none := by
  simp only [isName, Bool.and_eq_true, Bool.not_eq_true'] at h
  exact variableOf?_of_not_reference h.2

theorem variableOf?_append_dot (s t : String) : variableOf? (s ++ "." ++ t) = variableOf? s := by
  have hchars : (s ++ "." ++ t).toList = s.toList ++ '.' :: t.toList := by simp
  unfold variableOf?
  rw [hchars]
  rcases s.toList with _ | ⟨a, _ | ⟨b, cs⟩⟩
  · simp
  · simp
  · by_cases ha : a = '$'
    · by_cases hb : b = '$'
      · subst ha hb
        simp only [List.cons_append, List.takeWhile_append]
        split
        · rename_i hlength
          rw [(List.takeWhile_prefix _).eq_of_length hlength]
          simp
        · rfl
      · simp [hb]
    · simp [ha]

theorem VariableIn.mono {s : String} (h : VariableIn vars s) (hsub : vars ⊆ vars') :
    VariableIn vars' s :=
  fun v hv => (h v hv).imp_right fun hmem => hsub hmem

theorem variableIn_of_isName {s : String} (h : isName s = true) : VariableIn vars s := by
  intro v hv
  rw [variableOf?_of_isName h] at hv
  cases hv

namespace Path

theorem joined_append {ss ts : List String} (hss : ss ≠ []) (hts : ts ≠ []) :
    joined (ss ++ ts) = joined ss ++ "." ++ joined ts := by
  induction ss with
  | nil => exact absurd rfl hss
  | cons s ss ih =>
    cases ss with
    | nil =>
      cases ts with
      | nil => exact absurd rfl hts
      | cons t ts => rfl
    | cons s' ss =>
      have hrest := ih (by simp)
      simp only [List.cons_append, joined] at hrest ⊢
      rw [hrest]
      simp only [String.append_assoc]

/-- The path has a start, and it starts at no variable but these. -/
structure ReadsIn (vars : List String) (p : Path) : Prop where
  start : p.segments ≠ []
  reads : VariableIn vars p.reference

variable {p : Path}

theorem ReadsIn.mono (h : p.ReadsIn vars) (hsub : vars ⊆ vars') : p.ReadsIn vars' :=
  ⟨h.start, h.reads.mono hsub⟩

theorem ReadsIn.append (h : p.ReadsIn vars) (rest : List String) :
    ReadsIn vars ⟨p.segments ++ rest⟩ := by
  refine ⟨by simp [h.start], ?_⟩
  cases rest with
  | nil =>
    rw [List.append_nil]
    exact h.reads
  | cons r rest =>
    have hreference : reference ⟨p.segments ++ r :: rest⟩ =
        p.reference ++ "." ++ joined (r :: rest) := by
      simp only [reference, text, joined_append h.start (List.cons_ne_nil r rest),
        String.append_assoc]
    rw [VariableIn, hreference, variableOf?_append_dot]
    exact h.reads

theorem ReadsIn.child (h : p.ReadsIn vars) (name : String) : (p.child name).ReadsIn vars :=
  h.append [name]

theorem readsIn_of_isName {element : String} (h : isName element = true) :
    ReadsIn vars ⟨[element]⟩ := by
  refine ⟨by simp, fun v hv => ?_⟩
  simp only [isName, Bool.and_eq_true, Bool.not_eq_true', Literal.readsAsReference,
    decide_eq_false_iff_not] at h
  have hchars : (reference ⟨[element]⟩).toList = '$' :: element.toList := by
    simp [reference, text, joined]
  unfold variableOf? at hv
  split at hv
  · rename_i cs hcs
    rw [hchars, List.cons.injEq] at hcs
    exact absurd (by rw [hcs.2]; rfl) h.2
  · cases hv

theorem variableOf?_loopVariable {name : String} (h : '.' ∉ name.toList) :
    variableOf? (loopVariable name).reference = some name := by
  have hchars : (loopVariable name).reference.toList = '$' :: '$' :: name.toList := by
    simp [reference, text, joined, loopVariable]
  have hall : name.toList.takeWhile (· ≠ '.') = name.toList := by
    rw [List.takeWhile_eq_self_iff]
    intro c hc
    have hne : c ≠ '.' := fun hdot => h (hdot ▸ hc)
    simpa using hne
  simp only [variableOf?, hchars, hall, String.ofList_toList]

theorem readsIn_loopVariable {name : String} (hname : isName name = true) (h : name ∈ vars) :
    (loopVariable name).ReadsIn vars := by
  refine ⟨by simp [loopVariable], fun v hv => ?_⟩
  rw [variableOf?_loopVariable (dotFree_of_isName hname)] at hv
  cases hv
  exact .inr h

end Path

namespace Decoder

/-- All elements that a decoder reads have names. -/
def Named (d : Decoder) : Prop := ∀ element ∈ d.elements, isName element = true

instance (d : Decoder) : Decidable d.Named :=
  inferInstanceAs (Decidable (∀ element ∈ d.elements, isName element = true))

theorem Named.item {d i : Decoder} (h : d.Named) (hi : d.item? = some i) : i.Named := by
  rw [Named, elements_of_item? hi]
  exact h

theorem Named.member {d : Decoder} (h : d.Named) {name : String} {m : MemberDecoder}
    (hm : d.member? name = some m) : isName m.element = true ∧ m.decoder.Named := by
  obtain ⟨helement, hbelow⟩ := elements_of_member? hm
  exact ⟨h _ helement, fun element hmem => h element (hbelow element hmem)⟩

theorem mem_elementsOf {x : String} {members : List (String × MemberDecoder)}
    (h : x ∈ elementsOf members) :
    ∃ entry ∈ members, x = entry.2.element ∨ x ∈ entry.2.decoder.elements := by
  induction members with
  | nil => cases h
  | cons entry members ih =>
    obtain ⟨key, element, d⟩ := entry
    rw [elementsOf, List.mem_cons, List.mem_append] at h
    rcases h with rfl | h | h
    · exact ⟨_, List.mem_cons_self, .inl rfl⟩
    · exact ⟨_, List.mem_cons_self, .inr h⟩
    · obtain ⟨entry, hentry, hx⟩ := ih h
      exact ⟨entry, List.mem_cons_of_mem _ hentry, hx⟩

/-- A construction reads the elements that its parameters name, and what is below them. -/
theorem named_declared {parameters : List String} {ds : List Decoder}
    (hparameters : ∀ x ∈ parameters, isName x = true) (hds : ∀ d ∈ ds, d.Named) :
    ∀ x ∈ elementsOf (declared parameters ds), isName x = true := by
  have hmembers : ∀ entry ∈ declared parameters ds,
      isName entry.2.element = true ∧ entry.2.decoder.Named := by
    rw [declared, ← Entries.collect_mapValues]
    apply Entries.forall_mem_extend
      (P := fun m : MemberDecoder => isName m.element = true ∧ m.decoder.Named)
      (List.forall_mem_nil _)
    intro entry hentry
    obtain ⟨⟨name, d⟩, hmem, rfl⟩ := List.mem_map.mp hentry
    obtain ⟨hname, hd⟩ := List.of_mem_zip hmem
    exact ⟨hparameters name hname, hds d hd⟩
  intro x hx
  obtain ⟨entry, hentry, rfl | hx⟩ := mem_elementsOf hx
  · exact (hmembers entry hentry).1
  · exact (hmembers entry hentry).2 x hx

end Decoder

/-- All known decoders read elements that have names. -/
def Decoders.Named (ds : Decoders) : Prop := ∀ ty d, ds.lookup ty = some d → d.Named

theorem Decoders.Named.sustains {ds : Decoders} (h : ds.Named) :
    ds.Sustains Decoder.Named fun x => isName x = true where
  known hd := h _ _ hd
  array hd := hd
  item hd hi := hd.item hi
  member hd hm := (hd.member hm).2
  constructed _ hnames hargs := Decoder.named_declared hnames hargs

theorem Registry.named_decoders {r : Registry}
    (h : ∀ entry ∈ r.classes, (Decoder.document entry.2).Named) : r.decoders.Named :=
  fun _ _ => lookup_of_classes (fun _ => List.forall_mem_nil _) (fun _ => id) (fun _ => id) h

end QueryStage
