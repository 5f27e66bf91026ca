import QueryStage.Proofs.LiteralTexts
import QueryStage.Proofs.NamedElements
import QueryStage.Proofs.PathText
import QueryStage.Proofs.Relocation

/-!
# Names of the elements that a stage reads

A reference leads to elements by their names: all of its segments but for a variable at its start. A
loop over an array moves the paths below the array to its variable, so the names that lead to the
array are missing in its body. They are read all the same, as the array itself is. So places and
values are compared up to names that are known to be read.
-/

namespace QueryStage

/-- The same names, but for known ones. -/
def SameOff (known as bs : List String) : Prop := ∀ x, x ∉ known → (x ∈ as ↔ x ∈ bs)

namespace SameOff

variable {known known' as bs cs ds : List String}

theorem refl (known as : List String) : SameOff known as as := fun _ _ => Iff.rfl

theorem symm (h : SameOff known as bs) : SameOff known bs as := fun x hx => (h x hx).symm

theorem trans (h : SameOff known as bs) (h' : SameOff known bs cs) : SameOff known as cs :=
  fun x hx => (h x hx).trans (h' x hx)

theorem mono (h : SameOff known as bs) (hsub : known ⊆ known') : SameOff known' as bs :=
  fun x hx => h x fun hmem => hx (hsub hmem)

theorem append (h : SameOff known as bs) (h' : SameOff known cs ds) :
    SameOff known (as ++ cs) (bs ++ ds) := by
  intro x hx
  rw [List.mem_append, List.mem_append, h x hx, h' x hx]

theorem subset (h : SameOff known as bs) : as ⊆ known ++ bs := by
  intro x hx
  by_cases hknown : x ∈ known
  · exact List.mem_append_left _ hknown
  · exact List.mem_append_right _ ((h x hknown).mp hx)

end SameOff

/-- A text that names a variable: it has no dots and is not read as a reference itself. -/
def namesVariable (s : String) : Bool := !s.toList.contains '.' && !Literal.readsAsReference s

/-- The names of the elements to which a text refers. A variable at its start is none. -/
def elementsOfText (s : String) : List String :=
  match s.toList with
  | '$' :: '$' :: cs => (Path.pieces cs).tail.map String.ofList
  | '$' :: cs => (Path.pieces cs).map String.ofList
  | _ => []

theorem elementsOfText_append {s : String} (h : Literal.readsAsReference s = true) (t : String) :
    elementsOfText (s ++ "." ++ t) =
      elementsOfText s ++ (Path.pieces t.toList).map String.ofList := by
  have hchars : (s ++ "." ++ t).toList = s.toList ++ '.' :: t.toList := by simp
  rw [elementsOfText, elementsOfText, hchars]
  rw [Literal.readsAsReference, decide_eq_true_eq] at h
  rcases hs : s.toList with _ | ⟨a, _ | ⟨b, cs⟩⟩
  · rw [hs] at h
    cases h
  · rw [hs, List.head?_cons, Option.some.injEq] at h
    subst h
    simp [Path.pieces]
  · rw [hs, List.head?_cons, Option.some.injEq] at h
    subst h
    by_cases hb : b = '$'
    · subst hb
      simp [Path.pieces_append, List.tail_append_of_ne_nil (Path.pieces_ne_nil cs)]
    · have hpieces := Path.pieces_append (b :: cs) t.toList
      simp only [List.cons_append] at hpieces ⊢
      split
      · simp_all
      · simp_all
      · simp_all

namespace Path

variable {known known' : List String} {p q : Path}

/-- The names of the elements to which a path leads. -/
def elementNames (p : Path) : List String := elementsOfText p.reference

theorem readsAsReference_reference (p : Path) : Literal.readsAsReference p.reference = true := by
  simp [Literal.readsAsReference, reference]

def namesBelow : List String → List String
  | [] => []
  | rest => (pieces (joined rest).toList).map String.ofList

theorem elementNames_append (h : p.segments ≠ []) (rest : List String) :
    elementNames ⟨p.segments ++ rest⟩ = p.elementNames ++ namesBelow rest := by
  cases rest with
  | nil => simp [namesBelow]
  | cons s rest =>
    have hreference : reference ⟨p.segments ++ s :: rest⟩ =
        p.reference ++ "." ++ joined (s :: rest) := by
      simp only [reference, text, joined_append h (List.cons_ne_nil s rest), String.append_assoc]
    rw [elementNames, hreference, elementsOfText_append p.readsAsReference_reference]
    rfl

theorem elementNames_loopVariable {name : String} (h : namesVariable name = true) :
    (loopVariable name).elementNames = [] := by
  have hchars : (loopVariable name).reference.toList = '$' :: '$' :: name.toList := by
    simp [reference, text, joined, loopVariable]
  simp only [namesVariable, Bool.and_eq_true, Bool.not_eq_true', List.contains_eq_mem,
    decide_eq_false_iff_not] at h
  simp [elementNames, elementsOfText, hchars, pieces_of_dotFree h.1]

/-- The same place, or two places with a start to which the same names lead, but for known ones. -/
def SameElements (known : List String) (p q : Path) : Prop :=
  p = q ∨ p.segments ≠ [] ∧ q.segments ≠ [] ∧ SameOff known p.elementNames q.elementNames

theorem SameElements.start (h : SameElements known p q) (hp : p.segments ≠ []) :
    q.segments ≠ [] := by
  rcases h with rfl | ⟨-, hq, -⟩
  · exact hp
  · exact hq

theorem SameElements.sameOff (h : SameElements known p q) :
    SameOff known p.elementNames q.elementNames := by
  rcases h with rfl | ⟨-, -, h⟩
  · exact .refl _ _
  · exact h

theorem steady_sameElements (known : List String) : Steady (SameElements known) where
  refl p := .inl rfl
  child := by
    rintro p q name (rfl | ⟨hp, hq, h⟩)
    · exact .inl rfl
    · refine .inr ⟨by simp [hp], by simp [hq], ?_⟩
      rw [child, child, elementNames_append hp, elementNames_append hq]
      exact h.append (.refl _ _)

theorem sameElements_loopVariable (hp : p.segments ≠ []) {name : String}
    (hname : namesVariable name = true) : SameElements p.elementNames p (loopVariable name) := by
  refine .inr ⟨hp, by simp [loopVariable], fun x hx => ?_⟩
  rw [elementNames_loopVariable hname]
  exact iff_of_false hx List.not_mem_nil

/-- A map of paths under which the same names lead to a place, but for known ones. -/
def Neutral (known : List String) (f : Path → Path) : Prop :=
  ∀ p, p.segments ≠ [] → (f p).segments ≠ [] ∧ SameOff known (f p).elementNames p.elementNames

theorem neutral_id : Neutral known id := fun _ hp => ⟨hp, .refl _ _⟩

theorem Neutral.mono {f : Path → Path} (h : Neutral known f) (hsub : known ⊆ known') :
    Neutral known' f :=
  fun p hp => ⟨(h p hp).1, (h p hp).2.mono hsub⟩

theorem elementNames_reroot {root : Path} {v : String} (hroot : root.segments ≠ [])
    (hv : namesVariable v = true) (hp : p.segments ≠ []) :
    (reroot root (loopVariable v) p).segments ≠ [] ∧
      SameOff root.elementNames (reroot root (loopVariable v) p).elementNames p.elementNames := by
  have hvariable : (loopVariable v).segments ≠ [] := by simp [loopVariable]
  cases hstarts : p.startsWith root with
  | false =>
    rw [reroot_of_not_startsWith hstarts]
    exact ⟨hp, .refl _ _⟩
  | true =>
    obtain ⟨rest, hrest⟩ := (startsWith_iff p root).mp hstarts
    obtain rfl : p = ⟨root.segments ++ rest⟩ := by rw [← hrest]
    rw [reroot_append]
    refine ⟨by simp [hvariable], ?_⟩
    rw [elementNames_append hvariable, elementNames_append hroot, elementNames_loopVariable hv]
    intro x hx
    simp [hx]

/-- Inside a loop, the names that lead to its source are known. -/
theorem Neutral.loopPaths {f : Path → Path} (h : Neutral known f) {root : Path}
    (hroot : root.segments ≠ []) {v : Parameter} (hv : namesVariable v.name = true) :
    Neutral (known ++ root.elementNames) (Expr.loopPaths f (some (f root)) [v]) := by
  intro p hp
  obtain ⟨hstart, hsame⟩ := h p hp
  obtain ⟨hroot', hnames⟩ := h root hroot
  obtain ⟨hmoved, hoff⟩ := elementNames_reroot hroot' hv hstart
  exact ⟨hmoved, (hoff.mono hnames.subset).trans (hsame.mono (List.subset_append_left _ _))⟩

end Path

namespace Bson

/-- The names of the elements that a value in a stage reads. -/
def elementNames (b : Bson) : List String := b.readings.flatMap elementsOfText

/-- Two values that read elements of the same names, but for known ones. -/
def ReadsSame (known : List String) (a b : Bson) : Prop :=
  SameOff known a.elementNames b.elementNames

variable {known known' : List String} {a b c : Bson}

theorem ReadsSame.refl (known : List String) (b : Bson) : ReadsSame known b b := SameOff.refl _ _

theorem elementNames_reference (p : Path) : (string p.reference).elementNames = p.elementNames := by
  simp [elementNames, readings, p.readsAsReference_reference, Path.elementNames]

theorem congruence_readsSame (known : List String) : Congruence (ReadsSame known) where
  literal _ := .refl _ _
  current := .refl _ _
  array h := by
    rw [ReadsSame, elementNames, elementNames, readings, readings]
    induction h with
    | nil => exact .refl _ _
    | cons hab _ ih =>
      simp only [readingsAmong, List.flatMap_append]
      exact SameOff.append hab ih
  document h := by
    rw [ReadsSame, elementNames, elementNames, readings, readings]
    induction h with
    | nil => exact .refl _ _
    | cons key hab _ ih =>
      simp only [readingsOf, List.flatMap_append]
      refine SameOff.append ?_ ih
      split
      · exact .refl _ _
      · exact hab
  binary op ty a b c d hab hcd := by
    simp only [ReadsSame, elementNames, readings_binary, List.flatMap_append]
    exact SameOff.append hab hcd
  negated h := by
    rw [ReadsSame, elementNames, elementNames, readings_not, readings_not]
    exact h

theorem elementNames_loop (kind : LoopKind) {v : String} (hv : namesVariable v = true)
    (input body : Bson) :
    (kind.emit v input body).elementNames = input.elementNames ++ body.elementNames := by
  have hv : Literal.readsAsReference v = false := by
    simp only [namesVariable, Bool.and_eq_true, Bool.not_eq_true'] at hv
    exact hv.2
  cases kind <;>
    simp [LoopKind.emit, elementNames, readings_apply, readings, readingsOf, hv]

/-- A loop over sources that read the names which are known in its body. -/
theorem readsSame_loop (kind : LoopKind) {v : String} (hv : namesVariable v = true)
    {input input' : Bson} (hinput : ReadsSame known input input') {body body' : Bson}
    (hbody : ReadsSame known' body body') (hknown : known' ⊆ known ++ input.elementNames) :
    ReadsSame known (kind.emit v input body) (kind.emit v input' body') := by
  rw [ReadsSame, elementNames_loop kind hv, elementNames_loop kind hv]
  intro x hx
  rw [List.mem_append, List.mem_append]
  by_cases hmem : x ∈ known'
  · have hread : x ∈ input.elementNames :=
      (List.mem_append.mp (hknown hmem)).resolve_left hx
    exact iff_of_true (.inl hread) (.inl ((hinput x hx).mp hread))
  · rw [hinput x hx, hbody x hmem]

end Bson

end QueryStage
