import QueryStage.Proofs.RenamedReferences

/-!
# Lowering with a loop variable renamed

Bound expressions that differ by the name of a parameter are lowered to stages that differ by the
name of a loop variable, as long as its variables are used in their scopes and none of them captures
another.
-/

namespace QueryStage

/-- How the two maps act on these paths where these names are declared, and how what is emitted
there is related. Outside the lambdas that declare `w` the maps are the same. Inside of them they
take paths to renamed ones, or to the same ones where a `v` hides the variable. -/
inductive Stands (w v : String) (outer : List String) (ps : List Path) :
    (Path → Path) → (Path → Path) → (Bson → Bson → Prop) → Prop
  | outside {f : Path → Path} (hw : w ∉ outer) (hf : Path.Steers w v outer f) :
    Stands w v outer ps f f (Bson.Renamed w v)
  | inside {f g : Path → Path} (hidden : Bool) (hw : w ∈ outer)
    (hfg : ∀ p ∈ ps, ∀ q, Path.Moved w v p q → Path.Seen w v hidden (f p) (g q)) :
    Stands w v outer ps f g (Bson.Inside w v hidden)

namespace Stands

variable {w v : String} {outer : List String} {ps : List Path} {f g : Path → Path}
  {B : Bson → Bson → Prop}

theorem mono (h : Stands w v outer ps f g B) {qs : List Path} (hsub : qs ⊆ ps) :
    Stands w v outer qs f g B := by
  cases h with
  | outside hw hf => exact .outside hw hf
  | inside hidden hw hfg => exact .inside hidden hw fun p hp => hfg p (hsub hp)

theorem reference (h : Stands w v outer ps f g B) {p q : Path} (hmem : p ∈ ps)
    (hp : p.Placed w v outer q) : B (.string (f p).reference) (.string (g q).reference) := by
  cases h with
  | outside hw hf => rw [hp.eq hw]; exact .same _
  | inside hidden hw hfg => exact Bson.inside_reference (hfg p hmem q hp.place)

/-- In a lambda, what is below the source of its loop is so on both sides, and then it is emitted in
the related way. -/
theorem selected (h : Stands w v outer ps f g B) (hvw : v ≠ w) {params : List String}
    {p q s t : Path} (hp : p.Placed w v (params ++ outer) q) (hmem : p ∈ ps)
    (hs : s.Placed w v outer t) (hmem' : s ∈ ps)
    (hat : w ∈ params → v ∈ outer → ¬ p.AtVariable w) :
    (∃ rest, f p = ⟨(f s).segments ++ rest⟩ ∧ g q = ⟨(g t).segments ++ rest⟩ ∧
        B (.string (f p).reference) (.string (g q).reference)) ∨
      (f p).startsWith (f s) = false ∧ (g q).startsWith (g t) = false := by
  have same {p s : Path} (hB : B (.string p.reference) (.string p.reference)) :
      (∃ rest, p = ⟨s.segments ++ rest⟩ ∧ p = ⟨s.segments ++ rest⟩ ∧
          B (.string p.reference) (.string p.reference)) ∨
        p.startsWith s = false ∧ p.startsWith s = false := by
    cases hstarts : p.startsWith s with
    | false => exact .inr ⟨rfl, rfl⟩
    | true =>
      obtain ⟨rest, hrest⟩ := (Path.startsWith_iff _ _).mp hstarts
      have hp : p = ⟨s.segments ++ rest⟩ := by rw [← hrest]
      exact .inl ⟨rest, hp, hp, hB⟩
  cases h with
  | outside hw hf =>
    obtain rfl := hs.eq hw
    by_cases hpw : p.AtVariable w
    · have hparams : w ∈ params :=
        (List.mem_append.mp (hp.within.declared w (by simp) hpw)).resolve_right hw
      have houter : v ∉ outer := fun hv => hat hparams hv hpw
      have hpq := hf.renamed houter p q (hp.place.renamed fun hv => hvw (hv.unique hpw))
      rcases hpq.startsWith (hf.renamed houter s s (hs.renamed houter)) with
        ⟨rest, hp, hq⟩ | hneither
      · refine .inl ⟨rest, hp, hq, ?_⟩
        rw [hp, hq]
        exact .same _
      · exact .inr hneither
    · obtain rfl := hp.place.eq hpw
      exact same (.same _)
  | inside hidden hw hfg =>
    have hpq := hfg p hmem q hp.place
    have hst := hfg s hmem' t hs.place
    have hB := Bson.inside_reference hpq
    cases hidden with
    | true =>
      rw [← hpq.1] at hB ⊢
      rw [← hst.1]
      exact same hB
    | false =>
      rcases Path.Renamed.startsWith hpq hst with ⟨rest, hp, hq⟩ | hneither
      · exact .inl ⟨rest, hp, hq, hB⟩
      · exact .inr hneither

end Stands

namespace Expr

variable {w v : String} {closed outer : List String} {ps : List Path} {f g : Path → Path}
  {B : Bson → Bson → Prop}

theorem Scoped.start {strict : Bool} {e : Expr} (h : e.Scoped strict v w closed outer) :
    ∀ p ∈ e.boundPaths, p.segments ≠ [] := by
  induction e using induct_parts generalizing outer with
  | step e ih =>
    intro p hp
    rw [boundPaths_eq, List.mem_append] at hp
    rcases hp with hp | hp
    · exact (h.within hp).start
    · obtain ⟨part, hpart, hp⟩ := List.mem_flatMap.mp hp
      rcases mem_scopedParts_of_mem_parts hpart with ⟨names, hmem⟩ | hnone
      · exact ih part hpart (h.scopedPart hmem) p hp
      · rw [hnone] at hp
        cases hp

theorem boundPaths_subset {e part : Expr} (h : part ∈ e.parts) :
    part.boundPaths ⊆ e.boundPaths :=
  fun _ hp => mem_boundPaths_of_part h hp

/-- Wherever an expression and its renamed form stand, they are lowered alike. -/
def LowersRenamed (w v : String) (closed : List String) (unit : StringUnit) (e : Expr) : Prop :=
  ∀ e', Moved (.ofNames w v closed) e e' → ∀ outer f g B, Stands w v outer e.boundPaths f g B →
    e.Scoped false v w closed outer → e.Uncaptured v w outer f →
    Lifted B (e.lower unit f) (e'.lower unit g)

private theorem LowersRenamed.part {unit : StringUnit} {e a a' : Expr}
    (ih : a.LowersRenamed w v closed unit) (hmoved : Moved (.ofNames w v closed) a a')
    (h : Stands w v outer e.boundPaths f g B) (hscoped : e.Scoped false v w closed outer)
    (huncaptured : e.Uncaptured v w outer f) (hopen : e.isOpen = true) (hpart : a ∈ e.parts) :
    Lifted B (a.lower unit f) (a'.lower unit g) :=
  ih a' hmoved outer f g B (h.mono (boundPaths_subset hpart)) (hscoped.part hopen hpart)
    (huncaptured.part hopen hpart)

end Expr

end QueryStage
