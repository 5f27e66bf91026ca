import QueryStage.Path

/-!
# Reading the text of a path

The joined text of segments is read segment by segment, so a segment with dots is read as several
and an empty one as none. A path is therefore read back from its text exactly if its segments are
not empty and hold no dot. What has been read is always such a path.
-/

namespace QueryStage.Path

theorem pieces_eq_splitOn (cs : List Char) : pieces cs = cs.splitOn '.' := by
  induction cs with
  | nil => rfl
  | cons c cs ih =>
    have hne : cs.splitOn '.' ≠ [] := List.splitOn_ne_nil '.' cs
    rw [pieces, List.splitOn_cons_eq_if_modifyHead, ih]
    by_cases hc : c = '.'
    · simp [hc]
    · cases hpieces : cs.splitOn '.' with
      | nil => exact absurd hpieces hne
      | cons p ps => simp [hc]

theorem pieces_ne_nil (cs : List Char) : pieces cs ≠ [] := by
  rw [pieces_eq_splitOn]
  exact List.splitOn_ne_nil '.' cs

theorem pieces_append (cs ds : List Char) : pieces (cs ++ '.' :: ds) = pieces cs ++ pieces ds := by
  simp only [pieces_eq_splitOn]
  exact List.splitOn_append_cons_self cs ds

theorem pieces_of_dotFree {cs : List Char} (h : '.' ∉ cs) : pieces cs = [cs] := by
  rw [pieces_eq_splitOn]
  exact List.splitOn_eq_singleton h

theorem dotFree_of_mem_pieces {cs piece : List Char} (h : piece ∈ pieces cs) : '.' ∉ piece := by
  induction cs generalizing piece with
  | nil =>
    have hpiece : piece = [] := by simpa [pieces] using h
    simp [hpiece]
  | cons c cs ih =>
    rw [pieces] at h
    split at h
    · -- A dot begins an empty piece.
      rcases List.mem_cons.mp h with rfl | h
      · exact List.not_mem_nil
      · exact ih h
    · rename_i hc
      cases hpieces : pieces cs with
      | nil => exact absurd hpieces (pieces_ne_nil cs)
      | cons p ps =>
        rw [hpieces] at h ih
        rcases List.mem_cons.mp h with rfl | h
        · have hp : '.' ∉ p := ih List.mem_cons_self
          simp [Ne.symm hc, hp]
        · exact ih (List.mem_cons_of_mem _ h)

/-- A segment that the text of a path keeps apart from its neighbours. -/
structure PlainSegment (s : String) : Prop where
  nonempty : s ≠ ""
  dotFree : '.' ∉ s.toList

instance (s : String) : Decidable (PlainSegment s) :=
  decidable_of_iff (s ≠ "" ∧ '.' ∉ s.toList) ⟨fun h => ⟨h.1, h.2⟩, fun h => ⟨h.1, h.2⟩⟩

theorem plainSegment_of_mem_ofText {s text : String} (h : s ∈ (ofText text).segments) :
    PlainSegment s := by
  obtain ⟨piece, hpiece, rfl⟩ := List.mem_map.mp h
  obtain ⟨hmem, hne⟩ := List.mem_filter.mp hpiece
  refine ⟨by simpa using hne, ?_⟩
  rw [String.toList_ofList]
  exact dotFree_of_mem_pieces hmem

theorem PlainSegment.segments_ofText {s : String} (h : PlainSegment s) :
    (ofText s).segments = [s] := by
  have hne : s.toList ≠ [] := by simpa using h.nonempty
  simp [ofText, pieces_of_dotFree h.dotFree, hne]

theorem segments_ofText_append (s t : String) :
    (ofText (s ++ "." ++ t)).segments = (ofText s).segments ++ (ofText t).segments := by
  have hchars : (s ++ "." ++ t).toList = s.toList ++ '.' :: t.toList := by simp
  simp only [ofText, hchars, pieces_append, List.filter_append, List.map_append]

/-- The joined text of segments is read segment by segment. -/
theorem segments_ofText_joined (ss : List String) :
    (ofText (joined ss)).segments = ss.flatMap fun s => (ofText s).segments := by
  induction ss with
  | nil => rfl
  | cons s ss ih =>
    cases ss with
    | nil => simp [joined]
    | cons t ss => rw [List.flatMap_cons, ← ih, joined, segments_ofText_append]

/-- A path all of whose segments are kept apart by its text. -/
def Plain (p : Path) : Prop := ∀ s ∈ p.segments, PlainSegment s

instance (p : Path) : Decidable p.Plain :=
  inferInstanceAs (Decidable (∀ s ∈ p.segments, PlainSegment s))

theorem plain_ofText (s : String) : (ofText s).Plain := fun _ => plainSegment_of_mem_ofText

theorem Plain.ofText_text {p : Path} (h : p.Plain) : ofText p.text = p := by
  obtain ⟨segments⟩ := p
  have hread : (ofText (joined segments)).segments = segments := by
    rw [segments_ofText_joined]
    induction segments with
    | nil => rfl
    | cons s ss ih =>
      obtain ⟨hs, hss⟩ := List.forall_mem_cons.mp h
      rw [List.flatMap_cons, hs.segments_ofText, ih hss, List.singleton_append]
  exact congrArg Path.mk hread

theorem Plain.eq_of_reference_eq {p q : Path} (hp : p.Plain) (hq : q.Plain)
    (h : p.reference = q.reference) : p = q := by
  have htext : p.text = q.text := (String.append_right_inj "$").mp h
  calc p = ofText p.text := hp.ofText_text.symm
    _ = ofText q.text := by rw [htext]
    _ = q := hq.ofText_text

/-- A path is read back from its text exactly if its segments are not empty and hold no dot. So
different paths of this kind have different references, and the text of a path that has been read is
read as that path again. -/
theorem text_reads_back :
    (∀ p : Path, ofText p.text = p ↔ p.Plain) ∧
      (∀ p q : Path, p.Plain → q.Plain → p.reference = q.reference → p = q) ∧
      ∀ s : String, ofText (ofText s).text = ofText s := by
  refine ⟨fun p => ⟨fun h => ?_, Plain.ofText_text⟩, fun p q => Plain.eq_of_reference_eq,
    fun s => (plain_ofText s).ofText_text⟩
  rw [← h]
  exact plain_ofText p.text

/-- A path to a city is read back, and one with the dot inside a segment is not. Two plain paths
into an address are told apart, and a text with surplus dots is read as its path is read again. -/
theorem city_reads_back :
    ofText (text ⟨["home", "city"]⟩) = ⟨["home", "city"]⟩ ∧
      ofText (text ⟨["home.city"]⟩) ≠ ⟨["home.city"]⟩ ∧
      reference ⟨["home", "city"]⟩ ≠ reference ⟨["home", "zip"]⟩ ∧
      ofText (text (ofText ".home..city.")) = ofText ".home..city." := by
  obtain ⟨hread, hinjective, hagain⟩ := text_reads_back
  refine ⟨(hread _).mpr (by decide), fun h => ?_, fun h => ?_, hagain _⟩
  · exact absurd ((hread _).mp h) (by decide)
  · exact absurd (hinjective _ _ (by decide) (by decide) h) (by decide)

-- Without plain segments the reference does not tell two paths apart.
example : reference ⟨["home.city"]⟩ = reference ⟨["home", "city"]⟩ := by decide

end QueryStage.Path
