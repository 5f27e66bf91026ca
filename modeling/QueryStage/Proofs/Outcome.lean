import Mathlib.Data.List.Forall2

/-!
# Outcomes of steps

What a successful sequence of steps says about each of its steps. Binding, decoder inference,
lowering and decoding all run in `Except`, and later modules take them apart with these lemmas.
-/

namespace QueryStage

variable {ε α β : Type}

theorem bind_eq_ok_iff {x : Except ε α} {f : α → Except ε β} {b : β} :
    (x >>= f) = .ok b ↔ ∃ a, x = .ok a ∧ f a = .ok b := by
  cases x with
  | error e => simp [bind, Except.bind]
  | ok a => simp [bind, Except.bind]

theorem ok_bind (a : α) (f : α → Except ε β) : (Except.ok a >>= f) = f a := rfl

theorem pure_eq_ok (a : α) : (pure a : Except ε α) = .ok a := rfl

theorem mapM_eq_ok_iff {f : α → Except ε β} {xs : List α} {ys : List β} :
    xs.mapM f = .ok ys ↔ List.Forall₂ (fun x y => f x = .ok y) xs ys := by
  induction xs generalizing ys with
  | nil =>
    rw [List.mapM_nil, pure_eq_ok, List.forall₂_nil_left_iff]
    exact ⟨fun h => by cases h; rfl, fun h => by rw [h]⟩
  | cons x xs ih =>
    simp only [List.mapM_cons, bind_eq_ok_iff, pure_eq_ok, Except.ok.injEq]
    constructor
    · rintro ⟨y, hy, ys', hys, rfl⟩
      exact .cons hy (ih.mp hys)
    · intro h
      cases h with
      | cons hy hys => exact ⟨_, hy, _, ih.mpr hys, rfl⟩

theorem exists_of_forall₂ {R : α → β → Prop} {as : List α} {bs : List β}
    (h : List.Forall₂ R as bs) {b : β} (hb : b ∈ bs) : ∃ a ∈ as, R a b := by
  induction h with
  | nil => cases hb
  | cons hab _ ih =>
    rcases List.mem_cons.mp hb with rfl | hb
    · exact ⟨_, List.mem_cons_self, hab⟩
    · obtain ⟨a, ha, hab⟩ := ih hb
      exact ⟨a, List.mem_cons_of_mem _ ha, hab⟩

theorem bind_eq_error_iff {x : Except ε α} {f : α → Except ε β} {fault : ε} :
    (x >>= f) = .error fault ↔ x = .error fault ∨ ∃ a, x = .ok a ∧ f a = .error fault := by
  cases x with
  | error e => simp [bind, Except.bind]
  | ok a => simp [bind, Except.bind]

theorem exists_of_mapM_eq_error {f : α → Except ε β} {xs : List α} {fault : ε}
    (h : xs.mapM f = .error fault) : ∃ x ∈ xs, f x = .error fault := by
  induction xs with
  | nil =>
    rw [List.mapM_nil] at h
    cases h
  | cons x xs ih =>
    rw [List.mapM_cons, bind_eq_error_iff] at h
    rcases h with h | ⟨y, -, h⟩
    · exact ⟨x, List.mem_cons_self, h⟩
    · rcases bind_eq_error_iff.mp h with h | ⟨ys, -, h⟩
      · obtain ⟨x, hx, hfault⟩ := ih h
        exact ⟨x, List.mem_cons_of_mem _ hx, hfault⟩
      · cases h

/-- Two outcomes are the same fault, or two results that are related. -/
inductive Lifted (R : α → β → Prop) : Except ε α → Except ε β → Prop
  | ok {a : α} {b : β} (h : R a b) : Lifted R (.ok a) (.ok b)
  | error (fault : ε) : Lifted R (.error fault) (.error fault)

namespace Lifted

variable {γ δ : Type} {R : α → β → Prop} {S : γ → δ → Prop}

theorem bind {x : Except ε α} {y : Except ε β} {f : α → Except ε γ} {g : β → Except ε δ}
    (h : Lifted R x y) (hnext : ∀ a b, R a b → Lifted S (f a) (g b)) :
    Lifted S (x >>= f) (y >>= g) := by
  cases h with
  | ok h => exact hnext _ _ h
  | error fault => exact .error fault

theorem mapM {f : γ → Except ε α} {g : δ → Except ε β} {xs : List γ} {ys : List δ}
    (h : List.Forall₂ (fun x y => Lifted R (f x) (g y)) xs ys) :
    Lifted (List.Forall₂ R) (xs.mapM f) (ys.mapM g) := by
  induction h with
  | nil =>
    rw [List.mapM_nil, List.mapM_nil]
    exact .ok .nil
  | cons hxy _ ih =>
    rw [List.mapM_cons, List.mapM_cons]
    exact hxy.bind fun _ _ hab => ih.bind fun _ _ habs => .ok (.cons hab habs)

theorem refl (x : Except ε α) : Lifted Eq x x := by
  cases x with
  | ok a => exact .ok rfl
  | error fault => exact .error fault

theorem mono {x : Except ε α} {y : Except ε β} {R' : α → β → Prop} (h : Lifted R x y)
    (hR : ∀ a b, R a b → R' a b) : Lifted R' x y := by
  cases h with
  | ok h => exact .ok (hR _ _ h)
  | error fault => exact .error fault

theorem of_refl {R : α → α → Prop} (hR : ∀ a, R a a) (x : Except ε α) : Lifted R x x :=
  (refl x).mono fun a _ hab => hab ▸ hR a

theorem symm {x : Except ε α} {y : Except ε β} (h : Lifted R x y) :
    Lifted (fun b a => R a b) y x := by
  cases h with
  | ok h => exact .ok h
  | error fault => exact .error fault

theorem trans {x : Except ε α} {y : Except ε β} {z : Except ε γ} {T : β → γ → Prop}
    (hxy : Lifted R x y) (hyz : Lifted T y z) : Lifted (fun a c => ∃ b, R a b ∧ T b c) x z := by
  cases hxy with
  | error fault => cases hyz; exact .error fault
  | ok hab =>
    cases hyz with
    | ok hbc => exact .ok ⟨_, hab, hbc⟩

/-- What every result of the first has can be used besides the relation. -/
theorem ensuring {x : Except ε α} {y : Except ε β} {P : α → Prop} (h : Lifted R x y)
    (hP : ∀ a, x = .ok a → P a) : Lifted (fun a b => R a b ∧ P a) x y := by
  cases h with
  | ok h => exact .ok ⟨h, hP _ rfl⟩
  | error fault => exact .error fault

/-- A relation has to be shown only where the first has a result. -/
theorem of_ok {x : Except ε α} {y : Except ε β} {R' : α → β → Prop} (h : Lifted R x y)
    (hok : ∀ a, x = .ok a → Lifted R' x y) : Lifted R' x y := by
  cases h with
  | ok h => exact hok _ rfl
  | error fault => exact .error fault

theorem eq {x y : Except ε α} {R : α → α → Prop} (h : Lifted R x y) (hR : ∀ a b, R a b → a = b) :
    x = y := by
  cases h with
  | ok h => rw [hR _ _ h]
  | error fault => rfl

theorem map_eq {x : Except ε α} {y : Except ε β} {f : α → β} (h : Lifted R x y)
    (hR : ∀ a b, R a b → f a = b) : x.map f = y := by
  cases h with
  | ok h => rw [Except.map, hR _ _ h]
  | error fault => rfl

theorem exists_ok {x : Except ε α} {y : Except ε β} {a : α} (h : Lifted R x y) (hx : x = .ok a) :
    ∃ b, y = .ok b ∧ R a b := by
  cases h with
  | ok h => cases hx; exact ⟨_, rfl, h⟩
  | error fault => cases hx

end Lifted

/-- If there is a result, it has the property. -/
def Ensures (P : α → Prop) (x : Except ε α) : Prop := ∀ a, x = .ok a → P a

namespace Ensures

variable {P : α → Prop} {Q : β → Prop}

theorem ok {a : α} (h : P a) : Ensures P (.ok a : Except ε α) := by
  rintro _ ⟨⟩
  exact h

theorem error (fault : ε) : Ensures P (.error fault : Except ε α) := nofun

theorem bind {x : Except ε α} {f : α → Except ε β} (h : Ensures P x)
    (hnext : ∀ a, P a → Ensures Q (f a)) : Ensures Q (x >>= f) := by
  cases x with
  | ok a => exact hnext a (h a rfl)
  | error fault => exact .error fault

theorem mapM {γ : Type} {f : γ → Except ε α} {xs : List γ} (h : ∀ x ∈ xs, Ensures P (f x)) :
    Ensures (fun ys => ∀ y ∈ ys, P y) (xs.mapM f) := by
  induction xs with
  | nil =>
    rw [List.mapM_nil]
    exact .ok nofun
  | cons x xs ih =>
    rw [List.mapM_cons]
    refine (h x (by simp)).bind fun y hy => ?_
    refine (ih fun x hx => h x (List.mem_cons_of_mem _ hx)).bind fun ys hys => ?_
    exact .ok (List.forall_mem_cons.mpr ⟨hy, hys⟩)

end Ensures

end QueryStage
