/-!
# Entries in insertion order

Keyed entries with the order of first insertion. Documents, decoder members and constructor
arguments are all of this form. Setting a key that is already present replaces the value where it
stands; a new key goes to the end.
-/

namespace QueryStage

/-- Values under text keys, in insertion order. -/
abbrev Entries (α : Type) := List (String × α)

namespace Entries

variable {α β : Type}

/-- The value of the first entry with this key. -/
def get? (key : String) : Entries α → Option α
  | [] => none
  | (k, a) :: es => if k = key then some a else get? key es

def keys (es : Entries α) : List String := es.map Prod.fst

def contains (es : Entries α) (key : String) : Bool := es.keys.contains key

/-- Sets a key, in place if it is present and at the end otherwise. -/
def insert (key : String) (value : α) : Entries α → Entries α
  | [] => [(key, value)]
  | (k, a) :: es => if k = key then (k, value) :: es else (k, a) :: insert key value es

def erase (key : String) (es : Entries α) : Entries α := es.filter (fun e => e.1 ≠ key)

def extend (base es : Entries α) : Entries α := es.foldl (fun acc e => acc.insert e.1 e.2) base

/-- Collects pairs one after another, so a repeated key keeps its first place and its last value. -/
def collect (es : List (String × α)) : Entries α := extend [] es

@[simp] theorem get?_nil (key : String) : get? key ([] : Entries α) = none := rfl

@[simp] theorem get?_cons_self (key : String) (a : α) (es : Entries α) :
    get? key ((key, a) :: es) = some a := by
  simp [get?]

theorem get?_cons_of_ne {k key : String} (h : k ≠ key) (a : α) (es : Entries α) :
    get? key ((k, a) :: es) = get? key es := by
  simp [get?, h]

theorem get?_insert (key other : String) (value : α) (es : Entries α) :
    get? other (insert key value es) = if key = other then some value else get? other es := by
  induction es with
  | nil => simp [insert, get?]
  | cons e es ih =>
    obtain ⟨k, a⟩ := e
    by_cases hk : k = key
    · subst hk
      by_cases ho : k = other <;> simp [insert, get?, ho]
    · rw [insert, if_neg hk, get?, get?, ih]
      by_cases ho : key = other
      · subst ho
        simp [hk]
      · simp [ho]

theorem keys_insert (key : String) (value : α) (es : Entries α) :
    (insert key value es).keys = if key ∈ es.keys then es.keys else es.keys ++ [key] := by
  induction es with
  | nil => simp [insert, keys]
  | cons e es ih =>
    obtain ⟨k, a⟩ := e
    by_cases hk : k = key
    · subst hk
      simp [insert, keys]
    · have hk' : ¬ key = k := fun h => hk h.symm
      simp only [keys] at ih
      by_cases hm : key ∈ es.map Prod.fst <;> simp_all [insert, keys]

theorem nodup_keys_insert {es : Entries α} (h : es.keys.Nodup) (key : String) (value : α) :
    (insert key value es).keys.Nodup := by
  rw [keys_insert]
  split
  · exact h
  · rename_i hk
    simp only [List.nodup_append, List.nodup_cons, List.mem_singleton]
    exact ⟨h, by simp, fun a ha b hb => by rintro rfl; exact hk (hb ▸ ha)⟩

theorem get?_eq_none_iff (key : String) (es : Entries α) :
    get? key es = none ↔ key ∉ es.keys := by
  induction es with
  | nil => simp [keys]
  | cons e es ih =>
    obtain ⟨k, a⟩ := e
    by_cases hk : k = key
    · subst hk
      simp [get?, keys]
    · have hk' : ¬ key = k := fun h => hk h.symm
      simp_all [get?, keys]

end Entries

end QueryStage
