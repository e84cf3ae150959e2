import Mathlib.Data.List.Basic
import Mathlib.Data.List.Nodup

/-!
# Tables searched from the front

A table with an entry for each key is updated at the place where the key is found, and grows
at its end when it is not. Read by key it is a partial function, of which an update changes
the value at its own key.
-/
namespace Search

section Upsert
variable {α κ : Type*} [DecidableEq κ] (key : α → κ) (new : κ → α) {f : α → α} {k : κ} {l : List α}

/-- The first entry of a key. -/
def entry (l : List α) (k : κ) : Option α := l.find? fun a => key a = k

/-- The entry of a key is updated where it is found, or else a new one at the end. -/
def upsert (f : α → α) (k : κ) (l : List α) : List α :=
  let i := l.findIdx fun a => key a = k
  (if i < l.length then l else l ++ [new k]).modify i f

lemma upsert_nil : upsert key new f k [] = [f (new k)] := rfl

lemma upsert_cons_of_eq {a : α} (h : key a = k) : upsert key new f k (a :: l) = f a :: l := by
  simp [upsert, List.findIdx_cons, h]

lemma upsert_cons_of_ne {a : α} (h : key a ≠ k) :
    upsert key new f k (a :: l) = a :: upsert key new f k l := by
  simp only [upsert, List.findIdx_cons, h, decide_false, cond_false, List.length_cons, Nat.add_lt_add_iff_right]
  split
  · rfl
  · rfl

variable {key new}

/-- Only the entry of the key itself changes. -/
theorem entry_upsert (hnew : ∀ k, key (new k) = k) (hf : ∀ a, key (f a) = key a) (k' : κ) :
    entry key (upsert key new f k l) k' =
      if k' = k then some (f ((entry key l k).getD (new k))) else entry key l k' := by
  induction l with
  | nil =>
    rw [upsert_nil]
    by_cases hk : k' = k
    · subst hk
      simp [entry, hf, hnew]
    · simp [entry, hf, hnew, hk, Ne.symm hk]
  | cons a l ih =>
    by_cases ha : key a = k
    · rw [upsert_cons_of_eq key new ha]
      subst ha
      by_cases hk : k' = key a
      · subst hk
        simp [entry, hf]
      · simp [entry, hf, hk, Ne.symm hk]
    · rw [upsert_cons_of_ne key new ha]
      unfold entry at ih ⊢
      by_cases hk : key a = k'
      · subst hk
        simp [ha]
      · simp [ha, hk, ih]

/-- A key is added only when the table lacks it. -/
theorem keys_upsert (hnew : ∀ k, key (new k) = k) (hf : ∀ a, key (f a) = key a) :
    (upsert key new f k l).map key = if k ∈ l.map key then l.map key else l.map key ++ [k] := by
  induction l with
  | nil => simp [upsert_nil, hf, hnew]
  | cons a l ih =>
    by_cases ha : key a = k
    · rw [upsert_cons_of_eq key new ha]
      simp [hf, ha]
    · rw [upsert_cons_of_ne key new ha, List.map_cons, ih, List.map_cons]
      by_cases hk : k ∈ l.map key
      · rw [if_pos hk, if_pos (List.mem_cons_of_mem _ hk)]
      · rw [if_neg hk, if_neg (by simpa [Ne.symm ha] using hk), List.cons_append]

theorem nodup_upsert (hnew : ∀ k, key (new k) = k) (hf : ∀ a, key (f a) = key a) (h : (l.map key).Nodup) :
    ((upsert key new f k l).map key).Nodup := by
  rw [keys_upsert hnew hf]
  split
  · exact h
  · next hk => exact h.append (List.nodup_singleton k) (by simpa using hk)

/-- Without repeated keys every entry is the one found by its key. -/
lemma entry_of_mem (h : (l.map key).Nodup) {a : α} (ha : a ∈ l) : entry key l (key a) = some a := by
  induction l with
  | nil => cases ha
  | cons b l ih =>
    rw [List.map_cons, List.nodup_cons] at h
    obtain rfl | ha := List.mem_cons.mp ha
    · simp [entry]
    · have hne : key b ≠ key a := fun hb => h.1 (hb ▸ List.mem_map_of_mem ha)
      rw [entry, List.find?_cons_of_neg (by simpa using hne)]
      exact ih h.2 ha

/-- A sweep over the table that takes what it finds under a key. -/
lemma foldl_key {β : Type*} (g : α → β) (b : β) (h : (l.map key).Nodup) :
    l.foldl (fun b a => if key a = k then g a else b) b = ((entry key l k).map g).getD b := by
  induction l generalizing b with
  | nil => rfl
  | cons a l ih =>
    rw [List.map_cons, List.nodup_cons] at h
    rw [List.foldl_cons, ih _ h.2]
    by_cases ha : key a = k
    · subst ha
      have hnone : entry key l (key a) = none := by
        refine List.find?_eq_none.mpr fun c hc => ?_
        have hne : key c ≠ key a := fun hk => h.1 (hk ▸ List.mem_map_of_mem hc)
        simpa using hne
      rw [hnone, if_pos rfl, entry, List.find?_cons_of_pos (by simp)]
      rfl
    · simp [entry, ha]

end Upsert

end Search
