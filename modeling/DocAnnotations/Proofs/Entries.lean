import DocAnnotations.Entries
import Mathlib.Data.List.Nodup

/-! Which keys the entries of a map have. -/
namespace DocAnnotations

namespace Entries

variable {α : Type} {entries : Entries α} {key : String}

theorem hasKey_eq_false_iff : entries.hasKey key = false ↔ entries.get? key = none := by
  induction entries with
  | nil => simp [hasKey, get?]
  | cons e rest ih =>
    by_cases h : e.1 = key
    · simp [hasKey, get?, h]
    · simpa [hasKey, get?, h] using ih

theorem hasKey_iff_mem : entries.hasKey key = true ↔ key ∈ entries.keys := by
  simp [hasKey, keys]

/-- What is written under a key that is not there comes last. -/
theorem insert_of_get?_eq_none (h : entries.get? key = none) (content : α) :
    entries.insert key content = entries ++ [(key, content)] := by
  induction entries with
  | nil => rfl
  | cons e rest ih =>
    by_cases hk : e.1 = key
    · simp [get?, hk] at h
    · simp only [get?, hk, if_false] at h
      simp [insert, hk, ih h]

theorem get?_append (more : Entries α) :
    Entries.get? (entries ++ more) key = (entries.get? key).or (Entries.get? more key) := by
  induction entries with
  | nil => rfl
  | cons e rest ih =>
    rw [List.cons_append, get?, get?]
    split
    · rfl
    · exact ih

theorem get?_append_eq_none_iff {more : Entries α} :
    Entries.get? (entries ++ more) key = none ↔
      entries.get? key = none ∧ Entries.get? more key = none := by
  rw [get?_append, Option.or_eq_none_iff]

theorem mem_of_get? {content : α} (h : entries.get? key = some content) :
    (key, content) ∈ entries := by
  induction entries with
  | nil => cases h
  | cons e rest ih =>
    rw [get?] at h
    split at h
    next hk =>
      cases h
      rw [← hk]
      exact List.mem_cons_self
    next => exact List.mem_cons_of_mem _ (ih h)

theorem mem_erase_iff {e : String × α} : e ∈ entries.erase key ↔ e ∈ entries ∧ key ≠ e.1 := by
  simp [erase, ne_comm]

theorem hasKey_append (more : Entries α) :
    Entries.hasKey (entries ++ more) key = (entries.hasKey key || Entries.hasKey more key) := by
  simp [hasKey]

theorem hasKey_insert_iff (content : α) (other : String) :
    (entries.insert key content).hasKey other = true ↔
      key = other ∨ entries.hasKey other = true := by
  rw [hasKey_iff_mem, hasKey_iff_mem, keys_insert]
  by_cases h : key ∈ entries.keys
  · simp only [h, if_true, iff_or_self]
    rintro rfl
    exact h
  · simp [h, or_comm, eq_comm]

/-- Pairs under distinct keys are the entries that come of them. -/
theorem foldl_insert_of_nodup {pairs : Entries α}
    (h : (entries.keys ++ Entries.keys pairs).Nodup) :
    pairs.foldl (fun entries p => entries.insert p.1 p.2) entries = entries ++ pairs := by
  induction pairs generalizing entries with
  | nil => simp
  | cons p pairs ih =>
    have hp : entries.get? p.1 = none := by
      rw [← hasKey_eq_false_iff, ← Bool.not_eq_true, hasKey_iff_mem]
      exact fun hm => List.disjoint_of_nodup_append h hm (by simp [keys])
    rw [List.foldl_cons, insert_of_get?_eq_none hp, ih (by simpa [keys] using h)]
    simp

theorem ofPairs_of_nodup {pairs : Entries α} (h : pairs.keys.Nodup) : ofPairs pairs = pairs := by
  rw [ofPairs, foldl_insert_of_nodup (by simpa [keys] using h), List.nil_append]

theorem mem_insert {content : α} {e : String × α} (h : e ∈ entries.insert key content) :
    e = (key, content) ∨ e ∈ entries := by
  induction entries with
  | nil => exact .inl (List.mem_singleton.mp h)
  | cons d rest ih =>
    rw [insert] at h
    split at h
    · exact (List.mem_cons.mp h).imp_right (List.mem_cons_of_mem d)
    · rcases List.mem_cons.mp h with rfl | h
      · exact .inr List.mem_cons_self
      · exact (ih h).imp_right (List.mem_cons_of_mem d)

theorem mem_ofPairs {pairs : List (String × α)} {e : String × α} (h : e ∈ ofPairs pairs) :
    e ∈ pairs := by
  have hfold {entries : Entries α} (h : e ∈ pairs.foldl (fun es p => es.insert p.1 p.2) entries) :
      e ∈ entries ∨ e ∈ pairs := by
    clear * - h
    induction pairs generalizing entries with
    | nil => exact .inl h
    | cons p pairs ih =>
      rcases ih h with h | h
      · rcases mem_insert h with rfl | h
        · exact .inr List.mem_cons_self
        · exact .inl h
      · exact .inr (List.mem_cons_of_mem p h)
  exact (hfold h).resolve_left (by simp)

/-- Behind a run of writes, a key holds what was written under it last, or what it held before. -/
theorem get?_foldl_insert (pairs : List (String × α)) (entries : Entries α) (key : String) :
    (pairs.foldl (fun entries p => entries.insert p.1 p.2) entries).get? key =
      (Entries.get? pairs.reverse key).or (entries.get? key) := by
  induction pairs generalizing entries with
  | nil => rfl
  | cons p pairs ih =>
    rw [List.foldl_cons, ih, get?_insert, List.reverse_cons, get?_append, Option.or_assoc]
    by_cases hp : p.1 = key <;> simp [get?, hp]

/-- The last of several contents under one key is the first one from the end. -/
theorem get?_reverse (pairs : List (String × α)) (key : String) :
    Entries.get? pairs.reverse key = ((pairs.filter (·.1 = key)).map (·.2)).getLast? := by
  induction pairs with
  | nil => rfl
  | cons p pairs ih =>
    rw [List.reverse_cons, get?_append, ih]
    by_cases hp : p.1 = key
    · rw [List.filter_cons_of_pos (by simpa using hp), List.map_cons, List.getLast?_cons, get?,
        if_pos hp]
      cases ((pairs.filter (·.1 = key)).map (·.2)).getLast? <;> rfl
    · rw [List.filter_cons_of_neg (by simpa using hp), get?, if_neg hp, get?, Option.or_none]

theorem get?_of_mem {content : α} (hnodup : entries.keys.Nodup) (h : (key, content) ∈ entries) :
    entries.get? key = some content := by
  induction entries with
  | nil => cases h
  | cons e rest ih =>
    obtain ⟨hfresh, hnodup⟩ := List.nodup_cons.mp hnodup
    obtain rfl | h := List.mem_cons.mp h
    · rw [get?, if_pos rfl]
    · have hne : e.1 ≠ key := by
        rintro rfl
        exact hfresh (List.mem_map.mpr ⟨_, h, rfl⟩)
      rw [get?, if_neg hne, ih hnodup h]

/-- Under distinct keys, the order of the entries does not matter. -/
theorem get?_perm {others : Entries α} (h : entries.keys.Nodup) (hperm : entries.Perm others)
    (key : String) : entries.get? key = others.get? key := by
  have hothers : others.keys.Nodup := (hperm.map Prod.fst).nodup_iff.mp h
  ext content
  constructor
  · exact fun hget => get?_of_mem hothers (hperm.mem_iff.mp (mem_of_get? hget))
  · exact fun hget => get?_of_mem h (hperm.mem_iff.mpr (mem_of_get? hget))

/-- Of pairs under distinct keys, one that is written later hides what was there. -/
theorem get?_foldl_insert_of_nodup {pairs : Entries α} (hnodup : pairs.keys.Nodup) :
    Entries.get? (pairs.foldl (fun entries p => entries.insert p.1 p.2) entries) key =
      (Entries.get? pairs key).or (entries.get? key) := by
  rw [get?_foldl_insert, get?_perm hnodup (List.reverse_perm pairs).symm]

section Map

variable {β : Type}

@[simp]
theorem keys_mapContents (f : String → α → β) (entries : Entries α) :
    (entries.mapContents f).keys = entries.keys := by
  simp [mapContents, keys]

theorem mapContents_mapContents {γ : Type} (f : String → α → β) (g : String → β → γ)
    (entries : Entries α) :
    (entries.mapContents f).mapContents g = entries.mapContents fun key a => g key (f key a) := by
  simp [mapContents, Function.comp_def]

theorem insert_mapContents (f : α → β) (entries : Entries α) (key : String) (content : α) :
    (entries.mapContents fun _ => f).insert key (f content) =
      (entries.insert key content).mapContents fun _ => f := by
  induction entries with
  | nil => rfl
  | cons e rest ih =>
    simp only [mapContents, List.map_cons, insert] at ih ⊢
    split
    · rfl
    · rw [ih, List.map_cons]

/-- Contents may be changed before or after they are written under their keys. -/
theorem ofPairs_map (f : α → β) (pairs : List (String × α)) :
    ofPairs (pairs.map fun p => (p.1, f p.2)) = (ofPairs pairs).mapContents fun _ => f := by
  have hfold (entries : Entries α) :
      (pairs.map fun p => (p.1, f p.2)).foldl (fun entries p => entries.insert p.1 p.2)
          (entries.mapContents fun _ => f) =
        (pairs.foldl (fun entries p => entries.insert p.1 p.2) entries).mapContents fun _ => f := by
    induction pairs generalizing entries with
    | nil => rfl
    | cons p pairs ih => rw [List.map_cons, List.foldl_cons, insert_mapContents, ih, List.foldl_cons]
  exact hfold []

end Map

end Entries

end DocAnnotations
