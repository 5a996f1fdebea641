import DocAnnotations.Proofs.Entries
import DocAnnotations.Schema

/-! Which names meet without regard to case and underscores, and where only one candidate can. -/
namespace DocAnnotations

namespace Text

variable {cs : List Char} {s t : String}

def IsAscii (s : String) : Prop :=
  ∀ c ∈ s.toList, c.toNat < 128

-- Named, as there is also an instance that goes through all characters.
instance (s : String) : Decidable (IsAscii s) :=
  List.decidableBAll (Char.toNat · < 128) s.toList

/-- What holds of the first 128 characters holds of each ASCII character. -/
theorem ascii_induction {P : Char → Prop} (h : ∀ n < 128, P (Char.ofNat n)) {c : Char}
    (hc : c.toNat < 128) : P c := by
  have := h c.toNat hc
  rwa [Char.ofNat_toNat] at this

theorem eq_of_ofNat_eq_underscore {n : Nat} (h : Char.ofNat n = '_') : n = 95 := by
  by_cases hvalid : n.isValidChar
  · rw [Char.ofNat, dif_pos hvalid] at h
    exact congrArg Char.toNat h
  · rw [Char.ofNat, dif_neg hvalid] at h
    exact absurd h (by decide)

/-- No letter has an underscore for its small form. -/
theorem underscore_mem_lowerChar_iff {c : Char} : '_' ∈ lowerChar c ↔ c = '_' := by
  by_cases hc : c.toNat < 128
  · rw [lowerChar, if_pos hc, List.mem_singleton, eq_comm]
    exact ascii_induction (P := fun c => c.toLower = '_' ↔ c = '_') (by decide) hc
  have hne : c ≠ '_' := by
    rintro rfl
    exact hc (by decide)
  refine iff_of_false (fun hmem => ?_) hne
  rw [lowerChar, if_neg hc] at hmem
  split at hmem
  next => exact absurd hmem (by decide)
  next =>
    split at hmem
    next shift hshift =>
      have happlies := List.find?_some hshift
      have hfar : ∀ s ∈ caseShifts, 95 < s.first + s.distance ∨ s.last + s.distance < 95 := by
        decide +kernel
      have hfar := hfar shift (List.mem_of_find?_eq_some hshift)
      simp only [CaseShift.applies, Bool.and_eq_true, decide_eq_true_eq] at happlies
      have hcode := eq_of_ofNat_eq_underscore (List.mem_singleton.mp hmem).symm
      omega
    next => exact hne (List.mem_singleton.mp hmem).symm

/-- Without the capital sigma, no character looks at those around it. -/
theorem lowerFrom_of_no_sigma (h : 'Σ' ∉ cs) (seen : List Char) :
    lowerFrom seen cs = cs.flatMap lowerChar := by
  induction cs generalizing seen with
  | nil => rfl
  | cons c cs ih =>
    have hne : c ≠ 'Σ' := by
      rintro rfl
      exact h List.mem_cons_self
    rw [lowerFrom, if_neg hne, ih fun hm => h (List.mem_cons_of_mem c hm), List.flatMap_cons]

theorem small_sigma_mem (h : 'Σ' ∈ cs) (seen : List Char) :
    'σ' ∈ lowerFrom seen cs ∨ 'ς' ∈ lowerFrom seen cs := by
  induction cs generalizing seen with
  | nil => cases h
  | cons c cs ih =>
    rw [lowerFrom, List.mem_append, List.mem_append]
    rcases List.mem_cons.mp h with rfl | h
    · rw [if_pos rfl]
      split <;> simp
    · exact (ih h (c :: seen)).imp .inr .inr

theorem filter_flatMap_lowerChar (cs : List Char) :
    (cs.flatMap lowerChar).filter (· ≠ '_') = (cs.filter (· ≠ '_')).flatMap lowerChar := by
  induction cs with
  | nil => rfl
  | cons c cs ih =>
    rw [List.flatMap_cons, List.filter_append, ih]
    by_cases hc : c = '_'
    · subst hc
      have hsmall : lowerChar '_' = ['_'] := by decide
      simp [hsmall]
    · have hkept : (lowerChar c).filter (· ≠ '_') = lowerChar c := by
        rw [List.filter_eq_self]
        intro d hd
        rw [decide_eq_true_eq]
        rintro rfl
        exact hc (underscore_mem_lowerChar_iff.mp hd)
      rw [hkept, List.filter_cons_of_pos (by simpa using hc), List.flatMap_cons]

namespace IsAscii

theorem no_sigma (h : IsAscii s) : 'Σ' ∉ s.toList := fun hm =>
  absurd (h 'Σ' hm) (by decide)

theorem lower (h : IsAscii s) : IsAscii (lower s) := by
  intro c hc
  rw [Text.lower, String.toList_ofList, lowerFrom_of_no_sigma h.no_sigma, List.mem_flatMap] at hc
  obtain ⟨d, hd, hc⟩ := hc
  have hd := h d hd
  rw [lowerChar, if_pos hd, List.mem_singleton] at hc
  rw [hc]
  exact ascii_induction (P := fun d => d.toLower.toNat < 128) (by decide) hd

end IsAscii

/-- A text whose lower case is ASCII may still hold other characters, but no capital sigma. -/
theorem no_sigma_of_lower (h : IsAscii (lower s)) : 'Σ' ∉ s.toList := by
  intro hm
  rw [IsAscii, lower, String.toList_ofList] at h
  rcases small_sigma_mem hm [] with hsigma | hsigma
  · exact absurd (h _ hsigma) (by decide)
  · exact absurd (h _ hsigma) (by decide)

end Text

namespace Schema

open Text

variable {name c : String} {candidates others : List String}

theorem toList_looseName {s : String} (h : 'Σ' ∉ s.toList) :
    (looseName s).toList = (lower s).toList.filter (· ≠ '_') := by
  have hkept : 'Σ' ∉ s.toList.filter (· ≠ '_') := fun hm => h (List.mem_of_mem_filter hm)
  rw [looseName, lower, lower, String.toList_ofList, String.toList_ofList, String.toList_ofList,
    lowerFrom_of_no_sigma hkept, lowerFrom_of_no_sigma h, filter_flatMap_lowerChar]

/-- Names that differ in case only are the same without case and underscores, if one of them is
ASCII. -/
theorem looseName_eq_of_lower_eq {s t : String} (ht : IsAscii t) (h : lower s = lower t) :
    looseName s = looseName t := by
  have hs : 'Σ' ∉ s.toList := no_sigma_of_lower (h ▸ ht.lower)
  have hchars : (looseName s).toList = (looseName t).toList := by
    rw [toList_looseName hs, toList_looseName ht.no_sigma, h]
  exact String.toList_injective hchars

theorem mem_of_matchName (h : matchName name candidates = some c) : c ∈ candidates := by
  rw [matchName, Option.or_eq_some_iff, Option.or_eq_some_iff] at h
  rcases h with h | ⟨-, h | ⟨-, h⟩⟩ <;> exact List.mem_of_find?_eq_some h

/-- What a name means is the same name without case and underscores. -/
theorem looseName_of_matchName (hascii : IsAscii name ∨ IsAscii c)
    (h : matchName name candidates = some c) : c ∈ candidates ∧ looseName c = looseName name := by
  refine ⟨mem_of_matchName h, ?_⟩
  rw [matchName, Option.or_eq_some_iff, Option.or_eq_some_iff] at h
  rcases h with h | ⟨-, h | ⟨-, h⟩⟩
  · have heq : c = name := by simpa using List.find?_some h
    rw [heq]
  · have hlower : lower c = lower name := by simpa using List.find?_some h
    rcases hascii with hname | hc
    · exact looseName_eq_of_lower_eq hname hlower
    · exact (looseName_eq_of_lower_eq hc hlower.symm).symm
  · simpa using List.find?_some h

/-- A candidate that is the name without case and underscores is found at the latest there. -/
theorem exists_matchName (hc : c ∈ candidates) (h : looseName c = looseName name) :
    ∃ d, matchName name candidates = some d := by
  rw [← Option.isSome_iff_exists, matchName, Option.isSome_or, Option.isSome_or, Bool.or_eq_true,
    Bool.or_eq_true, List.find?_isSome (p := fun c => decide (looseName c = looseName name))]
  exact .inr (.inr ⟨c, hc, decide_eq_true h⟩)

/-- Names in ASCII that differ by more than case and underscores. -/
structure Distinct (names : List String) : Prop where
  ascii : ∀ n ∈ names, IsAscii n
  nodup : (names.map looseName).Nodup

instance (names : List String) : Decidable (Distinct names) :=
  decidable_of_iff (_ ∧ _) ⟨fun ⟨hascii, hnodup⟩ => ⟨hascii, hnodup⟩, fun h => ⟨h.ascii, h.nodup⟩⟩

namespace Distinct

theorem perm (h : Distinct candidates) (hperm : candidates.Perm others) : Distinct others where
  ascii n hn := h.ascii n (hperm.mem_iff.mpr hn)
  nodup := (hperm.map looseName).nodup_iff.mp h.nodup

theorem eq_of_looseName (h : Distinct candidates) {a b : String} (ha : a ∈ candidates)
    (hb : b ∈ candidates) (heq : looseName a = looseName b) : a = b :=
  List.inj_on_of_nodup_map h.nodup ha hb heq

/-- Among distinct candidates there is one that a name can mean, at whichever stage it is found. -/
theorem matchName_eq_some_iff (h : Distinct candidates) :
    matchName name candidates = some c ↔ c ∈ candidates ∧ looseName c = looseName name := by
  have hmatch {d : String} (hd : matchName name candidates = some d) :
      d ∈ candidates ∧ looseName d = looseName name :=
    looseName_of_matchName (.inr (h.ascii d (mem_of_matchName hd))) hd
  refine ⟨hmatch, fun ⟨hc, hloose⟩ => ?_⟩
  obtain ⟨d, hd⟩ := exists_matchName hc hloose
  obtain ⟨hmem, hd'⟩ := hmatch hd
  rw [hd, h.eq_of_looseName hmem hc (hd'.trans hloose.symm)]

/-- The order of distinct candidates does not matter. -/
theorem matchName_perm (h : Distinct candidates) (hperm : candidates.Perm others)
    (name : String) : matchName name candidates = matchName name others := by
  ext c
  rw [h.matchName_eq_some_iff, (h.perm hperm).matchName_eq_some_iff, hperm.mem_iff]

end Distinct

end Schema

end DocAnnotations
