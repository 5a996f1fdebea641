import DocAnnotations.Proofs.Argument.Grammar

/-! Which token lists have a structure, bracket check included. -/
namespace DocAnnotations.Argument

mutual

/-- The number of groups around the innermost part of a term. -/
def Term.depth : Term → Nat
  | .text _ | .word _ => 0
  | .group _ elements => elementsDepth elements + 1

def elementsDepth : List (Option String × Term) → Nat
  | [] => 0
  | (_, term) :: rest => max term.depth (elementsDepth rest)

end

theorem checkBalance_punct {c : Char} (hc : c = ',' ∨ c = '=') (openGroups : List Bracket)
    (tokens : List Token) :
    checkBalance openGroups (.punct c :: tokens) = checkBalance openGroups tokens := by
  rcases hc with rfl | rfl <;> rfl

theorem checkBalance_label {key : Token} {label : String} (h : key.label? = some label)
    (openGroups : List Bracket) (tokens : List Token) :
    checkBalance openGroups (key :: tokens) = checkBalance openGroups tokens := by
  cases key with
  | punct c => simp [Token.label?] at h
  | text s => rfl
  | word s => rfl

theorem checkBalance_opener (bracket : Bracket) (openGroups : List Bracket)
    (tokens : List Token) :
    checkBalance openGroups (.punct bracket.opener :: tokens) =
      if checkBalance.maxNesting ≤ openGroups.length then some .tooDeep
      else checkBalance (bracket :: openGroups) tokens := by
  simp [checkBalance, ofOpener?_opener]

theorem checkBalance_closer (bracket : Bracket) (openGroups : List Bracket)
    (tokens : List Token) :
    checkBalance (bracket :: openGroups) (.punct bracket.closer :: tokens) =
      checkBalance openGroups tokens := by
  cases bracket <;> simp [checkBalance, Bracket.ofOpener?, Bracket.closer]

mutual

/-- The brackets of a term are in order. Only its depth counts. -/
theorem checkBalance_spelled : ∀ {term : Term} {tokens : List Token}, term.Spelled tokens →
    ∀ openGroups : List Bracket, openGroups.length ≤ checkBalance.maxNesting → ∀ rest,
      checkBalance openGroups (tokens ++ rest) =
        if openGroups.length + term.depth ≤ checkBalance.maxNesting then
          checkBalance openGroups rest
        else some .tooDeep
  | _, _, .text s => by
    intro openGroups hn rest
    simp [Term.depth, hn, checkBalance]
  | _, _, .word s => by
    intro openGroups hn rest
    simp [Term.depth, hn, checkBalance]
  | _, _, @Term.Spelled.group bracket elements tokens h => by
    intro openGroups hn rest
    rw [List.cons_append, List.append_assoc, checkBalance_opener, Term.depth]
    split
    next hmax => rw [if_neg (by omega)]
    next hmax =>
      rw [checkBalance_elements h (bracket :: openGroups) (by simp; omega)]
      simp only [List.length_cons, List.singleton_append, checkBalance_closer]
      congr 1
      simp only [eq_iff_iff]
      omega

theorem checkBalance_elements : ∀ {bracket : Bracket} {separated : Bool}
    {elements : List (Option String × Term)} {tokens : List Token},
    ElementsSpelled bracket separated elements tokens →
    ∀ openGroups : List Bracket, openGroups.length ≤ checkBalance.maxNesting → ∀ rest,
      checkBalance openGroups (tokens ++ rest) =
        if openGroups.length + elementsDepth elements ≤ checkBalance.maxNesting then
          checkBalance openGroups rest
        else some .tooDeep
  | _, _, _, _, .nil => by
    intro openGroups hn rest
    simp [elementsDepth, hn]
  | _, _, _, _, .comma h => by
    intro openGroups hn rest
    rw [List.cons_append, checkBalance_punct (Or.inl rfl), checkBalance_elements h _ hn]
  | _, _, _, _, .unkeyed _ ht h => by
    intro openGroups hn rest
    rw [← List.cons_append, List.append_assoc, checkBalance_spelled ht _ hn, elementsDepth]
    split
    next ht => rw [checkBalance_elements h _ hn]; congr 1; simp only [eq_iff_iff]; omega
    next ht => rw [if_neg (by omega)]
  | _, _, _, _, .keyed _ hk ht h => by
    intro openGroups hn rest
    rw [List.cons_append, checkBalance_label hk, List.cons_append,
      checkBalance_punct (Or.inr rfl), List.append_assoc, checkBalance_spelled ht _ hn,
      elementsDepth]
    split
    next ht => rw [checkBalance_elements h _ hn]; congr 1; simp only [eq_iff_iff]; omega
    next ht => rw [if_neg (by omega)]

end

/-- Tokens have a structure exactly if they spell it and groups nest no deeper than is allowed. -/
theorem ofTokens_eq_ok_iff {tokens : List Token} {term : Term} :
    Term.ofTokens tokens = .ok term ↔
      term.Spelled tokens ∧ term.depth ≤ checkBalance.maxNesting := by
  have hbalance : term.Spelled tokens → (checkBalance [] tokens = none ↔
      term.depth ≤ checkBalance.maxNesting) := by
    intro h
    have hb := checkBalance_spelled h [] (by simp) []
    rw [List.append_nil] at hb
    rw [hb]
    split <;> simp_all [checkBalance]
  unfold Term.ofTokens
  constructor
  · intro h
    split at h
    next => cases h
    next hn =>
      have hs := State.read_start_eq_ok_iff.mp h
      exact ⟨hs, (hbalance hs).mp hn⟩
  · rintro ⟨hs, hd⟩
    rw [(hbalance hs).mpr hd]
    exact State.read_start_eq_ok_iff.mpr hs

end DocAnnotations.Argument
