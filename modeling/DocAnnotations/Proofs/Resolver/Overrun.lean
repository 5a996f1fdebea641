import DocAnnotations.Proofs.Argument.Scalars
import DocAnnotations.Proofs.Argument.Spelling
import DocAnnotations.Proofs.Argument.Written
import DocAnnotations.Proofs.Resolver.Failure

/-! A whole number that is too long stops the reading of an ordinary annotation, and nothing else
does. -/
namespace DocAnnotations

namespace Argument

open Text

/-- The text is an argument list, and the first of its numbers that is at fault is too long. -/
def Overruns (raw : String) : Prop :=
  ∃ cs term, trim raw.toList = '(' :: cs ∧ Term.ofText ('(' :: cs) = .ok term ∧
    Overrun term.scalars

/-- A value, or the error that the text has none. -/
def Answers {α : Type} (raw : String) (result : Except Abort α) : Prop :=
  (∃ v, result = .ok v) ∨ ∃ fault, result = .error (.error (malformed (strip raw) fault))

variable {α : Type} {raw : String}

theorem overruns_iff {cs : List Char} {term : Term} (htrim : trim raw.toList = '(' :: cs)
    (ht : Term.ofText ('(' :: cs) = .ok term) :
    Overruns raw ↔ term.fault? = some .oversized := by
  rw [Term.fault?_eq_findSome?, findSome?_eq_oversized_iff]
  constructor
  · rintro ⟨cs', term', htrim', ht', h⟩
    obtain ⟨-, rfl⟩ := List.cons.inj (htrim.symm.trans htrim')
    obtain rfl := Except.ok.inj (ht.symm.trans ht')
    exact h
  · exact fun h => ⟨cs, term, htrim, ht, h⟩

theorem evaluateList_cases (raw : String) :
    Overruns raw ∧ evaluateList raw = .error .oversizedInteger ∨
      ¬ Overruns raw ∧ Answers raw (evaluateList raw) := by
  unfold evaluateList
  split
  next cs htrim =>
    have hstrip : String.ofList ('(' :: cs) = strip raw := by rw [strip, htrim]
    unfold evaluate
    rw [String.toList_ofList, hstrip]
    split
    next fault ht =>
      refine .inr ⟨?_, .inr ⟨fault, rfl⟩⟩
      rintro ⟨cs', term, htrim', ht', -⟩
      obtain ⟨-, rfl⟩ := List.cons.inj (htrim.symm.trans htrim')
      cases ht.symm.trans ht'
    next term ht =>
      rw [overruns_iff htrim ht]
      cases hf : term.fault? with
      | none => exact .inr ⟨by simp, .inl ⟨_, rfl⟩⟩
      | some fault =>
        cases fault with
        | oversized => exact .inl ⟨rfl, rfl⟩
        | foreignDigit => exact .inr ⟨by simp, .inr ⟨_, rfl⟩⟩
  next hopen =>
    refine .inr ⟨?_, .inl ⟨none, rfl⟩⟩
    rintro ⟨cs, -, htrim, -⟩
    exact hopen cs htrim

theorem Answers.map {result : Except Abort α} {β : Type} (f : α → β) (h : Answers raw result) :
    Answers raw (result.map f) := by
  obtain ⟨v, rfl⟩ | ⟨fault, rfl⟩ := h
  · exact .inl ⟨f v, rfl⟩
  · exact .inr ⟨fault, rfl⟩

theorem map_evaluateList_cases (f : Option Value → α) (raw : String) :
    Overruns raw ∧ (evaluateList raw).map f = .error .oversizedInteger ∨
      ¬ Overruns raw ∧ Answers raw ((evaluateList raw).map f) := by
  obtain ⟨h, hstop⟩ | ⟨h, hanswers⟩ := evaluateList_cases raw
  · exact .inl ⟨h, by rw [hstop]; rfl⟩
  · exact .inr ⟨h, hanswers.map f⟩

theorem attributes_cases (raw : String) :
    Overruns raw ∧ attributes raw = .error .oversizedInteger ∨
      ¬ Overruns raw ∧ Answers raw (attributes raw) :=
  map_evaluateList_cases _ raw

theorem positional_cases (raw : String) :
    Overruns raw ∧ positional raw = .error .oversizedInteger ∨
      ¬ Overruns raw ∧ Answers raw (positional raw) :=
  map_evaluateList_cases _ raw

theorem ofText_bare {s : String} (h : Bare s) :
    Term.ofText ('(' :: (s.toList ++ [')'])) = .ok (.group .round [(none, .word s)]) := by
  have hword : ∀ word ∈ [s], SpellsElement word.toList (none, Term.word word) :=
    fun word hword => .unkeyed (.word (lexes_bare (List.mem_singleton.mp hword ▸ h)))
  have hspells := spells_group hword .round
  have hdepth : (Term.group .round [(none, .word s)]).depth ≤ checkBalance.maxNesting :=
    Nat.le_add_left 1 31
  simpa [Bracket.opener, Bracket.closer] using hspells.ofText hdepth

theorem not_shortInteger_toString {n : Int} (h : 10 ^ Numeral.maxDigits ≤ n.natAbs) :
    ¬ ShortInteger (toString n) := by
  intro hshort
  have hlength := hshort (ofWord_toString n) _ _ (Numeral.cut_toString (fun _ => id) n) rfl
  rw [Nat.length_toDigits_le_iff (by decide) (by decide)] at hlength
  omega

/-- An argument list of one number that is too long. -/
theorem overruns_toString {n : Int} (h : 10 ^ Numeral.maxDigits ≤ n.natAbs) :
    Overruns ("(" ++ toString n ++ ")") := by
  have htext : ("(" ++ toString n ++ ")").toList = '(' :: ((toString n).toList ++ [')']) := by
    simp
  refine ⟨_, _, by rw [htext, trim_of_not_blank rfl rfl], ofText_bare (bare_toString n), ?_⟩
  exact ⟨[], toString n, [], rfl, not_shortInteger_toString h, by simp⟩

theorem not_answers_oversizedInteger : ¬ Answers raw (.error .oversizedInteger : Except Abort α) := by
  rintro (⟨v, h⟩ | ⟨fault, h⟩) <;> cases h

end Argument

namespace Resolver

open Argument

variable {raw : String} {schema : Schema}

theorem attributesOf_cases (schema : Schema) (raw : String) :
    Overruns raw ∧ attributesOf schema raw = .error .oversizedInteger ∨
      ¬ Overruns raw ∧ Answers raw (attributesOf schema raw) := by
  unfold attributesOf
  obtain ⟨h, hstop⟩ | ⟨h, ⟨attributes, ha⟩ | ⟨fault, ha⟩⟩ := attributes_cases raw
  · exact .inl ⟨h, by rw [hstop]; rfl⟩
  · refine .inr ⟨h, ?_⟩
    simp only [ha, bind, Except.bind, pure, Except.pure]
    split
    next => exact .inl ⟨_, rfl⟩
    next => exact .inl ⟨_, rfl⟩
    next field _ _ =>
      split
      next => exact .inl ⟨_, rfl⟩
      next =>
        obtain ⟨hover, -⟩ | ⟨-, ⟨v, hv⟩ | ⟨fault, hv⟩⟩ := positional_cases raw
        · exact absurd hover h
        · rw [hv]
          cases v <;> exact .inl ⟨_, rfl⟩
        · exact .inr ⟨fault, by rw [hv]⟩
  · exact .inr ⟨h, .inr ⟨fault, by rw [ha]; rfl⟩⟩

/-- An ordinary type gives way to the annotation kept as text, unless a number is too long. -/
theorem settle_cases (resolver : Resolver) (scope : Option NameScope) (key : DeclarationKey)
    (hp : schema.privileged = false) (name raw : String) (values : List Value) (log : ReadLog) :
    Overruns raw ∧
        (resolver.settle scope key schema name raw values log).1 = .error .oversizedInteger ∨
      ¬ Overruns raw ∧ ∃ v, (resolver.settle scope key schema name raw values log).1 = .ok v := by
  have hkept {e : ReadError} (he : e.privileged = false) (log : ReadLog) :
      (fallBack schema scope key name raw e log).1 = .ok (keep scope (some key) name raw) := by
    rw [fallBack_apply (by rw [he, hp]; rfl), hp]
    rfl
  unfold settle
  obtain ⟨h, hstop⟩ | ⟨h, ⟨attributes, ha⟩ | ⟨fault, ha⟩⟩ := attributesOf_cases schema raw
  · exact .inl ⟨h, by rw [hstop]⟩
  · refine .inr ⟨h, ?_⟩
    simp only [ha, hydrate_apply]
    cases hv : hydrateSchema schema key.text _ with
    | ok v => exact ⟨v, rfl⟩
    | error e => exact ⟨_, hkept ((error_of_hydrateSchema hv).trans hp) _⟩
  · refine .inr ⟨h, ?_⟩
    simp only [ha]
    exact ⟨_, hkept rfl log⟩

/-- Reading an argument text gives a value or the error that it has none, and an ordinary annotation
with this text and without children is made or kept as text. A number that is too long stops
both. -/
theorem overruns_or_answers (raw : String) :
    (Overruns raw ∧ attributes raw = .error .oversizedInteger ∧
        positional raw = .error .oversizedInteger ∨
      ¬ Overruns raw ∧ Answers raw (attributes raw) ∧ Answers raw (positional raw)) ∧
    ∀ (resolver : Resolver) (scope : Option NameScope) (key : DeclarationKey) (name : String)
      (schema : Schema) (log : ReadLog), resolver.typeOf? scope name = some schema →
      schema.privileged = false →
      (Overruns raw ∧
          (resolver.resolve scope key ⟨name, raw, []⟩ log).1 = .error .oversizedInteger ∨
        ¬ Overruns raw ∧ ∃ v, (resolver.resolve scope key ⟨name, raw, []⟩ log).1 = .ok v) := by
  constructor
  · obtain ⟨h, hattributes⟩ | ⟨h, hattributes⟩ := attributes_cases raw
    · obtain ⟨-, hpositional⟩ | ⟨hnot, -⟩ := positional_cases raw
      · exact .inl ⟨h, hattributes, hpositional⟩
      · exact absurd h hnot
    · obtain ⟨hover, -⟩ | ⟨-, hpositional⟩ := positional_cases raw
      · exact absurd hover h
      · exact .inr ⟨h, hattributes, hpositional⟩
  · intro resolver scope key name schema log ht hp
    rw [resolve_of_some ht]
    exact resolver.settle_cases scope key hp name raw [] log

/-- One digit more than is read, as the argument of a registered type. -/
theorem overruns_or_answers_power :
    let raw := "(" ++ toString (10 ^ Numeral.maxDigits : Int) ++ ")"
    let inner : Schema := ⟨"Inner", Factory.model "Inner" [⟨"x", .integer, some (.int 0)⟩], [],
      ["x"], [], none, false⟩
    let resolver : Resolver := { registry := ⟨[("Inner", inner)]⟩ }
    resolver.typeOf? none "Inner" = some inner ∧ inner.privileged = false ∧
      attributes raw = .error .oversizedInteger ∧ positional raw = .error .oversizedInteger ∧
      (resolver.resolve none { className := "Host" } ⟨"Inner", raw, []⟩ {}).1 =
        .error .oversizedInteger := by
  intro raw inner resolver
  have hover : Overruns raw := overruns_toString (by simp [Int.natAbs_pow])
  have htype : resolver.typeOf? none "Inner" = some inner := by
    have hname : QualifiedName.dropLeading "Inner" = "Inner" := by decide
    simp [typeOf?, qualify, Registry.contains, Registry.get?, Entries.hasKey, Entries.get?, hname,
      resolver]
  obtain ⟨hparse, hresolve⟩ := overruns_or_answers raw
  obtain ⟨-, hattributes, hpositional⟩ | ⟨hnot, -⟩ := hparse
  · obtain ⟨-, hstop⟩ | ⟨hnot, -⟩ :=
      hresolve resolver none { className := "Host" } "Inner" inner {} htype rfl
    · exact ⟨htype, rfl, hattributes, hpositional, hstop⟩
    · exact absurd hover hnot
  · exact absurd hover hnot

/-- Such a number has no value and is no malformed value. -/
theorem attributes_power_not_answers :
    let raw := "(" ++ toString (10 ^ Numeral.maxDigits : Int) ++ ")"
    ¬ Answers raw (attributes raw) ∧ ¬ Answers raw (positional raw) := by
  intro raw
  have hover : Overruns raw := overruns_toString (by simp [Int.natAbs_pow])
  constructor
  · obtain ⟨-, hstop⟩ | ⟨hnot, -⟩ := attributes_cases raw
    · rw [hstop]
      exact not_answers_oversizedInteger
    · exact absurd hover hnot
  · obtain ⟨-, hstop⟩ | ⟨hnot, -⟩ := positional_cases raw
    · rw [hstop]
      exact not_answers_oversizedInteger
    · exact absurd hover hnot

end Resolver

end DocAnnotations
