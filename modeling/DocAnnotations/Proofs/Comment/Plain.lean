import DocAnnotations.Proofs.Comment.Position

/-! The values of annotations without an argument list, and where they end. -/
namespace DocAnnotations.Comment

open Text

/-- The text from a position on up to another. -/
def slice (t : List Char) (a b : Nat) : List Char :=
  (t.drop a).take (b - a)

/-- The value of an annotation whose name ends in front of `a`: it ends at the next at sign at a word
boundary, and it is all of the text up to the next annotation exactly if that at sign begins one. -/
structure PlainValue (t : List Char) (a : Nat) (f : Fragment) (e next : Nat) : Prop where
  sigil : FirstFrom (IsSigil t) t a e
  begins : FirstFrom (Begins t) t a next
  children_eq : f.children = []
  raw_eq : f.raw.toList = trim (slice t a e)
  raw_eq_iff : f.raw.toList = trim (slice t a next) ↔ (e < t.length → Begins t e)

variable {t behind : List Char} {P Q : Nat → Prop} {a b e next : Nat}

section First

theorem exists_firstFrom (P : Nat → Prop) (h : a ≤ t.length) : ∃ e, FirstFrom P t a e := by
  classical
  by_cases hex : ∃ k, a ≤ k ∧ k < t.length ∧ P k
  · obtain ⟨hle, hlt, hP⟩ := Nat.find_spec hex
    exact ⟨Nat.find hex, hle, hlt.le, fun k hk hlt' hPk => Nat.find_min hex hlt' ⟨hk, by omega, hPk⟩,
      fun _ => hP⟩
  · exact ⟨t.length, h, Nat.le_refl _, fun k hk hlt hPk => hex ⟨k, hk, hlt, hPk⟩,
      fun hlt => (Nat.lt_irrefl _ hlt).elim⟩

/-- What holds at fewer positions is found no earlier. -/
theorem FirstFrom.le_of_imp (h : FirstFrom P t a e) (h' : FirstFrom Q t a next)
    (himp : ∀ k, Q k → P k) : e ≤ next := by
  by_contra hlt
  have hlt : next < e := Nat.lt_of_not_le hlt
  exact h.before next h'.le hlt (himp next (h'.found (hlt.trans_le h.le_length)))

theorem FirstFrom.eq_iff (h : FirstFrom P t a e) (h' : FirstFrom Q t a next)
    (himp : ∀ k, Q k → P k) : next = e ↔ (e < t.length → Q e) := by
  constructor
  · rintro rfl
    exact h'.found
  · intro hQ
    refine Nat.le_antisymm (Nat.le_of_not_lt fun hlt => ?_) (h.le_of_imp h' himp)
    exact h'.before e h.le hlt (hQ (hlt.trans_le h'.le_length))

end First

section Slice

theorem slice_append (t : List Char) {c : Nat} (hab : a ≤ b) (hbc : b ≤ c) :
    slice t a c = slice t a b ++ slice t b c := by
  have hlength : c - a = (b - a) + (c - b) := by omega
  rw [slice, hlength, List.take_add, List.drop_drop, Nat.add_sub_cancel' hab]
  rfl

theorem mem_slice {c : Char} (hc : t[a]? = some c) (hab : a < b) : c ∈ slice t a b := by
  refine List.mem_of_getElem? (i := 0) ?_
  rw [slice, List.getElem?_take_of_lt (Nat.sub_pos_of_lt hab), List.getElem?_drop]
  exact hc

/-- A text that goes on behind an at sign is another, also when both are trimmed. -/
theorem trim_slice_ne (hsign : t[e]? = some '@') (hae : a ≤ e) (hlt : e < next) :
    trim (slice t a e) ≠ trim (slice t a next) := by
  intro heq
  have hcount := congrArg (List.count '@') heq
  rw [count_trim (by decide), count_trim (by decide), slice_append t hae hlt.le,
    List.count_append] at hcount
  have hpos := List.count_pos_iff.mpr (mem_slice hsign hlt)
  omega

theorem slice_of_drop {cs rest : List Char} (h : t.drop a = cs ++ rest) :
    slice t a (a + cs.length) = cs := by
  rw [slice, h, Nat.add_sub_cancel_left, List.take_left]

/-- The text is cut where the next at sign at a word boundary stands. -/
theorem slice_splitAtSigil (h : t.drop a = behind) :
    slice t a (a + (splitAtSigil false behind).1.length) = (splitAtSigil false behind).1 :=
  slice_of_drop (h.trans (splitAtSigil_append false behind).symm)

end Slice

theorem exists_plainValue {p : Nat} {o : Occurrence} (h : NameAt t p o.name o.behind)
    (hopen : ¬ o.HasList) :
    ∃ e next, PlainValue t (p + 1 + o.name.length) (o.fragment .withChildren) e next := by
  have hsigil := firstFrom_splitAtSigil false h.drop_behind h.le_length fun _ => by
    simpa using h.not_atBoundary
  obtain ⟨next, hnext⟩ := exists_firstFrom (Begins t) h.le_length
  have hslice := slice_splitAtSigil h.drop_behind
  have hplain : o.fragment .withChildren =
      Comment.fragment o.name (splitAtSigil false o.behind).1 [] := if_neg hopen
  generalize p + 1 + o.name.length = a at hsigil hnext hslice ⊢
  generalize a + (splitAtSigil false o.behind).1.length = e at hsigil hslice
  have hraw : (o.fragment .withChildren).raw.toList = trim (slice t a e) := by
    rw [hplain, Comment.fragment, String.toList_ofList, hslice]
  refine ⟨e, next, hsigil, hnext, by rw [hplain]; rfl, hraw, ?_⟩
  rw [hraw]
  have heq := hsigil.eq_iff hnext fun k => And.left
  constructor
  · intro htrim hlt
    by_contra hbegins
    have hle := hsigil.le_of_imp hnext fun k => And.left
    have hne : e ≠ next := fun h => hbegins (heq.mp h.symm hlt)
    exact trim_slice_ne (hsigil.found hlt).1 hsigil.le (Nat.lt_of_le_of_ne hle hne) htrim
  · intro hbegins
    rw [heq.mpr hbegins]

/-- The value of an annotation without an argument list is the text behind its name up to the next at
sign at a word boundary, or to the end of the text. It is all of the text up to the next annotation
exactly if that at sign begins an annotation. -/
theorem raw_up_to_sigil (comment : String) :
    ∃ ps, Annotated (undecorate comment.toList) ps ∧
      List.Forall₂ (fun p f => ∃ behind,
        NameAt (undecorate comment.toList) p f.name.toList behind ∧
        (behind.head? ≠ some '(' → ∃ e next,
          PlainValue (undecorate comment.toList) (p + 1 + f.name.toList.length) f e next))
        ps (fragments comment) := by
  refine exists_annotated_fragments comment fun p o hat => ?_
  rw [o.name_fragment, String.toList_ofList]
  exact exists_plainValue hat

/-- An at sign that begins no annotation ends the value, and the text behind it is lost. -/
theorem raw_lone_sigil :
    ∃ f ∈ fragments "/** @var foo @ bar */",
      NameAt (undecorate "/** @var foo @ bar */".toList) 1 f.name.toList " foo @ bar ".toList ∧
      FirstFrom (Begins (undecorate "/** @var foo @ bar */".toList))
        (undecorate "/** @var foo @ bar */".toList) 5 16 ∧
      f.raw = "foo" ∧
      trim (slice (undecorate "/** @var foo @ bar */".toList) 5 16) = "foo @ bar".toList := by
  have htext : undecorate "/** @var foo @ bar */".toList = " @var foo @ bar ".toList := by
    decide
  have hmem : fragments "/** @var foo @ bar */" = [⟨"var", "foo", []⟩] := by decide +kernel
  rw [htext, hmem]
  have hnone : ∀ k < 16, 5 ≤ k → ¬ Begins " @var foo @ bar ".toList k := by decide
  have hcut : cutName "var foo @ bar ".toList = some ("var".toList, " foo @ bar ".toList) := by
    decide
  refine ⟨_, List.mem_singleton_self _, ?_, ?_, rfl, by decide⟩
  · exact nameAt_of_cutName (by decide) hcut
  · exact ⟨by decide, by decide, fun k hk hlt => hnone k hlt hk, by decide⟩

end DocAnnotations.Comment
