import DocAnnotations.Proofs.Comment.Position
import DocAnnotations.Proofs.Import.Preamble

/-! Annotations of two texts one behind the other, with white space between them. -/
namespace DocAnnotations.Comment

open Text

variable {reader : ArgumentReader} {gap behind tail cs ds name list rest : List Char} {c : Char}
  {level count : Nat} {quote : Option Char} {boundary : Bool} {child : Fragment}

section Blank

theorem isPlain_of_isBlank (h : isBlank c = true) : isPlain c = true := by
  by_contra hplain
  have hmem : c ∈ ['(', ')', '@', '"', '\''] := by
    simpa [isPlain, isQuote, or_iff_not_imp_left] using hplain
  have hall : ['(', ')', '@', '"', '\''].all (!isBlank ·) = true := by decide
  have hnone := List.all_eq_true.mp hall c hmem
  simp [h] at hnone

/-- White space is part of no name. -/
theorem isBlank_of_isName (h : isNameStart c = true ∨ isNameChar c = true) : isBlank c = false := by
  rcases h with h | h
  · simp only [isNameStart, Bool.or_eq_true, decide_eq_true_eq] at h
    rcases h with (halpha | rfl) | rfl
    · exact isBlank_of_isAlpha halpha
    · decide
    · decide
  · simp only [isNameChar, Bool.or_eq_true, decide_eq_true_eq] at h
    rcases h with (((hword | rfl) | rfl) | rfl) | rfl
    · exact Import.isBlank_of_isNamePart (by simp [Import.isNamePart, hword])
    all_goals decide

theorem exists_passive_of_blank (hgap : ∀ c ∈ gap, isBlank c = true) (quote : Option Char) :
    ∃ after, Passive quote gap after := by
  induction gap generalizing quote with
  | nil => exact ⟨quote, .nil⟩
  | cons c gap ih =>
    obtain ⟨after, hafter⟩ := ih (List.forall_mem_cons.mp hgap).2 (quoteAfter quote c)
    have hplain := isPlain_of_isBlank (hgap c List.mem_cons_self)
    refine ⟨after, .cons (fun _ => ?_) hafter⟩
    simp only [isPlain, Bool.not_eq_true', Bool.or_eq_false_iff, decide_eq_false_iff_not] at hplain
    exact ⟨hplain.1.1.1, hplain.1.1.2, hplain.1.2⟩

end Blank

/-- No name goes on with the text. -/
def EndsNames (tail : List Char) : Prop :=
  ∀ c ∈ tail.head?, isNameStart c = false ∧ isNameChar c = false

section Names

theorem endsNames_of_blank (htail : ∀ c ∈ tail.head?, isBlank c = true) : EndsNames tail := by
  intro c hc
  have hblank := htail c hc
  constructor
  · by_contra h
    simp [isBlank_of_isName (.inl (by simpa using h))] at hblank
  · by_contra h
    simp [isBlank_of_isName (.inr (by simpa using h))] at hblank

/-- With more text behind, the same name stands in front, and it has an argument list only if it had
one. -/
structure NameStays (cs tail : List Char) : Prop where
  name : cutName (cs ++ tail) = (cutName cs).map fun p => (p.1, p.2 ++ tail)
  list : ∀ p ∈ cutName cs, (p.2 ++ tail).head? = some '(' → p.2.head? = some '('

theorem NameStays.hasList_iff {o : Occurrence} (h : NameStays cs tail)
    (hname : cutName cs = some (o.name, o.behind)) :
    (⟨o.name, o.behind ++ tail⟩ : Occurrence).HasList ↔ o.HasList := by
  refine ⟨h.list (o.name, o.behind) hname, fun hlist => ?_⟩
  rw [Occurrence.HasList, List.head?_append, hlist]
  rfl

theorem cutName_append_of_endsNames (h : EndsNames tail) (cs : List Char) :
    cutName (cs ++ tail) = (cutName cs).map fun p => (p.1, p.2 ++ tail) := by
  cases cs with
  | nil =>
    cases tail with
    | nil => rfl
    | cons c tail => simp [cutName, (h c rfl).1]
  | cons c cs =>
    have hstops : ∀ d ∈ tail.head?, isNameChar d = false := fun d hd => (h d hd).2
    rw [List.cons_append, cutName, cutName, takeWhile_append_of_head hstops,
      dropWhile_append_of_head hstops]
    split <;> rfl

theorem nameStays_of_endsNames (h : EndsNames tail) (hround : tail.head? ≠ some '(')
    (cs : List Char) : NameStays cs tail := by
  refine ⟨cutName_append_of_endsNames h cs, fun p _ hopen => ?_⟩
  cases hp : p.2 with
  | nil => rw [hp, List.nil_append] at hopen; exact absurd hopen hround
  | cons c behind => rwa [hp] at hopen

theorem nameStays_of_blank (htail : ∀ c ∈ tail.head?, isBlank c = true) (cs : List Char) :
    NameStays cs tail := by
  refine nameStays_of_endsNames (endsNames_of_blank htail) (fun hopen => ?_) cs
  exact absurd (htail '(' hopen) (by decide)

/-- A parenthesis at the end ends the name in front of it. -/
theorem nameStays_of_close (cs rest : List Char) : NameStays (cs ++ [')']) rest := by
  have hends (rest : List Char) : EndsNames (')' :: rest) := by
    rintro c ⟨⟩
    exact ⟨by decide, by decide⟩
  have hfront := cutName_append_of_endsNames (hends []) cs
  have hall := cutName_append_of_endsNames (hends rest) cs
  refine ⟨?_, fun p hp hopen => ?_⟩
  · rw [List.append_assoc, List.singleton_append, hall, hfront, Option.map_map]
    simp [Function.comp_def]
  · rw [hfront] at hp
    obtain ⟨q, -, rfl⟩ := Option.mem_map.mp hp
    simpa using hopen

end Names

section Sigil

theorem splitAtSigil_append_text (boundary : Bool) (cs ds : List Char) :
    splitAtSigil boundary (cs ++ ds) =
      if (splitAtSigil boundary cs).2 = [] then
        ((splitAtSigil boundary cs).1 ++ (splitAtSigil (boundaryAfter boundary cs) ds).1,
          (splitAtSigil (boundaryAfter boundary cs) ds).2)
      else ((splitAtSigil boundary cs).1, (splitAtSigil boundary cs).2 ++ ds) := by
  induction cs generalizing boundary with
  | nil => simp [splitAtSigil, boundaryAfter]
  | cons c cs ih =>
    rw [List.cons_append, splitAtSigil, splitAtSigil]
    by_cases h : c = '@' ∧ boundary = true
    · simp [h]
    · rw [if_neg h, if_neg h, ih, boundaryAfter_cons]
      dsimp only
      split <;> rfl

theorem splitAtSigil_of_noSigil (h : '@' ∉ cs) (boundary : Bool) :
    splitAtSigil boundary cs = (cs, []) := by
  induction cs generalizing boundary with
  | nil => rfl
  | cons c cs ih =>
    obtain ⟨hc, hcs⟩ := not_or.mp (List.mem_cons.not.mp h)
    rw [splitAtSigil, if_neg fun hsigil => hc hsigil.1.symm, ih hcs]

end Sigil

/-! What follows a list that is closed does not matter for it. -/
section Closed

theorem Enclosed.nameStays (h : Enclosed level quote cs) (rest : List Char) :
    NameStays cs rest := by
  obtain ⟨front, rfl⟩ := h.exists_append
  exact nameStays_of_close front rest

theorem cutList_append_of_isList (h : IsList (cutList 0 none cs).1) (rest : List Char) :
    cutList 0 none (cs ++ rest) = ((cutList 0 none cs).1, (cutList 0 none cs).2 ++ rest) := by
  have hcut := cutList_of_isList h ((cutList 0 none cs).2 ++ rest)
  rwa [← List.append_assoc, cutList_append] at hcut

theorem occurrenceAt_append (h : NameStays cs tail) (boundary : Bool) (quote : Option Char)
    (c : Char) : occurrenceAt boundary quote c (cs ++ tail) =
      (occurrenceAt boundary quote c cs).map fun p =>
        (⟨p.1.name, p.1.behind ++ tail⟩, (cutList 0 none (p.1.behind ++ tail)).2) := by
  unfold occurrenceAt
  split
  next =>
    rw [h.name]
    cases hn : cutName cs with
    | none => rfl
    | some p =>
      obtain ⟨name, behind⟩ := p
      have hlist := h.list _ hn
      rcases behind with _ | ⟨d, list⟩
      · have hround : tail.head? ≠ some '(' := by simpa using hlist
        cases tail with
        | nil => rfl
        | cons d tail =>
          have hd : d ≠ '(' := by simpa using hround
          simp [hd]
      · by_cases hd : d = '('
        · subst hd
          rfl
        · simp [hd]
  next => rfl

theorem childAt_append_of_none (h : childAt boundary quote c cs = none)
    (hstays : NameStays cs tail) : childAt boundary quote c (cs ++ tail) = none := by
  rw [childAt_eq, Option.map_eq_none_iff] at h ⊢
  rw [occurrenceAt_append hstays, h, Option.map_none]

theorem exists_of_childAt (h : childAt boundary quote c cs = some (child, rest)) :
    ∃ o, occurrenceAt boundary quote c cs = some (o, rest) ∧
      child = fragment o.name (cutList 0 none o.behind).1 [] := by
  rw [childAt_eq] at h
  obtain ⟨⟨o, more⟩, ho, heq⟩ := Option.map_eq_some_iff.mp h
  cases heq
  exact ⟨o, ho, if_pos (beginsChild_of_occurrenceAt ho).hasList⟩

/-- With more text behind, a child is still one. -/
theorem childAt_append_of_some {o : Occurrence}
    (ho : occurrenceAt boundary quote c cs = some (o, rest)) (hstays : NameStays cs tail) :
    childAt boundary quote c (cs ++ tail) =
      some (fragment o.name (cutList 0 none (o.behind ++ tail)).1 [],
        (cutList 0 none (o.behind ++ tail)).2) := by
  have hchild := beginsChild_of_occurrenceAt ho
  have hlist := (hstays.hasList_iff hchild.name).mpr hchild.hasList
  rw [childAt_eq, occurrenceAt_append hstays, ho]
  exact congrArg (fun f => some (f, _)) (if_pos hlist)

theorem childAt_of_close (h : closesList level quote c = true) (boundary : Bool) (cs : List Char) :
    childAt boundary quote c cs = none := by
  obtain ⟨⟨-, rfl⟩, -⟩ : (quote = none ∧ c = ')') ∧ level = 1 := by simpa [closesList] using h
  rfl

/-- A child within a list that is closed is closed, and the list is closed behind it. -/
theorem BeginsChild.enclosed {o : Occurrence} (h : BeginsChild boundary quote c cs o rest)
    (hlevel : 0 < level) (hcs : Enclosed level quote (c :: cs)) :
    IsList (cutList 0 none o.behind).1 ∧ Enclosed level none rest := by
  obtain ⟨name, behind⟩ := o
  obtain ⟨rfl, -, rfl, hname, hlist, rfl⟩ := h
  obtain ⟨inner, rfl⟩ := List.head?_eq_some_iff.mp hlist
  have hbehind : Enclosed level none (name ++ '(' :: inner) :=
    cutName_append hname ▸ hcs.of_cons rfl
  have hopen : Enclosed (level + 1) none inner :=
    (hbehind.of_passive (passive_of_cutName hname)).of_cons (by simp [closesList])
  obtain ⟨hinner, hrest⟩ := hopen.inner hlevel Nat.one_pos
  exact ⟨isList_cons_iff.mpr hinner, hrest⟩

theorem childAt_append_of_enclosed (h : childAt boundary quote c cs = some (child, rest))
    (hlevel : 0 < level) (hcs : Enclosed level quote (c :: cs)) (behind : List Char) :
    childAt boundary quote c (cs ++ behind) = some (child, rest ++ behind) ∧
      Enclosed level quote rest := by
  obtain ⟨o, ho, rfl⟩ := exists_of_childAt h
  have hchild := beginsChild_of_occurrenceAt ho
  obtain ⟨hlist, hrest⟩ := hchild.enclosed hlevel hcs
  have hinner := hcs.of_cons (by simp [closesList, hchild.sign])
  refine ⟨?_, hchild.unquoted ▸ hrest⟩
  rw [childAt_append_of_some ho (hinner.nameStays behind), cutList_append_of_isList hlist,
    hchild.rest]

theorem cutChildren_append_of_enclosed (hlevel : 0 < level) (h : Enclosed level quote cs)
    (boundary : Bool) (count : Nat) (behind : List Char) :
    cutChildren level quote boundary count (cs ++ behind) =
      { cutChildren level quote boundary count cs with
        rest := (cutChildren level quote boundary count cs).rest ++ behind } := by
  fun_induction cutChildren level quote boundary count cs with
  | case1 => cases h
  | case2 level quote boundary count c cs child rest hc ih =>
    obtain ⟨hchild, hrest⟩ := childAt_append_of_enclosed hc hlevel h behind
    rw [List.cons_append, cutChildren_child hchild, ih hlevel hrest]
    rfl
  | case3 level quote boundary count c cs hc hclose =>
    rw [List.cons_append, cutChildren_close (childAt_of_close hclose _ _) hclose]
  | case4 level quote boundary count c cs hc hclose ih =>
    have hnot : closesList level quote c = false := by simpa using hclose
    have hrest := h.of_cons hnot
    have hnone := childAt_append_of_none hc (hrest.nameStays behind)
    rw [List.cons_append, cutChildren_char hnone hclose, ih (levelAfter_pos hlevel hnot) hrest]
    rfl

/-- What is read of an argument list that is closed does not depend on the text behind it. -/
theorem read_append_of_isList (h : IsList list) (behind rest : List Char) :
    ArgumentReader.withChildren.read (list ++ behind ++ rest) =
      { ArgumentReader.withChildren.read (list ++ behind) with
        rest := (ArgumentReader.withChildren.read (list ++ behind)).rest ++ rest } := by
  obtain ⟨inner, rfl⟩ := exists_of_isList h
  have henclosed := isList_cons_iff.mp h
  have hopen (cs : List Char) : ArgumentReader.withChildren.read ('(' :: cs) =
      (cutChildren 1 none true 0 cs).withChar '(' := cutChildren_char rfl (by decide)
  simp only [List.cons_append, List.append_assoc, hopen]
  rw [cutChildren_append_of_enclosed Nat.one_pos henclosed,
    cutChildren_append_of_enclosed Nat.one_pos henclosed]
  simp [ArgumentText.withChar]

end Closed

/-- The argument list in front of a text and of the same text with more behind: white space that
follows may belong to the list, and then nothing follows it. -/
structure ReadsOn (gap behind : List Char) (list list' : ArgumentText) : Prop where
  text : list'.text = list.text ∨ list'.text = list.text ++ gap
  children : list'.children = list.children
  rest : list'.rest = list.rest ++ (gap ++ behind) ∨
    behind = [] ∧ list.rest = [] ∧ list'.rest = []

/-! White space behind a text is part of the arguments only where they do not end. -/
section Trailing

variable {list list' : ArgumentText}

theorem ReadsOn.withChar (h : ReadsOn gap behind list list') (c : Char) :
    ReadsOn gap behind (list.withChar c) (list'.withChar c) := by
  refine ⟨?_, h.children, h.rest⟩
  rcases h.text with htext | htext
  · exact .inl (congrArg (c :: ·) htext)
  · exact .inr (congrArg (c :: ·) htext)

theorem ReadsOn.withChild (h : ReadsOn gap behind list list') (count : Nat) (child : Fragment) :
    ReadsOn gap behind (list.withChild count child) (list'.withChild count child) := by
  refine ⟨?_, congrArg (child :: ·) h.children, h.rest⟩
  rcases h.text with htext | htext
  · exact .inl (congrArg ((Fragment.placeholder count).toList ++ ·) htext)
  · refine .inr ?_
    simp [ArgumentText.withChild, htext]

theorem readsOn_nil (gap : List Char) (level : Nat) (quote : Option Char) (boundary : Bool)
    (count : Nat) : ReadsOn gap [] (cutChildren level quote boundary count [])
      (cutChildren level quote boundary count []) := by
  rw [cutChildren]
  exact ⟨.inl rfl, rfl, .inr ⟨rfl, rfl, rfl⟩⟩

/-- White space behind a text is cut off together with a list that does not end. -/
theorem cutList_append_blank (hgap : ∀ c ∈ gap, isBlank c = true) (level : Nat)
    (quote : Option Char) (cs : List Char) :
    cutList level quote (cs ++ gap) =
        ((cutList level quote cs).1, (cutList level quote cs).2 ++ gap) ∨
      (cutList level quote cs).2 = [] ∧
        cutList level quote (cs ++ gap) = ((cutList level quote cs).1 ++ gap, []) := by
  induction cs generalizing level quote with
  | nil =>
    obtain ⟨after, hpassive⟩ := exists_passive_of_blank hgap quote
    have hcut := cutList_passive hpassive level []
    rw [List.append_nil] at hcut
    exact .inr ⟨rfl, by simpa [cutList] using hcut⟩
  | cons c cs ih =>
    rw [List.cons_append, cutList, cutList]
    split
    next => exact .inl rfl
    next =>
      rcases ih (levelAfter level quote c) (quoteAfter quote c) with h | ⟨hrest, h⟩
      · exact .inl (by rw [h])
      · exact .inr ⟨hrest, by rw [h, List.cons_append]⟩

theorem fragment_append_blank (hgap : ∀ c ∈ gap, isBlank c = true) (name cs : List Char)
    (children : List Fragment) :
    fragment name (cs ++ gap) children = fragment name cs children := by
  rw [fragment, trim_append_blank hgap, fragment]

theorem cutChildren_append_blank (hgap : ∀ c ∈ gap, isBlank c = true) (level : Nat)
    (quote : Option Char) (boundary : Bool) (count : Nat) (cs : List Char) :
    ReadsOn gap [] (cutChildren level quote boundary count cs)
      (cutChildren level quote boundary count (cs ++ gap)) := by
  have hstays := nameStays_of_blank fun c hc => hgap c (List.mem_of_head? hc)
  fun_induction cutChildren level quote boundary count cs with
  | case1 level quote boundary count =>
    obtain ⟨after, hpassive⟩ := exists_passive_of_blank hgap quote
    have hcut := cutChildren_passive hpassive level boundary count []
    rw [List.append_nil, cutChildren] at hcut
    rw [List.nil_append, hcut]
    exact ⟨.inr (by simp [ArgumentText.prepend]), rfl, .inr ⟨rfl, rfl, rfl⟩⟩
  | case2 level quote boundary count c cs child rest hc ih =>
    obtain ⟨o, ho, rfl⟩ := exists_of_childAt hc
    have hchild := childAt_append_of_some ho (hstays cs)
    have hrest := (beginsChild_of_occurrenceAt ho).rest
    rcases cutList_append_blank hgap 0 none o.behind with hcut | ⟨hnone, hcut⟩
    · rw [hcut, ← hrest] at hchild
      rw [List.cons_append, cutChildren_child hchild]
      exact ih.withChild _ _
    · rw [hcut, fragment_append_blank hgap] at hchild
      rw [List.cons_append, cutChildren_child hchild, hrest, hnone]
      exact (readsOn_nil gap level quote false (count + 1)).withChild _ _
  | case3 level quote boundary count c cs hc hclose =>
    rw [List.cons_append, cutChildren_close (childAt_of_close hclose _ _) hclose]
    exact ⟨.inl rfl, rfl, .inl (by rw [List.append_nil])⟩
  | case4 level quote boundary count c cs hc hclose ih =>
    rw [List.cons_append, cutChildren_char (childAt_append_of_none hc (hstays cs)) hclose]
    exact ih.withChar c

end Trailing

/-- White space between two texts, the second of which is empty or begins with an annotation. -/
structure Gap (gap behind : List Char) : Prop where
  blank : ∀ c ∈ gap, isBlank c = true
  sigil : behind = [] ∨ behind.head? = some '@' ∧ gap.getLast?.any isBoundary = true

namespace Gap

variable (h : Gap gap behind)
include h

theorem nameStays (cs : List Char) : NameStays cs (gap ++ behind) := by
  refine nameStays_of_blank (fun c hc => ?_) cs
  cases gap with
  | nil =>
    rcases h.sigil with rfl | ⟨-, hlast⟩
    · cases hc
    · cases hlast
  | cons d gap => exact h.blank c (List.mem_of_head? hc)

theorem splitAtSigil_eq (boundary : Bool) :
    splitAtSigil boundary (gap ++ behind) = (gap, behind) := by
  have hsign : '@' ∉ gap := fun hmem => by
    have := h.blank '@' hmem
    exact absurd this (by decide)
  rw [splitAtSigil_append_text, splitAtSigil_of_noSigil hsign, if_pos rfl]
  rcases h.sigil with rfl | ⟨hbehind, hlast⟩
  · simp [splitAtSigil]
  · obtain ⟨b, rfl⟩ := List.head?_eq_some_iff.mp hbehind
    have hboundary : boundaryAfter boundary gap = true := by
      cases hgap : gap.getLast? with
      | none => simp [hgap] at hlast
      | some d => simpa [boundaryAfter, hgap] using hlast
    rw [splitAtSigil, if_pos ⟨rfl, hboundary⟩, List.append_nil]

/-- The value that reaches the end of the first text gets the white space. -/
theorem splitAtSigil_append (boundary : Bool) (cs : List Char) :
    splitAtSigil boundary (cs ++ (gap ++ behind)) =
      if (splitAtSigil boundary cs).2 = [] then ((splitAtSigil boundary cs).1 ++ gap, behind)
      else ((splitAtSigil boundary cs).1, (splitAtSigil boundary cs).2 ++ (gap ++ behind)) := by
  rw [splitAtSigil_append_text, h.splitAtSigil_eq]

/-- Where the next annotation of the first text was, or where the second text begins. -/
theorem snd_splitAtSigil_append (boundary : Bool) (cs : List Char) :
    (splitAtSigil boundary (cs ++ (gap ++ behind))).2 =
      if (splitAtSigil boundary cs).2 = [] then behind
      else (splitAtSigil boundary cs).2 ++ (gap ++ behind) := by
  rw [h.splitAtSigil_append]
  split <;> rfl

theorem fragment_append {o : Occurrence} (hname : cutName cs = some (o.name, o.behind))
    (hreads : o.HasList →
      ReadsOn gap behind (reader.read o.behind) (reader.read (o.behind ++ (gap ++ behind)))) :
    (⟨o.name, o.behind ++ (gap ++ behind)⟩ : Occurrence).fragment reader = o.fragment reader := by
  have hiff := (h.nameStays cs).hasList_iff hname
  by_cases hlist : o.HasList
  · obtain ⟨htext, hchildren, -⟩ := hreads hlist
    rw [Occurrence.fragment, if_pos (hiff.mpr hlist), Occurrence.fragment, if_pos hlist, hchildren]
    rcases htext with htext | htext
    · rw [htext]
    · rw [htext, fragment_append_blank h.blank]
  · rw [Occurrence.fragment, if_neg (hiff.not.mpr hlist), Occurrence.fragment, if_neg hlist,
      h.splitAtSigil_append]
    split
    next => exact fragment_append_blank h.blank _ _ _
    next => rfl

/-- With the second text behind, the annotations behind an annotation are looked for in the same
text. -/
theorem rest_append {o : Occurrence} (hname : cutName cs = some (o.name, o.behind))
    (hreads : o.HasList →
      ReadsOn gap behind (reader.read o.behind) (reader.read (o.behind ++ (gap ++ behind)))) :
    (splitAtSigil false ((⟨o.name, o.behind ++ (gap ++ behind)⟩ : Occurrence).rest reader)).2 =
      if (splitAtSigil false (o.rest reader)).2 = [] then behind
      else (splitAtSigil false (o.rest reader)).2 ++ (gap ++ behind) := by
  have hiff := (h.nameStays cs).hasList_iff hname
  by_cases hlist : o.HasList
  · rw [Occurrence.rest, if_pos (hiff.mpr hlist), Occurrence.rest, if_pos hlist]
    rcases (hreads hlist).rest with hrest | ⟨rfl, hrest, hrest'⟩
    · rw [hrest, h.snd_splitAtSigil_append]
    · rw [hrest, hrest', splitAtSigil, if_pos rfl]
  · rw [Occurrence.rest, if_neg (hiff.not.mpr hlist), Occurrence.rest, if_neg hlist,
      h.snd_splitAtSigil_append]

/-- The annotations of the first text are found one by one, and then those of the second. -/
theorem fragmentsFrom_append (hreads : ∀ o ∈ occurrencesFrom reader cs, o.HasList →
      ReadsOn gap behind (reader.read o.behind) (reader.read (o.behind ++ (gap ++ behind)))) :
    fragmentsFrom reader (if cs = [] then behind else cs ++ (gap ++ behind)) =
      fragmentsFrom reader cs ++ fragmentsFrom reader behind := by
  fun_induction occurrencesFrom reader cs with
  | case1 => rw [if_pos rfl, fragmentsFrom, List.nil_append]
  | case2 c cs hnone ih =>
    have hmore : cutName (cs ++ (gap ++ behind)) = none := by
      rw [(h.nameStays cs).name, hnone]
      rfl
    rw [if_neg (List.cons_ne_nil c cs), List.cons_append, fragmentsFrom_of_none hmore,
      fragmentsFrom_of_none hnone, h.snd_splitAtSigil_append, ih hreads]
  | case3 c cs name list hname ih =>
    rw [List.forall_mem_cons] at hreads
    have hmore : cutName (cs ++ (gap ++ behind)) = some (name, list ++ (gap ++ behind)) := by
      rw [(h.nameStays cs).name, hname]
      rfl
    rw [if_neg (List.cons_ne_nil c cs), List.cons_append,
      fragmentsFrom_of_some (o := ⟨name, list ++ (gap ++ behind)⟩) hmore,
      fragmentsFrom_of_some (o := ⟨name, list⟩) hname,
      h.fragment_append (o := ⟨name, list⟩) hname hreads.1,
      h.rest_append (o := ⟨name, list⟩) hname hreads.1, ih hreads.2, List.cons_append]

theorem fragmentsOf_behind : fragmentsOf reader behind = fragmentsFrom reader behind := by
  rcases h.sigil with rfl | ⟨hbehind, -⟩
  · rfl
  · obtain ⟨b, rfl⟩ := List.head?_eq_some_iff.mp hbehind
    rw [fragmentsOf, splitAtSigil, if_pos ⟨rfl, rfl⟩]

theorem fragmentsOf_append (hreads : ∀ o ∈ occurrencesFrom reader (splitAtSigil true cs).2,
      o.HasList →
        ReadsOn gap behind (reader.read o.behind) (reader.read (o.behind ++ (gap ++ behind)))) :
    fragmentsOf reader (cs ++ (gap ++ behind)) =
      fragmentsOf reader cs ++ fragmentsOf reader behind := by
  rw [h.fragmentsOf_behind, fragmentsOf, fragmentsOf, h.snd_splitAtSigil_append,
    h.fragmentsFrom_append hreads]

end Gap

/-- White space behind a text adds nothing to its annotations. -/
theorem fragmentsOf_append_blank (hgap : ∀ c ∈ gap, isBlank c = true) (cs : List Char) :
    fragmentsOf .withChildren (cs ++ gap) = fragmentsOf .withChildren cs := by
  have h : Gap gap [] := ⟨hgap, .inl rfl⟩
  have hnone : fragmentsOf .withChildren [] = [] := by
    rw [fragmentsOf, splitAtSigil, fragmentsFrom]
  calc fragmentsOf .withChildren (cs ++ gap)
      = fragmentsOf .withChildren (cs ++ (gap ++ [])) := by rw [List.append_nil]
    _ = fragmentsOf .withChildren cs ++ fragmentsOf .withChildren [] := by
        refine h.fragmentsOf_append fun o _ _ => ?_
        rw [List.append_nil]
        exact cutChildren_append_blank hgap 0 none false 0 o.behind
    _ = fragmentsOf .withChildren cs := by rw [hnone, List.append_nil]

/-- The annotations of a text in the order in which they stand. -/
def occurrencesOf (cs : List Char) : List Occurrence :=
  occurrencesFrom .withChildren (splitAtSigil true cs).2

/-- If an argument list stands behind the name, a parenthesis closes it. -/
def Occurrence.Contained (o : Occurrence) : Prop :=
  o.HasList → ∃ list, list <+: o.behind ∧ IsList list

theorem Occurrence.Contained.readsOn {o : Occurrence} (h : o.Contained) (hlist : o.HasList)
    (gap behind : List Char) : ReadsOn gap behind (ArgumentReader.withChildren.read o.behind)
      (ArgumentReader.withChildren.read (o.behind ++ (gap ++ behind))) := by
  obtain ⟨list, ⟨rest, hbehind⟩, hclosed⟩ := h hlist
  rw [← hbehind, read_append_of_isList hclosed]
  exact ⟨.inl rfl, rfl, .inl rfl⟩

/-- Annotations that begin on a new line are found as if nothing stood in front of them, and those
in front of them as if nothing followed, if a parenthesis closes each argument list in front. -/
theorem fragmentsOf_append_line {a : List Char} (ha : ∀ o ∈ occurrencesOf a, o.Contained)
    (b : List Char) : fragmentsOf .withChildren (a ++ '\n' :: '@' :: b) =
      fragmentsOf .withChildren a ++ fragmentsOf .withChildren ('@' :: b) := by
  have hnewline : isBlank '\n' = true := isBlank_of_isLineEnd rfl
  have h : Gap ['\n'] ('@' :: b) :=
    ⟨List.forall_mem_singleton.mpr hnewline, .inr ⟨rfl, rfl⟩⟩
  rw [← List.singleton_append]
  exact h.fragmentsOf_append fun o ho hlist => (ha o ho).readsOn hlist ['\n'] ('@' :: b)

/-- A parenthesis between quotes within a child, and text behind the list. -/
theorem fragmentsOf_append_line_nested :
    let a := "@Outer(x=@Inner(y=\")\"), z) text".toList
    let b := "B(1".toList
    (∀ o ∈ occurrencesOf a, o.Contained) ∧ fragmentsOf .withChildren (a ++ '\n' :: '@' :: b) =
      fragmentsOf .withChildren a ++ fragmentsOf .withChildren ('@' :: b) := by
  intro a b
  let list := "(x=@Inner(y=\")\"), z)".toList
  let outer : Occurrence := ⟨"Outer".toList, list ++ " text".toList⟩
  have htext : (splitAtSigil true a).2 = '@' :: (outer.name ++ outer.behind) := by decide
  have hname : cutName (outer.name ++ outer.behind) = some (outer.name, outer.behind) := by
    decide
  have hnone : (splitAtSigil false (outer.rest .withChildren)).2 = [] := by
    rw [Occurrence.rest, if_pos (by rfl), rest_read_withChildren (by rfl)]
    decide
  have houter : outer.Contained := fun _ => by
    have hlist : Enclosed 1 none list.tail := enclosed_scanList 1 none list.tail rfl
    exact ⟨list, List.prefix_append _ _, isList_cons_iff.mpr hlist⟩
  have ha : ∀ o ∈ occurrencesOf a, o.Contained := by
    rw [occurrencesOf, htext, occurrencesFrom_of_some hname, hnone, occurrencesFrom]
    exact List.forall_mem_singleton.mpr houter
  exact ⟨ha, fragmentsOf_append_line ha b⟩

end DocAnnotations.Comment
