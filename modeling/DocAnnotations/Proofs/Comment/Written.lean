import DocAnnotations.Proofs.Argument.Composed
import DocAnnotations.Proofs.Comment.Decoration
import DocAnnotations.Proofs.Comment.Scan

/-! Annotations with children, as they are written in a comment and found there again. -/
namespace DocAnnotations

namespace Fragment

theorem toList_placeholder (n : Nat) :
    (placeholder n).toList = "_child_".toList ++ Nat.toDigits 10 n := by
  rw [show placeholder n = "_child_" ++ toString n from rfl, String.toList_append,
    Nat.toString_eq_repr, Nat.toList_repr]

theorem mem_placeholder {n : Nat} {c : Char} (h : c ∈ (placeholder n).toList) :
    c ∈ "_child0123456789".toList := by
  have hword : "_child_".toList ⊆ "_child0123456789".toList := by decide
  have hdigit : "0123456789".toList ⊆ "_child0123456789".toList := by decide
  rw [toList_placeholder, List.mem_append] at h
  obtain h | h := h
  · exact hword h
  · have := Nat.isDigit_of_mem_toDigits (by decide) (by decide) h
    exact hdigit (Argument.mem_of_isDigit this)

end Fragment

namespace Comment

open Text Argument

/-- All of the text is one printed name. -/
def IsName (name : String) : Prop :=
  cutName name.toList = some (name.toList, [])

instance (name : String) : Decidable (IsName name) :=
  inferInstanceAs (Decidable (cutName name.toList = some (name.toList, [])))

/-- An annotation with the text of its arguments. -/
def printed (name : String) (arguments : Term) : List Char :=
  '@' :: (name.toList ++ arguments.print)

/-- An annotation without children. -/
structure Child where
  name : String
  arguments : Arguments Empty

namespace Child

/-- The argument list of a child. -/
def term (c : Child) : Term :=
  c.arguments.term Empty.elim

def text (c : Child) : String :=
  String.ofList (printed c.name c.term)

/-- The fragment that a child is. -/
def fragment (c : Child) : Fragment :=
  ⟨c.name, String.ofList c.term.print, []⟩

/-- The child may be written. -/
structure Valid (c : Child) : Prop where
  name : IsName c.name
  arguments : c.arguments.Valid

end Child

variable {name : String}

namespace IsName

theorem forall_isNameChar (h : IsName name) :
    ∃ c cs, name.toList = c :: cs ∧ isNameStart c = true ∧ ∀ d ∈ cs, isNameChar d = true := by
  cases hs : name.toList with
  | nil => simp [IsName, hs, cutName] at h
  | cons c cs =>
    simp only [IsName, hs, cutName] at h
    split at h
    next hc =>
      have htake : cs.takeWhile isNameChar = cs := by simpa using h
      exact ⟨c, cs, rfl, hc, List.takeWhile_eq_self_iff.mp htake⟩
    next => cases h

/-- A parenthesis ends a name. -/
theorem cutName_append (h : IsName name) (rest : List Char) :
    cutName (name.toList ++ '(' :: rest) = some (name.toList, '(' :: rest) := by
  obtain ⟨c, cs, hs, hc, hcs⟩ := h.forall_isNameChar
  have hopen : isNameChar '(' = false := by decide
  rw [hs, List.cons_append, cutName, if_pos hc, List.takeWhile_append_of_pos hcs,
    List.dropWhile_append_of_pos hcs]
  simp [hopen]

theorem newline_not_mem (h : IsName name) : '\n' ∉ name.toList := by
  obtain ⟨c, cs, hs, hc, hcs⟩ := h.forall_isNameChar
  have hstart : isNameStart '\n' = false := by decide
  have hchar : isNameChar '\n' = false := by decide
  rw [hs, List.mem_cons, not_or]
  refine ⟨?_, fun hm => ?_⟩
  · rintro rfl
    simp [hstart] at hc
  · exact absurd (hcs _ hm) (by simp [hchar])

end IsName

/-- An annotation alone in a text is its only fragment. -/
theorem fragmentsOf_named {reader : ArgumentReader} {list raw : List Char}
    {children : List Fragment} (hname : IsName name)
    (hread : reader.read ('(' :: list) = ⟨raw, children, []⟩) :
    fragmentsOf reader ('@' :: (name.toList ++ '(' :: list)) =
      [fragment name.toList raw children] := by
  rw [fragmentsOf, splitAtSigil, if_pos (by simp), fragmentsFrom]
  split
  next hn =>
    rw [hname.cutName_append] at hn
    cases hn
  next name' rest hn =>
    rw [hname.cutName_append] at hn
    cases hn
    rw [if_pos List.head?_cons, hread, splitAtSigil, fragmentsFrom]

theorem all_isPlain_joining : joining.all isPlain = true := by decide

/-- Without children, the scan passes over the text of a value. -/
theorem composed_passive : Composed fun cs => Passive none cs none where
  append hc hd := hc.append hd
  joining h := passive_of_all (List.all_eq_true.mpr fun c hc =>
    List.all_eq_true.mp all_isPlain_joining c (h hc))
  quoted _ := passive_quoted _

/-- The text of a value stands on one line. -/
theorem composed_line : Composed fun cs => '\n' ∉ cs where
  append hc hd := by simp [hc, hd]
  joining h := fun hm => by
    have hj : '\n' ∉ joining := by decide
    exact hj (h hm)
  quoted {s} h := by
    have hs : '\n' ∉ s.toList := fun hm => (h _ hm).2.1 rfl
    have hinside : '\n' ∉ doubled s.toList := by
      rw [doubled, List.mem_flatMap]
      rintro ⟨c, hc, hm⟩
      split at hm
      · simp at hm
      · obtain rfl : '\n' = c := by simpa using hm
        exact hs hc
    simpa only [Argument.quoted, List.cons_append, List.mem_cons, List.mem_append,
      List.not_mem_nil, or_false, not_or] using ⟨by decide, hinside, by decide⟩

theorem print_round (elements : List (Option String × Term)) :
    (Term.group .round elements).print = '(' :: (between elements ++ [')']) :=
  print_group .round elements

theorem trim_round (cs : List Char) : trim ('(' :: (cs ++ [')'])) = '(' :: (cs ++ [')']) :=
  trim_of_not_blank rfl rfl cs

namespace Child

theorem print_term (c : Child) : c.term.print =
    '(' :: (between (keyed (Written.term Empty.elim) c.arguments) ++ [')']) :=
  print_round _

/-- The argument list of a child is cut off as a whole. -/
theorem cutList_term {c : Child} (h : c.Valid) (rest : List Char) :
    cutList 0 none (c.term.print ++ rest) = (c.term.print, rest) := by
  rw [print_term]
  exact cutList_parentheses (composed_passive.arguments h.arguments fun b => b.elim) rest

theorem cutChild_text {c : Child} (h : c.Valid) (rest : List Char) :
    cutChild (c.name.toList ++ (c.term.print ++ rest)) =
      some (c.name.toList ++ c.term.print, rest) := by
  have hlist := cutList_term h rest
  rw [print_term, List.cons_append] at hlist ⊢
  rw [cutChild, h.name.cutName_append]
  simp only [hlist]

theorem fragmentsOf_text {c : Child} (h : c.Valid) :
    fragmentsOf .whole ('@' :: (c.name.toList ++ c.term.print)) = [c.fragment] := by
  have hlist := cutList_term h []
  have hread : ArgumentReader.whole.read c.term.print = ⟨c.term.print, [], []⟩ := by
    rw [List.append_nil] at hlist
    change (⟨(cutList 0 none c.term.print).1, [], (cutList 0 none c.term.print).2⟩ :
      ArgumentText) = _
    rw [hlist]
  rw [print_term] at hread ⊢
  rw [fragmentsOf_named h.name hread, Comment.fragment, trim_round, ← print_term,
    String.ofList_toList]
  rfl

/-- Behind a boundary, a child gives way to its placeholder. -/
theorem cuts_text {c : Child} (h : c.Valid) (count : Nat) :
    Cuts count c.text.toList (Fragment.placeholder count).toList [c.fragment] := by
  refine ⟨false, fun rest => ?_⟩
  have hchild : childAt true none '@' (c.name.toList ++ (c.term.print ++ rest)) =
      some (c.fragment, rest) := by
    rw [childAt, if_pos (by simp), cutChild_text h]
    simp only [fragmentsOf_text h]
  rw [text, String.toList_ofList, printed, List.cons_append, List.append_assoc, cutChildren]
  split
  next child rest' hc =>
    rw [hchild] at hc
    cases hc
    rfl
  next hc =>
    rw [hchild] at hc
    cases hc

theorem newline_not_mem_text {c : Child} (h : c.Valid) : '\n' ∉ c.text.toList := by
  have hbetween : '\n' ∉ between (keyed (Written.term Empty.elim) c.arguments) :=
    composed_line.arguments h.arguments fun b => b.elim
  simp [text, printed, print_term, h.name.newline_not_mem, hbetween]

end Child

/-- The word that stands for a numbered child. -/
def placeholderOf (b : Nat × Child) : String :=
  Fragment.placeholder b.1

/-- Wherever a value stands, each of its children gives way to the placeholder with its number. -/
def CutsWritten (v : Written Child) : Prop :=
  ∀ count, Cuts count (v.term Child.text).print ((v.number count).term placeholderOf).print
    (v.children.map Child.fragment)

theorem cutsWritten_atom {a : Atom Child} (h : a.Valid) (hc : ∀ c ∈ a.child?, c.Valid) :
    CutsWritten (.atom a) := by
  intro count
  rw [Written.number, Written.term_atom, Written.term_atom]
  cases a with
  | child c => exact Child.cuts_text (hc c rfl) count
  | null | bool | int | text => exact .passive (composed_passive.atom h (by simp [Atom.child?]))

theorem cutsAll_items {items : List (Written Child)} (h : ∀ v ∈ items, CutsWritten v)
    (count : Nat) :
    CutsAll count (items.map fun v => (v.term Child.text).print)
      ((Written.numberItems count items).map fun v => (v.term placeholderOf).print)
      ((items.flatMap Written.children).map Child.fragment) := by
  induction items generalizing count with
  | nil => exact .nil
  | cons v rest ih =>
    rw [List.map_cons, Written.numberItems, List.map_cons, List.flatMap_cons, List.map_append]
    refine .cons (h v (by simp) count) ?_
    rw [List.length_map]
    exact ih (fun w hw => h w (by simp [hw])) _

theorem cutsAll_entries {entries : List (String × Written Child)}
    (h : ∀ e ∈ entries, CutsWritten e.2) (count : Nat) :
    CutsAll count (Term.elementPrints (keyed (Written.term Child.text) entries))
      (Term.elementPrints
        (keyed (Written.term placeholderOf) (Written.numberEntries count entries)))
      ((entries.flatMap (·.2.children)).map Child.fragment) := by
  induction entries generalizing count with
  | nil => exact .nil
  | cons e rest ih =>
    rw [Written.numberEntries, List.flatMap_cons, List.map_append]
    refine .cons ((h e (by simp) count).labelled (some e.1)) ?_
    rw [List.length_map]
    exact ih (fun f hf => h f (by simp [hf])) _

theorem CutsAll.curly {elements elements' : List (Option String × Term)} {count : Nat}
    {children : List Fragment}
    (h : CutsAll count (Term.elementPrints elements) (Term.elementPrints elements') children) :
    Cuts count (Term.group .curly elements).print (Term.group .curly elements').print children := by
  have hs : Separator ['{'] := ⟨passive_of_all (by decide), fun _ => rfl⟩
  have hclose : Passive none ['}'] none := passive_of_all (by decide)
  exact (h.intercalate.behind hs).before hclose

theorem cutsWritten {v : Written Child} (h : v.Valid) (hc : ∀ c ∈ v.children, c.Valid) :
    CutsWritten v := by
  induction v with
  | atom a =>
    rw [Written.valid_atom] at h
    exact cutsWritten_atom h fun c hm => hc c (by simpa using hm)
  | list items ih =>
    rw [Written.valid_list] at h
    rw [Written.children_list] at hc
    intro count
    have hitems := cutsAll_items (fun v hv => ih v hv (h v hv) fun c hm =>
      hc c (List.mem_flatMap.mpr ⟨v, hv, hm⟩)) count
    rw [Written.number, Written.term_list, Written.term_list, Written.children_list]
    apply CutsAll.curly
    rw [Term.elementPrints_eq_map, Term.elementPrints_eq_map, List.map_map, List.map_map]
    exact hitems
  | map entries ih =>
    rw [Written.valid_map] at h
    rw [Written.children_map] at hc
    intro count
    rw [Written.number, Written.term_map, Written.term_map, Written.children_map]
    exact (cutsAll_entries (fun e he => ih e he (h.2.2 e he) fun c hm =>
      hc c (List.mem_flatMap.mpr ⟨e, he, hm⟩)) count).curly

variable {arguments : Arguments Child}

/-- Reading an argument list takes its children out of it. -/
theorem read_term (h : arguments.Valid) (hc : ∀ c ∈ arguments.children, c.Valid) :
    ArgumentReader.withChildren.read (arguments.term Child.text).print =
      ⟨(arguments.number.term placeholderOf).print, arguments.children.map Child.fragment, []⟩ := by
  have hentries := cutsAll_entries (fun e he => cutsWritten (h.values e he) fun c hm =>
    hc c (List.mem_flatMap.mpr ⟨e, he, hm⟩)) 0
  change cutChildren 0 none false 0 (arguments.term Child.text).print = _
  rw [Arguments.term, print_round, Arguments.term, print_round]
  exact hentries.intercalate.parentheses

/-- An annotation alone in a comment is found as one fragment, with its children in their order and
their placeholders where they stood. -/
theorem fragments_printed (hname : IsName name) (h : arguments.Valid)
    (hc : ∀ c ∈ arguments.children, c.Valid) :
    fragments (String.ofList (printed name (arguments.term Child.text))) =
      [⟨name, String.ofList (arguments.number.term placeholderOf).print,
        arguments.children.map Child.fragment⟩] := by
  have hread := read_term h hc
  rw [Arguments.term, print_round] at hread
  have hline : '\n' ∉ name.toList ++ '(' :: between (keyed (Written.term Child.text) arguments) := by
    have hbetween := composed_line.arguments h fun c hm => Child.newline_not_mem_text (hc c hm)
    simpa [hname.newline_not_mem] using hbetween
  have hundecorate := undecorate_of_line hline
  rw [List.append_assoc, List.cons_append] at hundecorate
  rw [fragments, String.toList_ofList, printed, Arguments.term, print_round, hundecorate,
    fragmentsOf_named hname hread, fragment, Arguments.term, print_round, trim_round,
    String.ofList_toList]

end Comment

end DocAnnotations
