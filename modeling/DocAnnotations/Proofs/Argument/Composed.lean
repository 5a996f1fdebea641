import DocAnnotations.Proofs.Argument.Numbered

/-! What is true of the text of a written value because it is true of the parts. -/
namespace DocAnnotations.Argument

/-- The characters of numbers and words in the text of a value, and those that join its parts. -/
def joining : List Char :=
  "-0123456789nulltruefalse\x7b\x7d=, ".toList

/-- A property of texts that the text of a list or a map has if its parts have it. -/
structure Composed (P : List Char → Prop) : Prop where
  append {cs ds : List Char} : P cs → P ds → P (cs ++ ds)
  joining {cs : List Char} : cs ⊆ joining → P cs
  quoted {s : String} : Clean s → P (quoted s.toList)

/-- The text between the brackets of a group. -/
def between (elements : List (Option String × Term)) : List Char :=
  (", ".toList).intercalate (Term.elementPrints elements)

theorem print_group (bracket : Bracket) (elements : List (Option String × Term)) :
    (Term.group bracket elements).print =
      [bracket.opener] ++ (between elements ++ [bracket.closer]) := by
  rw [Term.print, List.cons_append]
  rfl

namespace Composed

variable {α : Type} {P : List Char → Prop} {word : α → String}

theorem intercalate (hP : Composed P) {texts : List (List Char)} (h : ∀ cs ∈ texts, P cs) :
    P ((", ".toList).intercalate texts) := by
  induction texts with
  | nil => exact hP.joining (List.nil_subset _)
  | cons cs texts ih =>
    have ih := ih fun ds hd => h ds (by simp [hd])
    cases texts with
    | nil => simpa using h cs (by simp)
    | cons ds texts =>
      rw [List.intercalate_cons_cons]
      exact hP.append (hP.append (h cs (by simp)) (hP.joining (by decide))) ih

theorem labelled (hP : Composed P) {key : Option String} {cs : List Char} (hk : ∀ k ∈ key, Clean k)
    (h : P cs) : P (labelled key cs) := by
  cases key with
  | none => exact h
  | some k =>
    have hequals : P ['='] := hP.joining (by decide)
    exact hP.append (hP.quoted (hk k rfl)) (hP.append hequals h)

theorem between (hP : Composed P) {elements : List (Option String × Term)}
    (hk : ∀ e ∈ elements, ∀ k ∈ e.1, Clean k) (h : ∀ e ∈ elements, P e.2.print) :
    P (between elements) := by
  rw [Argument.between, Term.elementPrints_eq_map]
  exact hP.intercalate (List.forall_mem_map.mpr fun e he => hP.labelled (hk e he) (h e he))

theorem keyed {β : Type} (hP : Composed P) {term : β → Term} {entries : List (String × β)}
    (hk : ValidKeys (entries.map (·.1))) (h : ∀ e ∈ entries, P (term e.2).print) :
    P (Argument.between (keyed term entries)) := by
  refine hP.between (List.forall_mem_map.mpr fun e he k hkey => ?_) (List.forall_mem_map.mpr h)
  obtain rfl : e.1 = k := by simpa using hkey
  exact hk.clean _ (List.mem_map_of_mem he)

theorem curly (hP : Composed P) {elements : List (Option String × Term)}
    (h : P (Argument.between elements)) : P (Term.group .curly elements).print := by
  rw [print_group]
  exact hP.append (hP.joining (by decide)) (hP.append h (hP.joining (by decide)))

theorem atom (hP : Composed P) {a : Atom α} (h : a.Valid) (hc : ∀ b ∈ a.child?, P (word b).toList) :
    P (a.term word).print := by
  cases a with
  | null => exact hP.joining (show "null".toList ⊆ Argument.joining by decide)
  | bool b =>
    cases b with
    | false => exact hP.joining (show "false".toList ⊆ Argument.joining by decide)
    | true => exact hP.joining (show "true".toList ⊆ Argument.joining by decide)
  | int n =>
    have hdigits : "-0123456789".toList ⊆ Argument.joining := by decide
    exact hP.joining fun c hm => hdigits (mem_toString hm)
  | text s => exact hP.quoted h
  | child b => exact hc b rfl

theorem print (hP : Composed P) {v : Written α} (h : v.Valid)
    (hc : ∀ b ∈ v.children, P (word b).toList) : P (v.term word).print := by
  induction v with
  | atom a =>
    rw [Written.valid_atom] at h
    rw [Written.term_atom]
    exact hP.atom h fun b hb => hc b (by simpa using hb)
  | list items ih =>
    rw [Written.valid_list] at h
    rw [Written.children_list] at hc
    rw [Written.term_list]
    refine hP.curly (hP.between (List.forall_mem_map.mpr fun _ _ _ hk => by cases hk)
      (List.forall_mem_map.mpr fun v hv => ih v hv (h v hv) fun b hb => ?_))
    exact hc b (List.mem_flatMap.mpr ⟨v, hv, hb⟩)
  | map entries ih =>
    rw [Written.valid_map] at h
    rw [Written.children_map] at hc
    rw [Written.term_map]
    refine hP.curly (hP.keyed h.2.1 fun e he => ih e he (h.2.2 e he) fun b hb => ?_)
    exact hc b (List.mem_flatMap.mpr ⟨e, he, hb⟩)

/-- The text between the parentheses of an argument list. -/
theorem arguments (hP : Composed P) {arguments : Arguments α} (h : arguments.Valid)
    (hc : ∀ b ∈ arguments.children, P (word b).toList) :
    P (Argument.between (Argument.keyed (Written.term word) arguments)) :=
  hP.keyed h.keys fun e he => hP.print (h.values e he) fun b hb =>
    hc b (List.mem_flatMap.mpr ⟨e, he, hb⟩)

end Composed

end DocAnnotations.Argument
