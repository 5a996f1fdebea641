import DocAnnotations.Proofs.Argument.Normalize
import DocAnnotations.Proofs.Argument.Print
import DocAnnotations.Proofs.Entries
import Mathlib.Tactic.IntervalCases

/-! Values as they are written in an annotation, with places for children. -/
namespace DocAnnotations.Argument

open Text

/-- A value without parts, or the place of a child. -/
inductive Atom (α : Type) where
  | null
  | bool (b : Bool)
  | int (n : Int)
  | text (s : String)
  | child (a : α)

/-- A value as it is written: atoms, lists and maps of them. -/
inductive Written (α : Type) where
  | atom (a : Atom α)
  | list (items : List (Written α))
  | map (entries : List (String × Written α))

variable {α β : Type}

namespace Written

/-- Induction over written values, with the hypothesis for all parts. -/
@[elab_as_elim, induction_eliminator]
theorem induction {motive : Written α → Prop} (atom : ∀ a, motive (.atom a))
    (list : ∀ items, (∀ v ∈ items, motive v) → motive (.list items))
    (map : ∀ entries, (∀ e ∈ entries, motive e.2) → motive (.map entries)) : ∀ v, motive v :=
  fun v => Written.rec (motive_1 := motive) (motive_2 := fun vs => ∀ v ∈ vs, motive v)
    (motive_3 := fun es => ∀ e ∈ es, motive e.2) (motive_4 := fun e => motive e.2) atom list map
    (by simp) (fun _ _ hv hvs => by simpa using ⟨hv, hvs⟩) (by simp)
    (fun e es he hes => by simpa using ⟨he, fun a b => hes (a, b)⟩) (fun _ _ h => h) v

variable (atom : Atom α → β) (list : List β → β) (map : List (String × β) → β)

mutual

/-- What comes of a written value from the bottom up. -/
def fold : Written α → β
  | .atom a => atom a
  | .list items => list (foldItems items)
  | .map entries => map (foldEntries entries)

def foldItems : List (Written α) → List β
  | [] => []
  | v :: rest => fold v :: foldItems rest

def foldEntries : List (String × Written α) → List (String × β)
  | [] => []
  | (key, v) :: rest => (key, fold v) :: foldEntries rest

end

theorem foldItems_eq_map (items : List (Written α)) :
    foldItems atom list map items = items.map (fold atom list map) := by
  induction items with
  | nil => rfl
  | cons v rest ih => simp [foldItems, ih]

theorem foldEntries_eq_map (entries : List (String × Written α)) :
    foldEntries atom list map entries = entries.map fun e => (e.1, fold atom list map e.2) := by
  induction entries with
  | nil => rfl
  | cons e rest ih => simp [foldEntries, ih]

@[simp]
theorem fold_atom (a : Atom α) : fold atom list map (.atom a) = atom a := by
  rw [fold]

@[simp]
theorem fold_list (items : List (Written α)) :
    fold atom list map (.list items) = list (items.map (fold atom list map)) := by
  rw [fold, foldItems_eq_map]

@[simp]
theorem fold_map (entries : List (String × Written α)) :
    fold atom list map (.map entries) =
      map (entries.map fun e => (e.1, fold atom list map e.2)) := by
  rw [fold, foldEntries_eq_map]

end Written

/-- The term of an atom, where a child stands as the given word. -/
def Atom.term (word : α → String) : Atom α → Term
  | null => .word "null"
  | bool b => .word (if b then "true" else "false")
  | int n => .word (toString n)
  | text s => .text s
  | child a => .word (word a)

/-- The value of an atom, where a child has the given value. -/
def Atom.value (child : α → Value) : Atom α → Value
  | .null => .null
  | .bool b => .bool b
  | .int n => .int n
  | .text s => .text s
  | .child a => child a

/-- Numbers are short enough to be read, and texts keep their characters. -/
def Atom.Valid : Atom α → Prop
  | int n => (Nat.toDigits 10 n.natAbs).length ≤ Numeral.maxDigits
  | text s => Clean s
  | _ => True

/-- Keys of a map: each once, without white space around it. -/
structure ValidKeys (keys : List String) : Prop where
  nodup : keys.Nodup
  clean : ∀ key ∈ keys, Clean key
  trimmed : ∀ key ∈ keys, strip key = key

instance (a : Atom α) : Decidable a.Valid :=
  match a with
  | .int n => inferInstanceAs (Decidable ((Nat.toDigits 10 n.natAbs).length ≤ Numeral.maxDigits))
  | .text s => inferInstanceAs (Decidable (Clean s))
  | .null | .bool _ | .child _ => isTrue trivial

instance (keys : List String) : Decidable (ValidKeys keys) :=
  decidable_of_iff (keys.Nodup ∧ (∀ key ∈ keys, Clean key) ∧ ∀ key ∈ keys, strip key = key)
    ⟨fun ⟨nodup, clean, trimmed⟩ => ⟨nodup, clean, trimmed⟩,
      fun ⟨nodup, clean, trimmed⟩ => ⟨nodup, clean, trimmed⟩⟩

/-- Elements with keys, as a group holds them. -/
def keyed (term : β → Term) (entries : List (String × β)) : List (Option String × Term) :=
  entries.map fun e => (some e.1, term e.2)

namespace Written

/-- The term of a written value: lists and maps in braces. -/
def term (word : α → String) : Written α → Term :=
  fold (Atom.term word) (fun items => .group .curly (items.map (none, ·)))
    (fun entries => .group .curly (keyed id entries))

/-- The value that is written, where children have the given values. -/
def value (child : α → Value) : Written α → Value :=
  fold (Atom.value child) .list .map

/-- The number of braces around the innermost atom. -/
def depth : Written α → Nat :=
  fold (fun _ => 0) (fun items => items.foldr max 0 + 1)
    fun entries => (entries.map (·.2)).foldr max 0 + 1

/-- Every part may be written: maps hold something, under valid keys. -/
def Valid : Written α → Prop :=
  fold Atom.Valid (fun items => ∀ item ∈ items, item)
    fun entries => entries ≠ [] ∧ ValidKeys (entries.map (·.1)) ∧ ∀ e ∈ entries, e.2

end Written

theorem mem_of_isDigit {c : Char} (h : c.isDigit = true) : c ∈ "0123456789".toList := by
  obtain ⟨hlo, hhi⟩ : 48 ≤ c.toNat ∧ c.toNat ≤ 57 := by
    simpa [Char.isDigit, UInt32.le_iff_toNat_le] using h
  rw [← Char.ofNat_toNat c]
  interval_cases c.toNat <;> decide

theorem bare_of_all {s : String} (hne : s ≠ "")
    (h : (s.toList.all fun c => !(isBlank c || Token.isPunct c || Token.isQuote c)) = true) :
    Bare s := by
  refine ⟨by simpa using hne, fun c hc => ?_⟩
  simpa [and_assoc] using List.all_eq_true.mp h c hc

/-- A word that does not begin like null or a truth value is a number or a text. -/
theorem ofWord_of_head {word : String} {c : Char} {cs : List Char} (h : word.toList = c :: cs)
    (hc : c.toNat < 128) (hl : c.toLower ∉ ['n', 't', 'f']) :
    Scalar.ofWord word =
      if Numeral.isNumeral isDecimalDigit word.toList then .number else .text := by
  have hlower : (lower word).toList = c.toLower :: lowerFrom [c] cs := by
    have hs : c ≠ 'Σ' := by rintro rfl; simp at hc
    simp [lower, h, lowerFrom, hs, lowerChar, hc]
  have hne {s : String} (hs : s.toList.head? ≠ some c.toLower) : lower word ≠ s := by
    rintro rfl
    simp [hlower] at hs
  simp only [List.mem_cons, List.not_mem_nil, or_false, not_or] at hl
  rw [Scalar.ofWord]
  simp only [hne (s := "null") (by simpa using Ne.symm hl.1),
    hne (s := "true") (by simpa using Ne.symm hl.2.1),
    hne (s := "false") (by simpa using Ne.symm hl.2.2), if_false]

/-- A word that stands for a text. -/
structure PlainWord (word : String) : Prop where
  bare : Bare word
  isText : Scalar.ofWord word = .text

theorem mem_toString {n : Int} {c : Char} (h : c ∈ (toString n).toList) :
    c ∈ "-0123456789".toList := by
  rw [Numeral.toList_toString, List.mem_append] at h
  obtain h | h := h
  · have hm : c = '-' := by
      split at h
      · simpa using h
      · simp at h
    simp [hm]
  · have := mem_of_isDigit (Nat.isDigit_of_mem_toDigits (by decide) (by decide) h)
    exact List.mem_cons_of_mem '-' this

theorem bare_toString (n : Int) : Bare (toString n) := by
  refine ⟨fun h => ?_, fun c hc => ?_⟩
  · rw [Numeral.toList_toString, List.append_eq_nil_iff] at h
    exact Nat.toDigits_ne_nil h.2
  · have hm := mem_toString hc
    have hall : ("-0123456789".toList.all fun c =>
        !(isBlank c || Token.isPunct c || Token.isQuote c)) = true := by decide
    simpa [and_assoc] using List.all_eq_true.mp hall c hm

theorem ofWord_toString (n : Int) : Scalar.ofWord (toString n) = .number := by
  have hn : Numeral.isNumeral isDecimalDigit (toString n).toList = true := by
    rw [Numeral.isNumeral, Numeral.cut_toString fun _ => isDecimalDigit_of_isDigit]
  obtain ⟨c, cs, hcs⟩ := List.exists_cons_of_ne_nil (bare_toString n).1
  have hm : c ∈ "-0123456789".toList := mem_toString (hcs ▸ List.mem_cons_self)
  have hall : ("-0123456789".toList.all fun c =>
      decide (c.toNat < 128) && !(['n', 't', 'f'].contains c.toLower)) = true := by decide
  have hc := List.all_eq_true.mp hall c hm
  simp only [Bool.and_eq_true, decide_eq_true_eq, Bool.not_eq_true', List.contains_eq_mem,
    decide_eq_false_iff_not] at hc
  rw [ofWord_of_head hcs hc.1 hc.2, if_pos hn]

theorem value_toString (n : Int) : Scalar.value (toString n) = .int n := by
  rw [Scalar.value, ofWord_toString, Numeral.cut_toString fun _ => id]
  exact Numeral.value_toString n

theorem fault?_toString {n : Int} (h : (Nat.toDigits 10 n.natAbs).length ≤ Numeral.maxDigits) :
    Scalar.fault? (toString n) = none := by
  rw [Scalar.fault?, ofWord_toString, Numeral.cut_toString fun _ => id]
  simp only [Numeral.isOversized, Numeral.isWhole]
  simp
  omega

variable {word : α → String}

namespace Atom

theorem printable_term {a : Atom α} (h : a.Valid) (hw : ∀ b, PlainWord (word b)) :
    (a.term word).Printable := by
  cases a with
  | null => exact .word (bare_of_all (by decide) (by decide))
  | bool b => cases b <;> exact .word (bare_of_all (by decide) (by decide))
  | int n => exact .word (bare_toString n)
  | text s => exact .text h
  | child b => exact .word (hw b).bare

theorem value_term (a : Atom α) (hw : ∀ b, PlainWord (word b)) :
    (a.term word).value = a.value fun b => .text (word b) := by
  cases a with
  | null =>
    have hw : Scalar.ofWord "null" = .null := by decide
    simp [Atom.term, Atom.value, Term.value, Scalar.value, hw]
  | bool b =>
    have hw : Scalar.ofWord (if b then "true" else "false") = .bool b := by
      cases b <;> decide
    simp only [Atom.term, Atom.value, Term.value, Scalar.value, hw]
  | int n => exact value_toString n
  | text s => rfl
  | child b =>
    change Scalar.value (word b) = _
    rw [Scalar.value, (hw b).isText]
    rfl

theorem fault?_term {a : Atom α} (h : a.Valid) (hw : ∀ b, PlainWord (word b)) :
    (a.term word).fault? = none := by
  cases a with
  | null =>
    have hw : Scalar.ofWord "null" = .null := by decide
    simp [Atom.term, Term.fault?, Scalar.fault?, hw]
  | bool b =>
    have hw : Scalar.ofWord (if b then "true" else "false") = .bool b := by
      cases b <;> decide
    simp only [Atom.term, Term.fault?, Scalar.fault?, hw]
  | int n => exact fault?_toString h
  | text s => rfl
  | child b =>
    change Scalar.fault? (word b) = none
    rw [Scalar.fault?, (hw b).isText]

end Atom

namespace Written

@[simp]
theorem valid_atom (a : Atom α) : Valid (.atom a) ↔ a.Valid := by
  simp [Valid]

@[simp]
theorem valid_list (items : List (Written α)) : Valid (.list items) ↔ ∀ v ∈ items, v.Valid := by
  simp only [Valid, fold_list, List.forall_mem_map]

@[simp]
theorem valid_map (entries : List (String × Written α)) : Valid (.map entries) ↔
    entries ≠ [] ∧ ValidKeys (entries.map (·.1)) ∧ ∀ e ∈ entries, e.2.Valid := by
  simp only [Valid, fold_map, List.forall_mem_map, ne_eq, List.map_eq_nil_iff, List.map_map,
    Function.comp_def]

@[simp]
theorem term_atom (a : Atom α) : term word (.atom a) = a.term word := by
  simp [term]

@[simp]
theorem term_list (items : List (Written α)) :
    term word (.list items) = .group .curly (items.map fun v => (none, v.term word)) := by
  simp [term, Function.comp_def]

@[simp]
theorem term_map (entries : List (String × Written α)) :
    term word (.map entries) = .group .curly (keyed (term word) entries) := by
  simp [term, keyed, Function.comp_def]

variable {child : α → Value}

@[simp]
theorem value_atom (a : Atom α) : value child (.atom a) = a.value child := by
  simp [value]

@[simp]
theorem value_list (items : List (Written α)) :
    value child (.list items) = .list (items.map (value child)) := by
  simp [value]

@[simp]
theorem value_map (entries : List (String × Written α)) :
    value child (.map entries) = .map (entries.map fun e => (e.1, e.2.value child)) := by
  simp [value]

end Written

theorem printable_keyed {bracket : Bracket} {term : β → Term} {entries : List (String × β)}
    (hk : ValidKeys (entries.map (·.1))) (h : ∀ e ∈ entries, (term e.2).Printable) :
    (Term.group bracket (keyed term entries)).Printable := by
  refine .group (List.forall_mem_map.mpr fun e he key hkey => ?_) (List.forall_mem_map.mpr h)
  obtain rfl : e.1 = key := by simpa using hkey
  have hm : e.1 ∈ entries.map (·.1) := List.mem_map_of_mem he
  exact ⟨hk.clean _ hm, hk.trimmed _ hm⟩

theorem ofElements_keyed (entries : List (String × β)) :
    Contents.ofElements (entries.map fun e => (some e.1, e.2)) = ⟨[], entries⟩ := by
  induction entries with
  | nil => rfl
  | cons e rest ih => rw [List.map_cons, Contents.ofElements_cons_some, ih]

theorem ofElements_unkeyed (items : List β) :
    Contents.ofElements (items.map (none, ·)) = ⟨items, []⟩ := by
  induction items with
  | nil => rfl
  | cons v rest ih => rw [List.map_cons, Contents.ofElements_cons_none, ih]

theorem value_keyed {bracket : Bracket} {term : β → Term} {entries : List (String × β)}
    (hne : entries ≠ []) (hk : (entries.map (·.1)).Nodup) :
    (Term.group bracket (keyed term entries)).value =
      .map (entries.map fun e => (e.1, (term e.2).value)) := by
  have helements : Term.elementValues (keyed term entries) =
      (entries.map fun e => (e.1, (term e.2).value)).map fun e => (some e.1, e.2) := by
    simp [keyed, Term.elementValues_eq_map]
  rw [Term.value, helements, groupValue, ofElements_keyed]
  simp only [List.isEmpty_map, List.isEmpty_iff, hne, if_false, Contents.members]
  rw [Entries.ofPairs_of_nodup (by simpa [Entries.keys, Function.comp_def] using hk)]

theorem value_unkeyed (bracket : Bracket) (term : β → Term) (items : List β) :
    (Term.group bracket (items.map fun v => (none, term v))).value =
      .list (items.map fun v => (term v).value) := by
  have helements : Term.elementValues (items.map fun v => (none, term v)) =
      (items.map fun v => (term v).value).map (none, ·) := by
    simp [Term.elementValues_eq_map]
  rw [Term.value, helements, groupValue, ofElements_unkeyed]
  rfl

theorem fault?_group {bracket : Bracket} {elements : List (Option String × Term)}
    (h : ∀ e ∈ elements, e.2.fault? = none) : (Term.group bracket elements).fault? = none := by
  by_contra hf
  obtain ⟨fault, hf⟩ := Option.ne_none_iff_exists'.mp hf
  obtain ⟨e, he, hf⟩ := Term.exists_of_fault?_group hf
  rw [h e he] at hf
  cases hf

theorem elementsDepth_eq (elements : List (Option String × Term)) :
    elementsDepth elements = (elements.map (·.2.depth)).foldr max 0 := by
  induction elements with
  | nil => rfl
  | cons e rest ih => simp [elementsDepth, ih]

namespace Written

theorem printable_term {v : Written α} (h : v.Valid) (hw : ∀ b, PlainWord (word b)) :
    (v.term word).Printable := by
  induction v with
  | atom a =>
    rw [valid_atom] at h
    rw [term_atom]
    exact a.printable_term h hw
  | list items ih =>
    rw [valid_list] at h
    rw [term_list]
    exact .group (List.forall_mem_map.mpr fun _ _ _ hk => by cases hk)
      (List.forall_mem_map.mpr fun v hv => ih v hv (h v hv))
  | map entries ih =>
    rw [valid_map] at h
    rw [term_map]
    exact printable_keyed h.2.1 fun e he => ih e he (h.2.2 e he)

theorem depth_term (v : Written α) : (v.term word).depth = v.depth := by
  induction v with
  | atom a => cases a <;> simp [depth, Atom.term, Term.depth]
  | list items ih =>
    have hmap : items.map (fun v => (v.term word).depth) = items.map depth :=
      List.map_congr_left ih
    simp only [term_list, Term.depth, elementsDepth_eq, List.map_map, Function.comp_def, hmap]
    simp [depth]
  | map entries ih =>
    have hmap : entries.map (fun e => (e.2.term word).depth) = entries.map (·.2.depth) :=
      List.map_congr_left ih
    simp only [term_map, keyed, Term.depth, elementsDepth_eq, List.map_map, Function.comp_def, hmap]
    simp [depth, Function.comp_def]

theorem value_term {v : Written α} (h : v.Valid) (hw : ∀ b, PlainWord (word b)) :
    (v.term word).value = v.value fun b => .text (word b) := by
  induction v with
  | atom a =>
    rw [term_atom, value_atom]
    exact a.value_term hw
  | list items ih =>
    rw [valid_list] at h
    rw [term_list, value_list, value_unkeyed]
    exact congrArg _ (List.map_congr_left fun v hv => ih v hv (h v hv))
  | map entries ih =>
    rw [valid_map] at h
    rw [term_map, value_map, value_keyed h.1 h.2.1.nodup]
    exact congrArg _ (List.map_congr_left fun e he => by rw [ih e he (h.2.2 e he)])

theorem fault?_term {v : Written α} (h : v.Valid) (hw : ∀ b, PlainWord (word b)) :
    (v.term word).fault? = none := by
  induction v with
  | atom a =>
    rw [valid_atom] at h
    rw [term_atom]
    exact a.fault?_term h hw
  | list items ih =>
    rw [valid_list] at h
    rw [term_list]
    exact fault?_group (List.forall_mem_map.mpr fun v hv => ih v hv (h v hv))
  | map entries ih =>
    rw [valid_map] at h
    rw [term_map]
    exact fault?_group (List.forall_mem_map.mpr fun e he => ih e he (h.2.2 e he))

end Written

/-- The arguments of an annotation. -/
abbrev Arguments (α : Type) := List (String × Written α)

namespace Arguments

/-- The term of an argument list. -/
def term (word : α → String) (arguments : Arguments α) : Term :=
  .group .round (keyed (Written.term word) arguments)

/-- The attributes that are written. -/
def values (child : α → Value) (arguments : Arguments α) : Entries Value :=
  arguments.map fun e => (e.1, e.2.value child)

def depth (arguments : Arguments α) : Nat :=
  (arguments.map (·.2.depth)).foldr max 0 + 1

structure Valid (arguments : Arguments α) : Prop where
  keys : ValidKeys (arguments.map (·.1))
  values : ∀ e ∈ arguments, e.2.Valid

variable {arguments : Arguments α}

theorem depth_term (arguments : Arguments α) : (arguments.term word).depth = arguments.depth := by
  simp only [term, depth, keyed, Term.depth, elementsDepth_eq, List.map_map, Function.comp_def,
    Written.depth_term]

theorem value_term (h : arguments.Valid) (hw : ∀ b, PlainWord (word b)) :
    (arguments.term word).value =
      if arguments = [] then .list [] else .map (arguments.values fun b => .text (word b)) := by
  split
  next he =>
    subst he
    rfl
  next hne =>
    rw [term, value_keyed hne h.keys.nodup]
    exact congrArg _ (List.map_congr_left fun e he => by
      rw [Written.value_term (h.values e he) hw])

theorem ofText_print (h : arguments.Valid) (hd : arguments.depth ≤ checkBalance.maxNesting)
    (hw : ∀ b, PlainWord (word b)) :
    Term.ofText (arguments.term word).print = .ok (arguments.term word) :=
  Term.ofText_print (printable_keyed h.keys fun e he => Written.printable_term (h.values e he) hw)
    (by rwa [depth_term])

theorem fault?_term (h : arguments.Valid) (hw : ∀ b, PlainWord (word b)) :
    (arguments.term word).fault? = none :=
  fault?_group (List.forall_mem_map.mpr fun e he => Written.fault?_term (h.values e he) hw)

/-- Arguments are read as they were written. -/
theorem evaluateList_print (h : arguments.Valid) (hd : arguments.depth ≤ checkBalance.maxNesting)
    (hw : ∀ b, PlainWord (word b)) :
    evaluateList (String.ofList (arguments.term word).print) =
      .ok (some (if arguments = [] then .list []
        else .map (arguments.values fun b => .text (word b)))) := by
  obtain ⟨cs, hcs⟩ : ∃ cs, (arguments.term word).print = '(' :: (cs ++ [')']) :=
    ⟨_, by rw [term, Term.print, List.cons_append]; rfl⟩
  have htext := ofText_print h hd hw
  rw [hcs] at htext ⊢
  rw [evaluateList_of_ofText htext (fault?_term h hw), value_term h hw]

theorem attributes_print (h : arguments.Valid) (hd : arguments.depth ≤ checkBalance.maxNesting)
    (hw : ∀ b, PlainWord (word b)) :
    attributes (String.ofList (arguments.term word).print) =
      .ok (arguments.values fun b => .text (word b)) := by
  rw [attributes, evaluateList_print h hd hw]
  by_cases he : arguments = []
  · subst he
    rfl
  · simp [he, Except.map]

theorem positional_print_nil (hw : ∀ b, PlainWord (word b)) :
    positional (String.ofList (Arguments.term word []).print) = .ok .null := by
  have h : Arguments.Valid ([] : Arguments α) := ⟨⟨List.nodup_nil, nofun, nofun⟩, nofun⟩
  rw [positional, evaluateList_print h (Nat.le_add_left 1 31) hw]
  rfl

end Arguments

end DocAnnotations.Argument
