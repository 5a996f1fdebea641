import DocAnnotations.Proofs.Comment.Position

/-! Argument lists put together again from what is left of them and from the children that were taken
out of them. -/
namespace DocAnnotations.Comment

open Text

/-- A text with inserts: each of them stands in front of its piece. -/
def weave (first : List Char) (inserts pieces : List (List Char)) : List Char :=
  first ++ (List.zipWith (· ++ ·) inserts pieces).flatten

/-- What stands in a text in place of the children from an index on. -/
def placeholders (count n : Nat) : List (List Char) :=
  (List.range' count n).map fun i => (Fragment.placeholder i).toList

/-- An annotation as it is written, where its children are placeholders. -/
def spelled (f : Fragment) : List Char :=
  '@' :: (f.name.toList ++ f.raw.toList)

/-- The scan and the argument list differ only in the places of the children, where one has the
placeholders and the other has the children, and in white space at the end. -/
def Woven (count : Nat) (list : List Char) (scan : ListScan) : Prop :=
  ∃ first pieces, pieces.length = scan.children.length ∧
    scan.text = weave first (placeholders count scan.children.length) pieces ∧
    dropWhileEnd isBlank list = dropWhileEnd isBlank
      (weave first (scan.children.map fun o => spelled (o.fragment .whole)) pieces)

variable {level count : Nat} {quote : Option Char} {boundary : Bool} {c : Char}
  {first list : List Char} {inserts pieces : List (List Char)} {scan : ListScan} {o : Occurrence}

theorem weave_cons (first i p : List Char) (inserts pieces : List (List Char)) :
    weave first (i :: inserts) (p :: pieces) = first ++ i ++ weave p inserts pieces := by
  simp [weave]

theorem length_placeholders (count n : Nat) : (placeholders count n).length = n := by
  simp [placeholders]

namespace Woven

theorem nil (count : Nat) : Woven count [] ⟨[], [], [], false⟩ :=
  ⟨[], [], rfl, rfl, rfl⟩

theorem char (h : Woven count list scan) (c : Char) : Woven count (c :: list) (scan.withChar c) := by
  obtain ⟨first, pieces, hlength, htext, hlist⟩ := h
  refine ⟨c :: first, pieces, hlength, congrArg (c :: ·) htext, ?_⟩
  exact dropWhileEnd_append_congr isBlank [c] hlist

theorem child (h : Woven (count + 1) list scan)
    (hlist : dropWhileEnd isBlank ((o.fragment .whole).raw.toList ++ list) =
      dropWhileEnd isBlank ((cutList 0 none o.behind).1 ++ list)) :
    Woven count ('@' :: (o.name ++ ((cutList 0 none o.behind).1 ++ list)))
      (scan.withChild count o) := by
  obtain ⟨first, pieces, hlength, htext, hrest⟩ := h
  refine ⟨[], first :: pieces, congrArg (· + 1) hlength, ?_, ?_⟩
  · change (Fragment.placeholder count).toList ++ scan.text = _
    rw [htext]
    exact (weave_cons [] _ first _ pieces).symm
  · change _ = dropWhileEnd isBlank (weave [] (spelled (o.fragment .whole) :: _) (first :: pieces))
    have hname : spelled (o.fragment .whole) =
        ('@' :: o.name) ++ (o.fragment .whole).raw.toList := by
      rw [spelled, o.name_fragment, String.toList_ofList]
      rfl
    rw [weave_cons, List.nil_append, hname]
    calc dropWhileEnd isBlank ('@' :: (o.name ++ ((cutList 0 none o.behind).1 ++ list)))
        = dropWhileEnd isBlank (('@' :: o.name) ++ ((o.fragment .whole).raw.toList ++ list)) :=
          dropWhileEnd_append_congr isBlank ('@' :: o.name) hlist.symm
      _ = dropWhileEnd isBlank ((('@' :: o.name) ++ (o.fragment .whole).raw.toList) ++ list) := by
          rw [List.append_assoc]
      _ = _ := dropWhileEnd_append_congr isBlank _ hrest

end Woven

section Child

/-- The last parenthesis of an argument list stays when it is trimmed. -/
theorem dropWhileEnd_of_enclosed (h : Enclosed level quote list) :
    dropWhileEnd isBlank list = list := by
  obtain ⟨front, rfl⟩ := h.exists_append
  rw [dropWhileEnd_eq_rdropWhile]
  exact List.rdropWhile_concat_neg isBlank front ')' (by decide)

theorem raw_whole (h : o.HasList) :
    (o.fragment .whole).raw.toList = dropWhileEnd isBlank (cutList 0 none o.behind).1 := by
  obtain ⟨inner, hbehind⟩ := Occurrence.exists_behind_eq h
  rw [Occurrence.raw_of_hasList h, String.toList_ofList, hbehind]
  exact trim_cons (by decide) _

/-- A child that is not closed ends with the text, so that only white space at the end of the text
is lost. -/
theorem dropWhileEnd_raw_append (h : o.HasList) (level : Nat) :
    dropWhileEnd isBlank ((o.fragment .whole).raw.toList ++
        (cutList level none (cutList 0 none o.behind).2).1) =
      dropWhileEnd isBlank ((cutList 0 none o.behind).1 ++
        (cutList level none (cutList 0 none o.behind).2).1) := by
  rw [raw_whole h]
  rcases enclosed_or_cutList_eq 0 none o.behind with hclosed | hall
  · rw [dropWhileEnd_of_enclosed hclosed]
  · rw [hall]
    change dropWhileEnd isBlank (dropWhileEnd isBlank o.behind ++ []) =
      dropWhileEnd isBlank (o.behind ++ [])
    rw [List.append_nil, List.append_nil, dropWhileEnd_eq_rdropWhile, dropWhileEnd_eq_rdropWhile,
      List.rdropWhile_idempotent]

theorem woven_scanChildren (hlevel : 0 < level) (quote : Option Char) (boundary : Bool)
    (count : Nat) (cs : List Char) :
    Woven count (cutList level quote cs).1 (scanChildren level quote boundary count cs) := by
  fun_induction scanChildren level quote boundary count cs with
  | case1 => exact .nil _
  | case2 level quote boundary count c cs o rest hc ih =>
    have hchild := beginsChild_of_occurrenceAt hc
    rw [hchild.cutList_eq hlevel]
    obtain rfl := hchild.unquoted
    obtain rfl := hchild.rest
    exact (ih hlevel).child (dropWhileEnd_raw_append hchild.hasList level)
  | case3 level quote boundary count c cs hc hclose =>
    rw [cutList, if_pos hclose]
    exact (Woven.nil count).char c
  | case4 level quote boundary count c cs hc hclose ih =>
    rw [cutList, if_neg hclose]
    exact (ih (levelAfter_pos hlevel (by simpa using hclose))).char c

/-- Only annotations with an argument list become children. -/
theorem hasList_of_mem_scanChildren {cs : List Char}
    (h : o ∈ (scanChildren level quote boundary count cs).children) : o.HasList := by
  fun_induction scanChildren level quote boundary count cs with
  | case1 => cases h
  | case2 level quote boundary count c cs child rest hc ih =>
    rcases List.mem_cons.mp h with rfl | h
    · exact (beginsChild_of_occurrenceAt hc).hasList
    · exact ih h
  | case3 => cases h
  | case4 level quote boundary count c cs hc hclose ih => exact ih h

end Child

section Trim

/-- A text that has a last character, which is no white space. -/
structure Ended (cs : List Char) : Prop where
  ne_nil : cs ≠ []
  trimmed : dropWhileEnd isBlank cs = cs

/-- Only the last piece is trimmed, since no insert ends with white space. -/
theorem exists_trimmed (first : List Char) (pieces : List (List Char)) :
    ∃ first' pieces', pieces'.length = pieces.length ∧ ∀ inserts : List (List Char),
      inserts.length = pieces.length → (∀ i ∈ inserts, Ended i) →
      dropWhileEnd isBlank (weave first inserts pieces) = weave first' inserts pieces' := by
  induction pieces generalizing first with
  | nil =>
    refine ⟨dropWhileEnd isBlank first, [], rfl, fun inserts hlength _ => ?_⟩
    obtain rfl := List.length_eq_zero_iff.mp hlength
    simp [weave]
  | cons p pieces ih =>
    obtain ⟨p', pieces', hpieces, htrim⟩ := ih p
    refine ⟨first, p' :: pieces', congrArg (· + 1) hpieces, fun inserts hlength hends => ?_⟩
    obtain ⟨i, inserts, rfl⟩ := List.exists_cons_of_length_eq_add_one hlength
    obtain ⟨hend, hends⟩ := List.forall_mem_cons.mp hends
    rw [weave_cons, weave_cons, dropWhileEnd_append_of_ne_nil hend.ne_nil hend.trimmed,
      htrim inserts (Nat.succ.inj hlength) hends]

theorem ended_placeholder (n : Nat) : Ended (Fragment.placeholder n).toList := by
  refine ⟨Argument.placeholder_ne_nil n, List.rdropWhile_eq_self_iff.mpr fun hne hblank => ?_⟩
  have hall : "_child0123456789".toList.all (!isBlank ·) = true := by decide
  have hlast := List.all_eq_true.mp hall _ (Fragment.mem_placeholder (List.getLast_mem hne))
  rw [hblank] at hlast
  cases hlast

theorem ended_spelled (h : o.HasList) : Ended (spelled (o.fragment .whole)) := by
  refine ⟨by simp [spelled], ?_⟩
  obtain ⟨inner, hbehind⟩ := Occurrence.exists_behind_eq h
  have hne : (o.fragment .whole).raw.toList ≠ [] := by
    rw [raw_whole h, hbehind]
    intro hnil
    have := List.rdropWhile_eq_nil_iff.mp hnil '(' List.mem_cons_self
    cases this
  have htrim : dropWhileEnd isBlank (o.fragment .whole).raw.toList =
      (o.fragment .whole).raw.toList := by
    rw [raw_whole h, dropWhileEnd_eq_rdropWhile, dropWhileEnd_eq_rdropWhile,
      List.rdropWhile_idempotent]
  have hend := dropWhileEnd_append_of_ne_nil hne htrim ('@' :: (o.fragment .whole).name.toList) []
  simpa [dropWhileEnd, spelled] using hend

end Trim

/-- What is left of an argument list, with placeholders for the children, and the children give the
list again. -/
theorem Occurrence.exists_weave (h : o.HasList) : ∃ first pieces,
    pieces.length = o.children.length ∧
    (o.fragment .withChildren).raw.toList =
      weave first (placeholders 0 o.children.length) pieces ∧
    trim (cutList 0 none o.behind).1 =
      weave first (o.children.map fun c => spelled (c.fragment .whole)) pieces := by
  have hchildren : o.children = (scanWithChildren o.behind).children := if_pos h
  have hraw : (o.fragment .withChildren).raw.toList = trim (scanWithChildren o.behind).text := by
    rw [raw_of_hasList h, String.toList_ofList, withChildren_read]
    rfl
  obtain ⟨inner, hbehind⟩ := exists_behind_eq h
  rw [hraw, hchildren, hbehind, scanWithChildren_open]
  obtain ⟨first, pieces, hlength, htext, hlist⟩ :=
    (woven_scanChildren Nat.one_pos none true 0 inner).char '('
  obtain ⟨first', pieces', hlength', htrim⟩ := exists_trimmed first pieces
  have hopen (cs : List Char) : trim ('(' :: cs) = dropWhileEnd isBlank ('(' :: cs) :=
    trim_cons (by decide) cs
  refine ⟨first', pieces', hlength'.trans hlength, ?_, ?_⟩
  · refine (hopen _).trans ((congrArg _ htext).trans (htrim _ ?_ fun i hi => ?_))
    · rw [length_placeholders, hlength]
    · obtain ⟨n, -, rfl⟩ := List.mem_map.mp hi
      exact ended_placeholder n
  · refine (hopen _).trans (hlist.trans (htrim _ ?_ fun i hi => ?_))
    · rw [List.length_map, hlength]
    · obtain ⟨c, hc, rfl⟩ := List.mem_map.mp hi
      exact ended_spelled (hasList_of_mem_scanChildren hc)

/-- For every annotation of a comment that has an argument list: the list, which goes up to the
parenthesis that closes it or to the end of the text, is what its value is with the children, as they
are written, in the places of the placeholders. No child has children. -/
theorem children_lossless (comment : String) :
    ∃ ps, Annotated (undecorate comment.toList) ps ∧
      List.Forall₂ (fun p f => ∃ behind,
        NameAt (undecorate comment.toList) p f.name.toList behind ∧
        (∀ c ∈ f.children, c.children = []) ∧
        (behind.head? = some '(' → ∃ list first pieces, Arguments behind list ∧
          pieces.length = f.children.length ∧
          f.raw.toList = weave first (placeholders 0 f.children.length) pieces ∧
          trim list = weave first (f.children.map spelled) pieces))
        ps (fragments comment) := by
  refine exists_annotated_fragments comment fun p o _ => ?_
  rw [o.children_fragment]
  refine ⟨List.forall_mem_map.mpr fun c _ => Annotates.children_whole c, fun hopen => ?_⟩
  obtain ⟨first, pieces, hlength, hraw, hlist⟩ := Occurrence.exists_weave hopen
  refine ⟨_, first, pieces, (arguments_iff_cutList hopen).mpr rfl, ?_, ?_, ?_⟩
  · rw [hlength, List.length_map]
  · rw [hraw, List.length_map]
  · rw [hlist, List.map_map]
    rfl

end DocAnnotations.Comment
