import DocAnnotations.Proofs.Argument.Part

/-! The parts of argument lists: what is written there, and which children stand where. -/
namespace DocAnnotations.Comment

open Argument

/-- The parts of an argument list, where `count` children came before. -/
def scanParts (level : Nat) (quote : Option Char) (boundary : Bool) (count : Nat) :
    List Char → List Part
  | [] => []
  | c :: cs =>
    match hc : occurrenceAt boundary quote c cs with
    | some (_, rest) => .child count :: scanParts level quote false (count + 1) rest
    | none =>
      if closesList level quote c then [.char c]
      else
        .char c :: scanParts (levelAfter level quote c) (quoteAfter quote c) (isBoundary c) count cs
termination_by cs => cs.length
decreasing_by
  · have := occurrenceAt_length_le hc
    simp only [List.length_cons]
    omega
  · simp

section Scan

variable {level count : Nat} {quote : Option Char} {boundary : Bool} {c : Char} {cs : List Char}

theorem scanChildren_child {o : Occurrence} {rest : List Char}
    (h : occurrenceAt boundary quote c cs = some (o, rest)) :
    scanChildren level quote boundary count (c :: cs) =
      (scanChildren level quote false (count + 1) rest).withChild count o := by
  rw [scanChildren]
  split
  next hs => cases h.symm.trans hs; rfl
  next hs => cases h.symm.trans hs

theorem scanChildren_close (h : occurrenceAt boundary quote c cs = none)
    (hclose : closesList level quote c = true) :
    scanChildren level quote boundary count (c :: cs) = ⟨[c], [], cs, true⟩ := by
  rw [scanChildren]
  split
  next hs => cases h.symm.trans hs
  next => rw [if_pos hclose]

theorem scanChildren_char (h : occurrenceAt boundary quote c cs = none)
    (hclose : ¬ closesList level quote c = true) :
    scanChildren level quote boundary count (c :: cs) =
      (scanChildren (levelAfter level quote c) (quoteAfter quote c) (isBoundary c) count
        cs).withChar c := by
  rw [scanChildren]
  split
  next hs => cases h.symm.trans hs
  next => rw [if_neg hclose]

end Scan

/-- The scan of an argument list gives its parts, with a placeholder for each child. -/
theorem spell_scanParts (level : Nat) (quote : Option Char) (boundary : Bool) (count : Nat)
    (cs : List Char) : spell (scanParts level quote boundary count cs) =
      (scanChildren level quote boundary count cs).text := by
  fun_induction scanParts level quote boundary count cs with
  | case1 => rw [scanChildren]; rfl
  | case2 level quote boundary count c cs o rest hc ih =>
    rw [scanChildren_child hc, spell_child, ih]
    rfl
  | case3 level quote boundary count c cs hc hclose =>
    rw [scanChildren_close hc hclose]
    rfl
  | case4 level quote boundary count c cs hc hclose ih =>
    rw [scanChildren_char hc hclose, spell_char, ih]
    rfl

/-- The children stand in their order. -/
theorem children_scanParts (level : Nat) (quote : Option Char) (boundary : Bool) (count : Nat)
    (cs : List Char) : (scanParts level quote boundary count cs).filterMap Part.child? =
      List.range' count (scanChildren level quote boundary count cs).children.length := by
  fun_induction scanParts level quote boundary count cs with
  | case1 => rw [scanChildren]; rfl
  | case2 level quote boundary count c cs o rest hc ih =>
    rw [scanChildren_child hc]
    exact congrArg (count :: ·) ih
  | case3 level quote boundary count c cs hc hclose =>
    rw [scanChildren_close hc hclose]
    rfl
  | case4 level quote boundary count c cs hc hclose ih =>
    rw [scanChildren_char hc hclose]
    exact ih

/-- No child stands between quotes. -/
theorem quiet_scanParts (level : Nat) (quote : Option Char) (boundary : Bool) (count : Nat)
    (cs : List Char) : Lexeme.Quiet quote (scanParts level quote boundary count cs) := by
  fun_induction scanParts level quote boundary count cs with
  | case1 => exact .nil
  | case2 level quote boundary count c cs o rest hc ih =>
    obtain rfl := (beginsChild_of_occurrenceAt hc).unquoted
    exact .child ih
  | case3 => exact .char .nil
  | case4 level quote boundary count c cs hc hclose ih => exact .char ih

namespace Occurrence

/-- The text of an annotation as it is written: its argument list, or the text up to the next
annotation. -/
def parts (o : Occurrence) : List Part :=
  if o.HasList then scanParts 0 none false 0 o.behind
  else (splitAtSigil false o.behind).1.map .char

theorem lex_parts (o : Occurrence) :
    Token.lex (spell o.parts) = Token.lex (o.fragment .withChildren).raw.toList := by
  rw [parts]
  split
  next h =>
    rw [spell_scanParts, raw_of_hasList h, withChildren_read, String.toList_ofList, Token.lex_trim]
    rfl
  next h =>
    rw [spell_map_char, fragment, if_neg h, Comment.fragment, String.toList_ofList, Token.lex_trim]

/-- The children of an annotation stand in its text in their order. -/
theorem children_parts (o : Occurrence) :
    o.parts.filterMap Part.child? = List.range o.children.length := by
  rw [parts, children, List.range_eq_range']
  split
  next => exact children_scanParts 0 none false 0 o.behind
  next => simp [List.filterMap_map, Function.comp_def, Part.child?]

theorem quiet_parts (o : Occurrence) : Lexeme.Quiet none o.parts := by
  rw [parts]
  split
  next => exact quiet_scanParts 0 none false 0 o.behind
  next => exact Lexeme.quiet_map_char none _

end Occurrence

/-- The annotations of a comment and their children, with their texts as they are written. -/
inductive Annotates (comment : String) : Fragment → List Part → Prop
  | whole {o : Occurrence} : o ∈ occurrences comment →
      Annotates comment (o.fragment .withChildren) o.parts
  | child {o c : Occurrence} : o ∈ occurrences comment → c ∈ o.children →
      Annotates comment (c.fragment .whole) ((c.fragment .whole).raw.toList.map .char)

namespace Annotates

variable {comment : String} {f : Fragment} {ps : List Part} {ls : List Lexeme} {l : Lexeme}

theorem of_mem (h : f ∈ fragments comment) : ∃ ps, Annotates comment f ps := by
  rw [fragments_eq_map] at h
  obtain ⟨o, ho, rfl⟩ := List.mem_map.mp h
  exact ⟨o.parts, .whole ho⟩

theorem of_mem_children {g : Fragment} (hg : g ∈ fragments comment) (h : f ∈ g.children) :
    ∃ ps, Annotates comment f ps := by
  rw [fragments_eq_map] at hg
  obtain ⟨o, ho, rfl⟩ := List.mem_map.mp hg
  rw [Occurrence.children_fragment] at h
  obtain ⟨c, hc, rfl⟩ := List.mem_map.mp h
  exact ⟨_, .child ho hc⟩

theorem children_whole (o : Occurrence) : (o.fragment .whole).children = [] := by
  rw [Occurrence.fragment]
  split <;> rfl

theorem lex_eq (h : Annotates comment f ps) :
    Token.lex (spell ps) = Token.lex f.raw.toList := by
  cases h with
  | @whole o _ => exact o.lex_parts
  | child => rw [spell_map_char]

theorem quiet (h : Annotates comment f ps) : Lexeme.Quiet none ps := by
  cases h with
  | @whole o _ => exact o.quiet_parts
  | child => exact Lexeme.quiet_map_char none _

/-- Between quotes stand characters only. -/
theorem written_of_text (h : Annotates comment f ps) (hls : Lexeme.lex ps = .ok ls)
    {qs : List Part} (hqs : .text qs ∈ ls) : Lexeme.Written qs :=
  Lexeme.each_textWritten .between ps h.quiet trivial ls hls _ hqs qs rfl

/-- The children of an annotation stand in its text in their order. -/
theorem children_eq (h : Annotates comment f ps) :
    ps.filterMap Part.child? = List.range f.children.length := by
  cases h with
  | @whole o _ => rw [o.children_parts, o.children_fragment, List.length_map]
  | child =>
    rw [children_whole, List.filterMap_map]
    exact List.filterMap_eq_nil_iff.mpr fun _ _ => rfl

theorem lt_of_mem (h : Annotates comment f ps) {n : Nat} (hn : .child n ∈ ps) :
    n < f.children.length := by
  have hn : n ∈ ps.filterMap Part.child? := List.mem_filterMap.mpr ⟨_, hn, rfl⟩
  rwa [h.children_eq, List.mem_range] at hn

theorem mem_of_mem_parts (hls : Lexeme.lex ps = .ok ls) (hl : l ∈ ls) {n : Nat}
    (hn : .child n ∈ l.parts) : .child n ∈ ps := by
  refine Lexeme.each_parts (P := fun qs => ∀ n, .child n ∈ qs → .child n ∈ ps)
    (fun hqs h n hn => h n (hqs.subset hn)) (fun front behind h n hn => h n ?_) .between ps
    (fun n hn => hn) ls hls l hl n hn
  simpa using hn

/-- A word that is a child stands for one of the children. -/
theorem lt_of_child? (h : Annotates comment f ps) (hls : Lexeme.lex ps = .ok ls) (hl : l ∈ ls)
    {n : Nat} (hn : l.child? = some n) : n < f.children.length :=
  h.lt_of_mem (mem_of_mem_parts hls hl (Lexeme.mem_parts_of_child? hn))

end Annotates

end DocAnnotations.Comment
