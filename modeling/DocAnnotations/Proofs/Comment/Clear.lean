import DocAnnotations.Proofs.Argument.Clear
import DocAnnotations.Proofs.Comment.Parts

/-! Where the annotations of a comment mention placeholders that the comment does not mention. -/
namespace DocAnnotations.Comment

open Argument

section Undecorate

theorem isInfix_dropOpening (cs : List Char) : dropOpening cs <:+: cs := by
  unfold dropOpening
  split
  next cs => exact (List.suffix_append ['/', '*', '*'] cs).isInfix
  next cs _ => exact (List.suffix_append ['/', '*'] cs).isInfix
  next => exact List.infix_rfl

theorem isPrefix_dropClosing (cs : List Char) : dropClosing cs <+: cs := by
  fun_induction dropClosing cs with
  | case1 => exact List.nil_prefix
  | case2 => exact List.nil_prefix
  | case3 c cs _ ih => exact (List.prefix_cons_inj c).mpr ih

theorem isInfix_dropMark (line : List Char) : dropMark line <:+: line := by
  unfold dropMark
  split
  next => exact List.infix_rfl
  next rest _ hrest =>
    exact ((List.suffix_cons '*' rest).trans (hrest ▸ List.dropWhile_suffix _)).isInfix
  next => exact List.infix_rfl

/-- The text of a comment mentions a placeholder only if the comment does. -/
theorem mentions_of_undecorate {cs : List Char} (h : Mentions (undecorate cs)) : Mentions cs := by
  rw [undecorate, mentions_intercalate_iff (by decide)] at h
  obtain ⟨marked, hmarked, h⟩ := h
  obtain ⟨line, hline, rfl⟩ := List.mem_map.mp hmarked
  have hlines := (mentions_intercalate_iff (d := '\n') (by decide)).mpr
    ⟨line, hline, h.mono (isInfix_dropMark line)⟩
  rw [intercalate_pieces] at hlines
  exact hlines.mono ((isPrefix_dropClosing _).isInfix.trans ((isInfix_dropOpening _).trans
    (trim_isInfix cs)))

end Undecorate

theorem splitAtSigil_suffix (boundary : Bool) (cs : List Char) :
    (splitAtSigil boundary cs).2 <:+ cs :=
  ⟨_, splitAtSigil_append boundary cs⟩

theorem splitAtSigil_isPrefix (boundary : Bool) (cs : List Char) :
    (splitAtSigil boundary cs).1 <+: cs :=
  ⟨_, splitAtSigil_append boundary cs⟩

theorem suffix_of_cutName {cs name behind : List Char} (h : cutName cs = some (name, behind)) :
    behind <:+ cs :=
  ⟨name, cutName_append h⟩

theorem suffix_of_occurrenceAt {boundary : Bool} {quote : Option Char} {c : Char}
    {cs rest : List Char} {o : Occurrence} (h : occurrenceAt boundary quote c cs = some (o, rest)) :
    o.behind <:+ cs ∧ rest <:+ cs := by
  have hchild := beginsChild_of_occurrenceAt h
  have hbehind := suffix_of_cutName hchild.name
  have hlist : rest <:+ o.behind := ⟨_, by rw [hchild.rest, cutList_append]⟩
  exact ⟨hbehind, hlist.trans hbehind⟩

/-- Children and the rest behind an argument list stand in the text that is scanned. -/
theorem suffix_scanChildren (level : Nat) (quote : Option Char) (boundary : Bool) (count : Nat)
    (cs : List Char) :
    (∀ o ∈ (scanChildren level quote boundary count cs).children, o.behind <:+ cs) ∧
      (scanChildren level quote boundary count cs).rest <:+ cs := by
  fun_induction scanParts level quote boundary count cs with
  | case1 => simp [scanChildren]
  | case2 level quote boundary count c cs o rest hc ih =>
    obtain ⟨hbehind, hrest⟩ := suffix_of_occurrenceAt hc
    have hcons {ds : List Char} (h : ds <:+ cs) : ds <:+ c :: cs := h.trans (List.suffix_cons c cs)
    rw [scanChildren_child hc]
    refine ⟨List.forall_mem_cons.mpr ⟨hcons hbehind, fun p hp => ?_⟩, hcons (ih.2.trans hrest)⟩
    exact hcons ((ih.1 p hp).trans hrest)
  | case3 level quote boundary count c cs hc hclose =>
    rw [scanChildren_close hc hclose]
    exact ⟨List.forall_mem_nil _, List.suffix_cons c cs⟩
  | case4 level quote boundary count c cs hc hclose ih =>
    rw [scanChildren_char hc hclose]
    exact ⟨fun p hp => (ih.1 p hp).trans (List.suffix_cons c cs),
      ih.2.trans (List.suffix_cons c cs)⟩

/-- What holds of a text also within it, and of two texts with an at sign between them. -/
structure Parted (P : List Char → Prop) : Prop where
  within : ∀ {cs ds}, ds <:+: cs → P cs → P ds
  join : ∀ {cs ds}, P cs → P ds → P (cs ++ '@' :: ds)

theorem parted_not_mentions : Parted (¬ Mentions ·) where
  within hds h hm := h (hm.mono hds)
  join hcs hds := by
    rw [mentions_append_cons_iff (by decide), not_or]
    exact ⟨hcs, hds⟩

theorem parted_clear : Parted Clear where
  within hds h := h.mono hds
  join hcs hds := (clear_append_cons_iff (by decide) rfl).mpr ⟨hcs, hds⟩

section Parted

variable {P : List Char → Prop} (hP : Parted P)
include hP

/-- What holds of a text holds of its argument list apart from the children. What stands in front
goes along, since the property may fail across the beginning of the list. -/
theorem Parted.scanParts (level : Nat) (quote : Option Char) (boundary : Bool) (count : Nat)
    (cs front : List Char) (h : P (front ++ cs)) :
    P (front ++ (Comment.scanParts level quote boundary count cs).map Part.sign) := by
  fun_induction Comment.scanParts level quote boundary count cs generalizing front with
  | case1 => exact h
  | case2 level quote boundary count c cs o rest hc ih =>
    have hrest : rest <:+: front ++ c :: cs :=
      ((suffix_of_occurrenceAt hc).2.trans ((List.suffix_cons c cs).trans
        (List.suffix_append front _))).isInfix
    refine hP.join ?_ ?_
    · exact hP.within (List.prefix_append front _).isInfix h
    · exact ih [] (hP.within hrest h)
  | case3 level quote boundary count c cs hc hclose =>
    exact hP.within ⟨[], cs, by simp [Part.sign]⟩ h
  | case4 level quote boundary count c cs hc hclose ih =>
    have := ih (front ++ [c]) (by simpa using h)
    simpa [Part.sign] using this

theorem Parted.parts {o : Occurrence} (h : P o.behind) : P (o.parts.map Part.sign) := by
  rw [Occurrence.parts]
  split
  next => exact hP.scanParts 0 none false 0 o.behind [] h
  next =>
    rw [List.map_map, show Part.sign ∘ Part.char = id from rfl, List.map_id]
    exact hP.within (splitAtSigil_isPrefix false o.behind).isInfix h

end Parted

namespace Occurrence

theorem suffix_of_mem {reader : ArgumentReader} (hread : ∀ cs, (reader.read cs).rest <:+ cs)
    {cs : List Char} {o : Occurrence} (ho : o ∈ occurrencesFrom reader cs) : o.behind <:+ cs := by
  fun_induction occurrencesFrom reader cs with
  | case1 => cases ho
  | case2 c cs hn ih =>
    exact (ih ho).trans ((splitAtSigil_suffix false cs).trans (List.suffix_cons c cs))
  | case3 c cs name behind hn ih =>
    have hbehind : behind <:+ c :: cs := (suffix_of_cutName hn).trans (List.suffix_cons c cs)
    rcases List.mem_cons.mp ho with rfl | ho
    · exact hbehind
    · refine ((ih ho).trans (splitAtSigil_suffix false _)).trans (.trans ?_ hbehind)
      rw [rest]
      split
      next => exact hread _
      next => exact List.suffix_rfl

theorem suffix_of_mem_occurrences {comment : String} {o : Occurrence}
    (ho : o ∈ occurrences comment) : o.behind <:+ undecorate comment.toList := by
  refine (suffix_of_mem (fun cs => ?_) ho).trans (splitAtSigil_suffix true _)
  rw [withChildren_read]
  exact (suffix_scanChildren 0 none false 0 cs).2

theorem suffix_of_mem_children {o c : Occurrence} (hc : c ∈ o.children) :
    c.behind <:+ o.behind := by
  rw [children] at hc
  split at hc
  next => exact (suffix_scanChildren 0 none false 0 o.behind).1 c hc
  next => cases hc

theorem raw_eq_trim (o : Occurrence) :
    (o.fragment .withChildren).raw = String.ofList (Text.trim (spell o.parts)) := by
  rw [parts]
  split
  next h =>
    rw [spell_scanParts, raw_of_hasList h, withChildren_read]
    rfl
  next h =>
    rw [spell_map_char, fragment, if_neg h]
    rfl

theorem isInfix_raw_whole (o : Occurrence) :
    (o.fragment .whole).raw.toList <:+: o.behind := by
  have htext {cs : List Char} (h : cs <+: o.behind) : Text.trim cs <:+: o.behind :=
    (trim_isInfix cs).trans h.isInfix
  rw [fragment]
  split
  next =>
    rw [Comment.fragment, String.toList_ofList]
    exact htext ⟨_, cutList_append 0 none o.behind⟩
  next =>
    rw [Comment.fragment, String.toList_ofList]
    exact htext (splitAtSigil_isPrefix false o.behind)

end Occurrence

namespace Annotates

variable {comment : String} {f : Fragment} {ps : List Part}

/-- What holds of a comment holds of its annotations apart from their children. -/
theorem parted (h : Annotates comment f ps) {P : List Char → Prop} (hP : Parted P)
    (hcomment : P (undecorate comment.toList)) : P (ps.map Part.sign) := by
  have hbehind {o : Occurrence} (ho : o ∈ occurrences comment) : P o.behind :=
    hP.within (Occurrence.suffix_of_mem_occurrences ho).isInfix hcomment
  cases h with
  | whole ho => exact hP.parts (hbehind ho)
  | @child _ c ho hc =>
    rw [List.map_map, show Part.sign ∘ Part.char = id from rfl, List.map_id]
    exact hP.within (c.isInfix_raw_whole.trans (Occurrence.suffix_of_mem_children hc).isInfix)
      (hbehind ho)

/-- Children have no children. -/
theorem exists_of_mem_children (h : Annotates comment f ps) {c : Fragment} (hc : c ∈ f.children) :
    ∃ qs, Annotates comment c qs ∧ c.children = [] := by
  cases h with
  | @whole o ho =>
    rw [Occurrence.children_fragment] at hc
    obtain ⟨d, hd, rfl⟩ := List.mem_map.mp hc
    exact ⟨_, .child ho hd, children_whole d⟩
  | @child _ d _ _ =>
    rw [children_whole] at hc
    cases hc

theorem mentions_raw_iff_spell (h : Annotates comment f ps) :
    Mentions f.raw.toList ↔ Mentions (spell ps) := by
  cases h with
  | @whole o _ => rw [o.raw_eq_trim, String.toList_ofList, mentions_trim_iff]
  | child => rw [spell_map_char]

theorem children_eq_nil_iff (h : Annotates comment f ps) :
    f.children = [] ↔ Lexeme.Written ps := by
  rw [Lexeme.written_iff, ← List.length_eq_zero_iff, ← List.range_eq_nil, ← h.children_eq,
    List.filterMap_eq_nil_iff]
  constructor
  · intro hall n hn
    cases hall _ hn
  · intro hall p hp
    cases p with
    | char c => rfl
    | child n => exact absurd hp (hall n)

/-- If the comment mentions no placeholder, the text of an annotation mentions one exactly if it has
children. -/
theorem mentions_raw_iff (h : Annotates comment f ps)
    (hcomment : ¬ Mentions (undecorate comment.toList)) :
    Mentions f.raw.toList ↔ f.children ≠ [] := by
  rw [h.mentions_raw_iff_spell, ne_eq, h.children_eq_nil_iff]
  constructor
  · rintro hm hwritten
    rw [hwritten.spell_eq] at hm
    exact h.parted parted_not_mentions hcomment hm
  · intro hchild
    simp only [Lexeme.written_iff, not_forall, not_not] at hchild
    obtain ⟨n, hn⟩ := hchild
    obtain ⟨front, behind, rfl⟩ := List.append_of_mem hn
    rw [spell_append, spell_child]
    exact (mentions_placeholder n).mono ⟨spell front, spell behind, by simp⟩

end Annotates

end DocAnnotations.Comment
