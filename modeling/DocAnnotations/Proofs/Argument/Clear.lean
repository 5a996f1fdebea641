import DocAnnotations.Proofs.Argument.Sketch
import DocAnnotations.Proofs.Factory.Faithful

/-! Argument texts that mention no placeholder apart from their children, and the attributes that
they give. -/
namespace DocAnnotations.Argument

/-- A part as one character, where an at sign stands for a child. -/
def Part.sign : Part → Char
  | char c => c
  | child _ => '@'

namespace Lexeme

variable {ps : List Part} {ls : List Lexeme} {l : Lexeme}

theorem written_iff : Written ps ↔ ∀ n, .child n ∉ ps := by
  constructor
  · intro h n hn
    obtain ⟨c, hc⟩ := h _ hn
    cases hc
  · intro h p hp
    cases p with
    | char c => exact ⟨c, rfl⟩
    | child n => exact absurd hp (h n)

instance (ps : List Part) : Decidable (Written ps) :=
  decidable_of_iff (∀ p ∈ ps, p.child? = none) <| by
    refine forall₂_congr fun p _ => ?_
    cases p <;> simp [Part.child?]

theorem Written.spell_eq (h : Written ps) : spell ps = ps.map Part.sign := by
  induction ps with
  | nil => rfl
  | cons p ps ih =>
    obtain ⟨⟨c, rfl⟩, hps⟩ := List.forall_mem_cons.mp h
    rw [spell_char, ih hps]
    rfl

/-- The tokens of a clear text are clear. -/
theorem clear_parts (h : Clear (ps.map Part.sign)) (hls : lex ps = .ok ls) (hl : l ∈ ls) :
    Clear (l.parts.map Part.sign) := by
  refine each_parts (P := fun qs => Clear (qs.map Part.sign))
    (fun hqs hclear => hclear.mono (hqs.map _)) (fun front behind hclear => ?_) .between ps h ls hls
    l hl
  have hquote (as bs : List Char) : Clear (as ++ '"' :: bs) ↔ Clear as ∧ Clear bs :=
    clear_append_cons_iff (by decide) rfl
  simp only [List.map_append, List.map_cons, Part.sign, hquote] at hclear ⊢
  exact ⟨hclear.1, ((hquote [] _).mp hclear.2).2⟩

theorem not_mentions_label (h : Clear (l.parts.map Part.sign)) (hl : Written l.parts) :
    ¬ Mentions l.label.toList := by
  cases l with
  | punct c =>
    intro hm
    have hlength := hm.length_le
    rw [show (punct c).label.toList = [c] by simp [label, token, Token.content],
      List.length_singleton] at hlength
    exact absurd hlength (by decide)
  | text ps =>
    rw [parts] at h hl
    rw [label, token, hl.spell_eq, Token.ofQuoted, Token.content, String.toList_ofList]
    exact h
  | word ps =>
    rw [parts] at h hl
    rw [label, token, hl.spell_eq, Token.ofBare, Token.content, String.toList_ofList]
    exact fun hm => h.not_mentions (mentions_of_words hm)

theorem not_mentions_key (h : Clear (l.parts.map Part.sign)) (hl : Written l.parts) :
    ¬ Mentions l.key.toList := by
  rw [key, Text.strip, String.toList_ofList, mentions_trim_iff]
  exact not_mentions_label h hl

end Lexeme

/-- Every token is without children, or is a child, which stands in front of no equals sign. -/
def Consumed (ps : List Part) : Prop :=
  ∀ ls, Lexeme.lex ps = .ok ls → ∀ l ∈ ls,
    Lexeme.Written l.parts ∨ l.child?.isSome ∧ ¬ [l, .punct '='] <:+: ls

namespace Sketch

mutual

/-- The keys of a sketch at any depth. -/
def keys : Sketch → List Lexeme
  | text _ | word _ => []
  | group _ elements => elementKeys elements

def elementKeys : List (Option Lexeme × Sketch) → List Lexeme
  | [] => []
  | (key, w) :: rest => key.toList ++ w.keys ++ elementKeys rest

end

theorem mem_elementKeys {es : List (Option Lexeme × Sketch)} {l : Lexeme} :
    l ∈ elementKeys es ↔ ∃ e ∈ es, l ∈ e.1 ∨ l ∈ e.2.keys := by
  induction es with
  | nil => simp [elementKeys]
  | cons e es ih => simp [elementKeys, ih, or_assoc]

mutual

/-- Each key stands in front of an equals sign. -/
theorem isInfix_of_mem_keys : ∀ {w : Sketch} {ls : List Lexeme}, w.Drawn ls →
    ∀ l ∈ w.keys, [l, .punct '='] <:+: ls
  | _, _, .text ps | _, _, .word ps => nofun
  | _, _, .group he => fun l hl =>
    (isInfix_of_mem_elementKeys he l hl).trans
      ((List.prefix_append _ _).isInfix.trans (List.suffix_cons _ _).isInfix)

theorem isInfix_of_mem_elementKeys : ∀ {es : List (Option Lexeme × Sketch)} {ls : List Lexeme},
    ElementsDrawn es ls → ∀ l ∈ elementKeys es, [l, .punct '='] <:+: ls
  | _, _, .nil => nofun
  | _, _, .comma he => fun l hl =>
    (isInfix_of_mem_elementKeys he l hl).trans (List.suffix_cons _ _).isInfix
  | _, _, .unkeyed hw he => fun l hl => by
    rcases List.mem_append.mp hl with hl | hl
    · exact (isInfix_of_mem_keys hw l hl).trans (List.prefix_append _ _).isInfix
    · exact (isInfix_of_mem_elementKeys he l hl).trans (List.suffix_append _ _).isInfix
  | _, _, @ElementsDrawn.keyed _ key _ ls rest hw he => fun l hl => by
    have hbehind : ls ++ rest <:+: key :: .punct '=' :: (ls ++ rest) :=
      (List.suffix_append [key, .punct '='] _).isInfix
    rcases List.mem_append.mp hl with hl | hl
    · rcases List.mem_append.mp hl with hl | hl
      · obtain rfl := Option.some.inj (Option.mem_toList.mp hl)
        exact (List.prefix_append [_, _] _).isInfix
      · exact ((isInfix_of_mem_keys hw l hl).trans (List.prefix_append _ _).isInfix).trans hbehind
    · exact ((isInfix_of_mem_elementKeys he l hl).trans (List.suffix_append _ _).isInfix).trans
        hbehind

end

theorem key_of_mem_members {α : Type} {list : List α → α} {contents : Contents α}
    {m : String × α} (h : m ∈ contents.members list) :
    m.1 = unkeyedName ∨ m.1 ∈ contents.keyed.map Prod.fst := by
  have hkeyed (hm : m ∈ contents.keyed) : m.1 ∈ contents.keyed.map Prod.fst :=
    List.mem_map_of_mem hm
  obtain ⟨_ | ⟨one, _ | ⟨other, rest⟩⟩, keyed⟩ := contents
  · exact .inr (hkeyed h)
  all_goals
    rcases List.mem_cons.mp h with rfl | h
    · exact .inl rfl
    · exact .inr (hkeyed h)

theorem key_of_mem_ofElements {α : Type} {elements : List (Option String × α)} {key : String}
    (h : key ∈ (Contents.ofElements elements).keyed.map Prod.fst) :
    ∃ e ∈ elements, e.1 = some key := by
  obtain ⟨m, hm, rfl⟩ := List.mem_map.mp h
  obtain ⟨e, he, hem⟩ := List.mem_filterMap.mp hm
  obtain ⟨k, hk, rfl⟩ := Option.map_eq_some_iff.mp hem
  exact ⟨e, he, hk⟩

theorem not_mentions_unkeyedName : ¬ Mentions unkeyedName.toList := by decide

theorem free_groupValue {elements : List (Option String × Value)}
    (hkeys : ∀ e ∈ elements, ∀ key ∈ e.1, ¬ Mentions key.toList)
    (hvalues : ∀ e ∈ elements, e.2.Free) : (groupValue elements).Free := by
  have hall : ∀ v ∈ (Contents.ofElements elements).all, v.Free := by
    intro v hv
    obtain ⟨e, he, rfl⟩ := Contents.mem_all.mp hv
    exact hvalues e he
  rw [groupValue]
  split
  next => exact Value.free_list.mpr fun v hv => hall v (List.mem_append_left _ hv)
  next =>
    rw [Value.free_map]
    intro e he
    have he := Entries.mem_ofPairs he
    refine ⟨?_, Contents.forall_members (fun vs hvs => Value.free_list.mpr hvs) hall e he⟩
    rcases key_of_mem_members he with hkey | hkey
    · rw [hkey]
      exact not_mentions_unkeyedName
    · obtain ⟨d, hd, hkey⟩ := key_of_mem_ofElements hkey
      exact hkeys d hd _ hkey

variable {leaf : Lexeme → Value} {ps : List Part} {ls : List Lexeme} {w : Sketch}

/-- The value of a sketch shows what its keys and leaves show. -/
theorem free_value (hkeys : ∀ l ∈ w.keys, ¬ Mentions l.key.toList)
    (hleaves : ∀ l ∈ w.leaves, (leaf l).Free) : (w.value leaf).Free := by
  induction w with
  | text ps | word ps => exact hleaves _ List.mem_cons_self
  | group bracket elements ih =>
    rw [keys] at hkeys
    rw [leaves] at hleaves
    rw [value, elementValues_eq_map]
    refine free_groupValue (fun e he key hkey => ?_) fun e he => ?_
    · obtain ⟨d, hd, rfl⟩ := List.mem_map.mp he
      obtain ⟨l, hl, rfl⟩ := Option.map_eq_some_iff.mp hkey
      exact hkeys l (mem_elementKeys.mpr ⟨d, hd, .inl hl⟩)
    · obtain ⟨d, hd, rfl⟩ := List.mem_map.mp he
      exact ih d hd (fun l hl => hkeys l (mem_elementKeys.mpr ⟨d, hd, .inr hl⟩))
        fun l hl => hleaves l (mem_elementLeaves.mpr ⟨d, hd, hl⟩)

theorem free_together {ws : List Sketch} (h : ∀ u ∈ ws, (u.value leaf).Free) :
    ((together ws).value leaf).Free := by
  rw [value_together, Value.free_list]
  simpa using h

theorem key_of_mem_alone {positional : Option String} {ws : List Sketch} {e : String × Sketch}
    (he : e ∈ alone positional ws) : e.1 ∈ positional := by
  unfold alone at he
  split at he
  next => cases he
  next => cases he
  next field _ =>
    rcases ws with _ | ⟨one, _ | ⟨other, rest⟩⟩
    · cases he
    · dsimp only at he
      split at he
      next => cases he
      next =>
        obtain rfl := List.mem_singleton.mp he
        rfl
    · obtain rfl := List.mem_singleton.mp he
      rfl

/-- The attributes of a sketch show what its keys and leaves show. -/
theorem free_attributes {positional : Option String}
    (hpositional : ∀ field ∈ positional, ¬ Mentions field.toList)
    (hkeys : ∀ l ∈ w.keys, ¬ Mentions l.key.toList) (hleaves : ∀ l ∈ w.leaves, (leaf l).Free) :
    ∀ e ∈ w.attributes positional, ¬ Mentions e.1.toList ∧ (e.2.value leaf).Free := by
  cases w with
  | text ps | word ps => nofun
  | group bracket elements =>
    rw [keys] at hkeys
    rw [leaves] at hleaves
    have helement : ∀ e ∈ elements, (e.2.value leaf).Free := fun e he =>
      free_value (fun l hl => hkeys l (mem_elementKeys.mpr ⟨e, he, .inr hl⟩))
        fun l hl => hleaves l (mem_elementLeaves.mpr ⟨e, he, hl⟩)
    have hvalue : ∀ e ∈ (group bracket elements).attributes positional, (e.2.value leaf).Free :=
      forall_attributes (P := fun u => (u.value leaf).Free) (fun ws hws => free_together hws)
        positional helement
    refine fun e he => ⟨?_, hvalue e he⟩
    rw [attributes] at he
    split at he
    next => exact hpositional _ (key_of_mem_alone he)
    next =>
      rcases key_of_mem_members (Entries.mem_ofPairs he) with hkey | hkey
      · rw [hkey]
        exact not_mentions_unkeyedName
      · obtain ⟨d, hd, hkey⟩ := key_of_mem_ofElements hkey
        obtain ⟨c, hc, rfl⟩ := List.mem_map.mp hd
        obtain ⟨l, hl, hlabel⟩ := Option.map_eq_some_iff.mp hkey
        rw [← hlabel]
        exact hkeys l (mem_elementKeys.mpr ⟨c, hc, .inl hl⟩)

/-- Argument lists whose children are all used up give attributes that show nothing else. -/
theorem Gives.free {positional : Option String} {raw : String} {sketches : Entries Sketch}
    (h : Gives positional raw ps sketches) (hclear : Clear (ps.map Part.sign))
    (hconsumed : Consumed ps) (hpositional : ∀ field ∈ positional, ¬ Mentions field.toList)
    (hchild : ∀ l : Lexeme, l.child?.isSome → (∃ ls, Lexeme.lex ps = .ok ls ∧ l ∈ ls) →
      (leaf l).Free)
    (hwritten : ∀ l : Lexeme, ¬ Mentions l.label.toList → (leaf l).Free) :
    ∀ e ∈ sketches, ¬ Mentions e.1.toList ∧ (e.2.value leaf).Free := by
  cases h with
  | nothing => nofun
  | @list ls w _ hls hdrawn =>
    refine free_attributes hpositional (fun l hl => ?_) fun l hl => ?_
    · have hbefore := isInfix_of_mem_keys hdrawn l hl
      have hmem : l ∈ ls := hbefore.subset List.mem_cons_self
      rcases hconsumed ls hls l hmem with hl | hl
      · exact Lexeme.not_mentions_key (Lexeme.clear_parts hclear hls hmem) hl
      · exact absurd hbefore hl.2
    · have hmem := Sketch.mem_of_mem_leaves hdrawn l hl
      rcases hconsumed ls hls l hmem with hl | hl
      · exact hwritten l (Lexeme.not_mentions_label (Lexeme.clear_parts hclear hls hmem) hl)
      · exact hchild l hl.1 ⟨ls, hls, hmem⟩

end Sketch

end DocAnnotations.Argument
