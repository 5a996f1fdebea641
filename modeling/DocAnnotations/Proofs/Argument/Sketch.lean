import DocAnnotations.Proofs.Argument.Normalize
import DocAnnotations.Proofs.Argument.Part
import DocAnnotations.Proofs.Argument.Structure
import DocAnnotations.Proofs.Entries
import DocAnnotations.Resolver.Hydration

/-! Argument texts with their structure as they are written. -/
namespace DocAnnotations.Argument

namespace Lexeme

/-- The text that a text or word is read as. -/
def label (l : Lexeme) : String :=
  l.token.content

/-- The key that it is in front of an equals sign. -/
def key (l : Lexeme) : String :=
  Text.strip l.label

end Lexeme

/-- The structure of an argument text as it is written. -/
inductive Sketch where
  | text (ps : List Part)
  | word (ps : List Part)
  | group (bracket : Bracket) (elements : List (Option Lexeme × Sketch))

/-- Induction over sketches, with the hypothesis for all elements of a group. -/
@[elab_as_elim, induction_eliminator]
theorem Sketch.induction {motive : Sketch → Prop} (text : ∀ ps, motive (.text ps))
    (word : ∀ ps, motive (.word ps))
    (group : ∀ bracket elements, (∀ e ∈ elements, motive e.2) → motive (.group bracket elements)) :
    ∀ w, motive w :=
  fun w => Sketch.rec (motive_1 := motive) (motive_2 := fun es => ∀ e ∈ es, motive e.2)
    (motive_3 := fun e => motive e.2) text word group (by simp)
    (fun e es he hes => by simpa using ⟨he, fun a b => hes (a, b)⟩) (fun _ _ h => h) w

mutual

/-- The tokens that a sketch stands for, as they are written. -/
inductive Sketch.Drawn : Sketch → List Lexeme → Prop
  | text (ps : List Part) : Sketch.Drawn (.text ps) [.text ps]
  | word (ps : List Part) : Sketch.Drawn (.word ps) [.word ps]
  | group {bracket : Bracket} {elements : List (Option Lexeme × Sketch)} {ls : List Lexeme} :
      ElementsDrawn elements ls →
      Sketch.Drawn (.group bracket elements)
        (.punct bracket.opener :: (ls ++ [.punct bracket.closer]))

/-- The tokens of the elements of a group, as they are written. -/
inductive ElementsDrawn : List (Option Lexeme × Sketch) → List Lexeme → Prop
  | nil : ElementsDrawn [] []
  | comma {elements : List (Option Lexeme × Sketch)} {ls : List Lexeme} :
      ElementsDrawn elements ls → ElementsDrawn elements (.punct ',' :: ls)
  | unkeyed {w : Sketch} {elements : List (Option Lexeme × Sketch)} {ls rest : List Lexeme} :
      w.Drawn ls → ElementsDrawn elements rest → ElementsDrawn ((none, w) :: elements) (ls ++ rest)
  | keyed {w : Sketch} {key : Lexeme} {elements : List (Option Lexeme × Sketch)}
      {ls rest : List Lexeme} : w.Drawn ls → ElementsDrawn elements rest →
      ElementsDrawn ((some key, w) :: elements) (key :: .punct '=' :: (ls ++ rest))

end

namespace Sketch

mutual

/-- The term that is read. -/
def term : Sketch → Term
  | text ps => .text (Lexeme.text ps).label
  | word ps => .word (Lexeme.word ps).label
  | group bracket elements => .group bracket (elementTerms elements)

def elementTerms : List (Option Lexeme × Sketch) → List (Option String × Term)
  | [] => []
  | (key, w) :: rest => (key.map Lexeme.key, w.term) :: elementTerms rest

end

end Sketch

theorem token_eq_punct {l : Lexeme} {c : Char} (h : l.token = .punct c) : l = .punct c := by
  cases l with
  | punct d => cases h; rfl
  | text ps | word ps => cases h

theorem token_eq_text {l : Lexeme} {s : String} (h : l.token = .text s) :
    ∃ ps, l = .text ps ∧ (Lexeme.text ps).label = s := by
  cases l with
  | punct c | word ps => cases h
  | text ps => exact ⟨ps, rfl, by rw [Lexeme.label, h]; rfl⟩

theorem token_eq_word {l : Lexeme} {s : String} (h : l.token = .word s) :
    ∃ ps, l = .word ps ∧ (Lexeme.word ps).label = s := by
  cases l with
  | punct c | text ps => cases h
  | word ps => exact ⟨ps, rfl, by rw [Lexeme.label, h]; rfl⟩

theorem label_of_token {l : Lexeme} {label : String} (h : l.token.label? = some label) :
    l.label = label := by
  cases l with
  | punct c => cases h
  | text ps | word ps => exact Option.some.inj h

mutual

/-- Tokens that spell a term are the tokens of a sketch of it. -/
theorem exists_drawn : ∀ {t : Term} {tokens : List Token}, t.Spelled tokens →
    ∀ ls : List Lexeme, ls.map Lexeme.token = tokens → ∃ w : Sketch, w.Drawn ls ∧ w.term = t
  | _, _, .text s => fun ls hls => by
    obtain ⟨l, rfl, hl⟩ := List.map_eq_singleton_iff.mp hls
    obtain ⟨ps, rfl, hs⟩ := token_eq_text hl
    exact ⟨.text ps, .text ps, by rw [Sketch.term, hs]⟩
  | _, _, .word s => fun ls hls => by
    obtain ⟨l, rfl, hl⟩ := List.map_eq_singleton_iff.mp hls
    obtain ⟨ps, rfl, hs⟩ := token_eq_word hl
    exact ⟨.word ps, .word ps, by rw [Sketch.term, hs]⟩
  | _, _, @Term.Spelled.group bracket _ _ he => fun ls hls => by
    obtain ⟨opener, rest, rfl, hopener, hrest⟩ := List.map_eq_cons_iff.mp hls
    obtain ⟨inner, behind, rfl, hinner, hbehind⟩ := List.map_eq_append_iff.mp hrest
    obtain ⟨closer, rfl, hcloser⟩ := List.map_eq_singleton_iff.mp hbehind
    obtain rfl := token_eq_punct hopener
    obtain rfl := token_eq_punct hcloser
    obtain ⟨elements, hdrawn, rfl⟩ := exists_elementsDrawn he inner hinner
    exact ⟨.group bracket elements, .group hdrawn, rfl⟩

theorem exists_elementsDrawn : ∀ {bracket : Bracket} {separated : Bool}
    {elements : List (Option String × Term)} {tokens : List Token},
    ElementsSpelled bracket separated elements tokens → ∀ ls : List Lexeme,
      ls.map Lexeme.token = tokens →
        ∃ sketches, ElementsDrawn sketches ls ∧ Sketch.elementTerms sketches = elements
  | _, _, _, _, .nil => fun ls hls => by
    obtain rfl := List.map_eq_nil_iff.mp hls
    exact ⟨[], .nil, rfl⟩
  | _, _, _, _, .comma he => fun ls hls => by
    obtain ⟨comma, rest, rfl, hcomma, hrest⟩ := List.map_eq_cons_iff.mp hls
    obtain rfl := token_eq_punct hcomma
    obtain ⟨sketches, hdrawn, rfl⟩ := exists_elementsDrawn he rest hrest
    exact ⟨sketches, .comma hdrawn, rfl⟩
  | _, _, _, _, .unkeyed _ ht he => fun ls hls => by
    rw [← List.cons_append] at hls
    obtain ⟨own, rest, rfl, hown, hrest⟩ := List.map_eq_append_iff.mp hls
    obtain ⟨w, hw, rfl⟩ := exists_drawn ht own hown
    obtain ⟨sketches, hdrawn, rfl⟩ := exists_elementsDrawn he rest hrest
    exact ⟨(none, w) :: sketches, .unkeyed hw hdrawn, rfl⟩
  | _, _, _, _, .keyed _ hk ht he => fun ls hls => by
    obtain ⟨key, more, rfl, hkey, hmore⟩ := List.map_eq_cons_iff.mp hls
    obtain ⟨equals, more, rfl, hequals, hmore⟩ := List.map_eq_cons_iff.mp hmore
    obtain ⟨own, rest, rfl, hown, hrest⟩ := List.map_eq_append_iff.mp hmore
    obtain rfl := token_eq_punct hequals
    obtain ⟨w, hw, rfl⟩ := exists_drawn ht own hown
    obtain ⟨sketches, hdrawn, rfl⟩ := exists_elementsDrawn he rest hrest
    rw [← hkey] at hk
    refine ⟨(some key, w) :: sketches, .keyed hw hdrawn, ?_⟩
    rw [Sketch.elementTerms, Option.map_some, Lexeme.key, label_of_token hk]

end

namespace Sketch

mutual

/-- The value of a sketch whose texts and words have these values. -/
def value (leaf : Lexeme → Value) : Sketch → Value
  | text ps => leaf (.text ps)
  | word ps => leaf (.word ps)
  | group _ elements => groupValue (elementValues leaf elements)

def elementValues (leaf : Lexeme → Value) :
    List (Option Lexeme × Sketch) → List (Option String × Value)
  | [] => []
  | (key, w) :: rest => (key.map Lexeme.key, w.value leaf) :: elementValues leaf rest

end

theorem elementTerms_eq_map (es : List (Option Lexeme × Sketch)) :
    elementTerms es = es.map fun e => (e.1.map Lexeme.key, e.2.term) := by
  induction es with
  | nil => rfl
  | cons e es ih => simp [elementTerms, ih]

theorem elementValues_eq_map (leaf : Lexeme → Value) (es : List (Option Lexeme × Sketch)) :
    elementValues leaf es = es.map fun e => (e.1.map Lexeme.key, e.2.value leaf) := by
  induction es with
  | nil => rfl
  | cons e es ih => simp [elementValues, ih]

end Sketch

/-- The value of a token that stands for itself. -/
def Lexeme.plain (l : Lexeme) : Value :=
  match l with
  | punct _ | text _ => .text l.label
  | word _ => Scalar.value l.label

namespace Sketch

theorem value_term (w : Sketch) : w.term.value = w.value Lexeme.plain := by
  induction w with
  | text ps | word ps => rfl
  | group bracket elements ih =>
    rw [term, Term.value, value, elementTerms_eq_map, elementValues_eq_map,
      Term.elementValues_eq_map, List.map_map]
    exact congrArg _ (List.map_congr_left fun e he => congrArg _ (ih e he))

mutual

/-- The texts and words of a sketch that are no keys. -/
def leaves : Sketch → List Lexeme
  | text ps => [.text ps]
  | word ps => [.word ps]
  | group _ elements => elementLeaves elements

def elementLeaves : List (Option Lexeme × Sketch) → List Lexeme
  | [] => []
  | (_, w) :: rest => w.leaves ++ elementLeaves rest

end

theorem mem_elementLeaves {es : List (Option Lexeme × Sketch)} {l : Lexeme} :
    l ∈ elementLeaves es ↔ ∃ e ∈ es, l ∈ e.2.leaves := by
  induction es with
  | nil => simp [elementLeaves]
  | cons e es ih => simp [elementLeaves, ih]

/-- The value depends on the values of the leaves only. -/
theorem value_congr {f g : Lexeme → Value} {w : Sketch} (h : ∀ l ∈ w.leaves, f l = g l) :
    w.value f = w.value g := by
  induction w with
  | text ps | word ps => exact h _ List.mem_cons_self
  | group bracket elements ih =>
    rw [value, value, elementValues_eq_map, elementValues_eq_map]
    refine congrArg _ (List.map_congr_left fun e he => congrArg _ (ih e he fun l hl => h l ?_))
    rw [leaves, mem_elementLeaves]
    exact ⟨e, he, hl⟩

/-- The elements of a group under their keys. -/
def named (elements : List (Option Lexeme × Sketch)) : List (Option String × Sketch) :=
  elements.map fun e => (e.1.map Lexeme.key, e.2)

/-- A list of several sketches. -/
def together (ws : List Sketch) : Sketch :=
  group .curly (ws.map (none, ·))

/-- A word that stands for null. -/
def isNull : Sketch → Bool
  | word ps => Scalar.ofWord (Lexeme.word ps).label = .null
  | _ => false

/-- The attributes that arguments without a key give to a type with this positional field. -/
def alone (positional : Option String) (ws : List Sketch) : Entries Sketch :=
  match positional with
  | none | some "" => []
  | some field =>
    match ws with
    | [] => []
    | [one] => if one.isNull then [] else [(field, one)]
    | several => [(field, together several)]

/-- The attributes that an argument list gives to a type with this positional field. -/
def attributes (positional : Option String) : Sketch → Entries Sketch
  | group _ elements =>
    let contents := Contents.ofElements (named elements)
    if contents.keyed.isEmpty then alone positional contents.unkeyed
    else Entries.ofPairs (contents.members together)
  | _ => []

theorem mem_leaves_together {ws : List Sketch} {l : Lexeme} :
    l ∈ (together ws).leaves ↔ ∃ w ∈ ws, l ∈ w.leaves := by
  simp [together, leaves, mem_elementLeaves]

theorem forall_alone {P : Sketch → Prop} (htogether : ∀ ws, (∀ w ∈ ws, P w) → P (together ws))
    {positional : Option String} {ws : List Sketch} (h : ∀ w ∈ ws, P w) :
    ∀ e ∈ alone positional ws, P e.2 := by
  intro e he
  unfold alone at he
  split at he
  next => cases he
  next => cases he
  next field _ =>
    rcases ws with _ | ⟨one, _ | ⟨other, rest⟩⟩
    · cases he
    · dsimp only at he
      split at he
      next => cases he
      next =>
        obtain rfl := List.mem_singleton.mp he
        exact h one List.mem_cons_self
    · obtain rfl := List.mem_singleton.mp he
      exact htogether _ h

/-- What holds of all elements, and of lists of them, holds of the attributes. -/
theorem forall_attributes {P : Sketch → Prop}
    (htogether : ∀ ws, (∀ w ∈ ws, P w) → P (together ws)) (positional : Option String)
    {bracket : Bracket} {elements : List (Option Lexeme × Sketch)} (h : ∀ e ∈ elements, P e.2) :
    ∀ e ∈ (group bracket elements).attributes positional, P e.2 := by
  have hall : ∀ w ∈ (Contents.ofElements (named elements)).all, P w := by
    intro w hw
    obtain ⟨d, hd, rfl⟩ := Contents.mem_all.mp hw
    obtain ⟨e, he, rfl⟩ := List.mem_map.mp hd
    exact h e he
  intro e he
  rw [attributes] at he
  split at he
  next => exact forall_alone htogether (fun w hw => hall w (List.mem_append_left _ hw)) e he
  next => exact Contents.forall_members htogether hall e (Entries.mem_ofPairs he)

/-- The attributes hold leaves of the argument list only. -/
theorem mem_leaves_of_attributes {positional : Option String} {w : Sketch} :
    ∀ e ∈ w.attributes positional, ∀ l ∈ e.2.leaves, l ∈ w.leaves := by
  cases w with
  | text ps | word ps => nofun
  | group bracket elements =>
    refine forall_attributes (P := fun u => ∀ l ∈ u.leaves, l ∈ (group bracket elements).leaves)
      (fun ws hws l hl => ?_) positional fun e he l hl => ?_
    · obtain ⟨u, hu, hl⟩ := mem_leaves_together.mp hl
      exact hws u hu l hl
    · rw [leaves, mem_elementLeaves]
      exact ⟨e, he, hl⟩

variable {leaf : Lexeme → Value}

theorem value_together (ws : List Sketch) :
    (together ws).value leaf = .list (ws.map (·.value leaf)) := by
  rw [together, value, elementValues_eq_map, List.map_map]
  have hitems : List.map ((fun e : Option Lexeme × Sketch => (e.1.map Lexeme.key, e.2.value leaf)) ∘
      (none, ·)) ws = (ws.map (·.value leaf)).map (none, ·) := by simp
  rw [hitems, groupValue, ofElements_unkeyed]
  rfl

/-- The value of a group is a list, or the map of its attributes. -/
theorem value_group (bracket : Bracket) (elements : List (Option Lexeme × Sketch)) :
    (group bracket elements).value leaf =
      if (Contents.ofElements (named elements)).keyed.isEmpty then
        .list ((Contents.ofElements (named elements)).unkeyed.map (·.value leaf))
      else .map ((Entries.ofPairs ((Contents.ofElements (named elements)).members
        together)).mapContents fun _ w => w.value leaf) := by
  have helements : elementValues leaf elements =
      (named elements).map fun e => (e.1, e.2.value leaf) := by
    simp [elementValues_eq_map, named]
  rw [value, helements, groupValue, Contents.ofElements_map]
  simp only [List.isEmpty_map]
  split
  · rfl
  · rw [Contents.members_map fun ws => (value_together ws).symm, Entries.ofPairs_map]

theorem groupValue_ne_null (elements : List (Option String × Value)) :
    groupValue elements ≠ .null := by
  rw [groupValue]
  split <;> simp

theorem numeral_value_ne_null (n : Numeral) : n.value ≠ .null := by
  rw [Numeral.value]
  split <;> simp

theorem isNull_iff (w : Sketch) : w.isNull = true ↔ w.value Lexeme.plain = .null := by
  cases w with
  | text ps => simp [isNull, value, Lexeme.plain]
  | group bracket elements => simp [isNull, value, groupValue_ne_null]
  | word ps =>
    rw [value, Lexeme.plain, isNull, decide_eq_true_iff, Scalar.value]
    cases h : Scalar.ofWord (Lexeme.word ps).label with
    | null | bool b | text => simp
    | number =>
      dsimp only
      split
      next n _ => simpa using numeral_value_ne_null n
      next => simp

theorem attributesOf_of_map {schema : Schema} {raw : String} {entries : Entries Value}
    (h : evaluateList raw = .ok (some (.map entries))) :
    Resolver.attributesOf schema raw = .ok entries := by
  have hattributes : Argument.attributes raw = .ok entries := by rw [Argument.attributes, h]; rfl
  have hpositional : positional raw = .ok .null := by rw [positional, h]; rfl
  unfold Resolver.attributesOf
  simp only [hattributes, hpositional, bind, Except.bind, pure, Except.pure]
  cases entries with
  | nil => split <;> rfl
  | cons e rest => split <;> rfl

theorem attributesOf_of_list {schema : Schema} {raw : String} {ws : List Sketch}
    (h : evaluateList raw = .ok (some (.list (ws.map (·.value Lexeme.plain))))) :
    Resolver.attributesOf schema raw =
      .ok ((alone schema.positional ws).mapContents fun _ u => u.value Lexeme.plain) := by
  have hattributes : Argument.attributes raw = .ok [] := by rw [Argument.attributes, h]; rfl
  unfold Resolver.attributesOf alone
  simp only [hattributes, bind, Except.bind, pure, Except.pure]
  generalize schema.positional = positional
  split
  next => rfl
  next => rfl
  next field hne =>
    rw [if_neg (by simp), Argument.positional, h]
    rcases ws with _ | ⟨one, _ | ⟨other, rest⟩⟩
    · simp [Except.map, Entries.mapContents]
    · by_cases hnull : one.isNull = true
      · simp [Except.map, hnull, (isNull_iff one).mp hnull, Entries.mapContents]
      · have hvalue : one.value Lexeme.plain ≠ .null := fun hv => hnull ((isNull_iff one).mpr hv)
        simp only [List.map_cons, List.map_nil, Except.map, hnull]
        cases hv : one.value Lexeme.plain <;> simp_all [Entries.mapContents]
    · simp [Except.map, Entries.mapContents, value_together]

/-- The attributes of a type are read from the argument list as it is written. -/
theorem attributesOf_eq {schema : Schema} {raw : String} {bracket : Bracket}
    {elements : List (Option Lexeme × Sketch)}
    (h : evaluateList raw = .ok (some ((group bracket elements).value Lexeme.plain))) :
    Resolver.attributesOf schema raw =
      .ok (((group bracket elements).attributes schema.positional).mapContents
        fun _ u => u.value Lexeme.plain) := by
  rw [value_group] at h
  rw [attributes]
  split at h
  next hkeyed =>
    rw [if_pos hkeyed]
    exact attributesOf_of_list h
  next hkeyed =>
    rw [if_neg hkeyed]
    exact attributesOf_of_map h

/-- The attributes that a text gives to a type with a positional field, where the parts are the text
as it is written. A text that is no argument list gives none. -/
inductive Gives (positional : Option String) (raw : String) (ps : List Part) :
    Entries Sketch → Prop
  | nothing : (Text.trim raw.toList).head? ≠ some '(' → Gives positional raw ps []
  | list {ls : List Lexeme} {w : Sketch} : (Text.trim raw.toList).head? = some '(' →
      Lexeme.lex ps = .ok ls → w.Drawn ls → Gives positional raw ps (w.attributes positional)

theorem exists_of_evaluate {raw : String} {v : Value} (h : evaluate raw = .ok v) :
    ∃ t, Term.ofText raw.toList = .ok t ∧ t.value = v := by
  unfold evaluate at h
  split at h
  next => cases h
  next t ht =>
    split at h
    next => cases h; exact ⟨t, ht, rfl⟩
    next => cases h
    next => cases h

/-- A term that begins with a bracket is a group. -/
theorem exists_group_of_spelled {t : Term} {c : Char} {tokens : List Token}
    (h : t.Spelled (.punct c :: tokens)) : ∃ bracket elements, t = .group bracket elements := by
  generalize htokens : Token.punct c :: tokens = all at h
  cases h with
  | text s | word s => cases htokens
  | group he => exact ⟨_, _, rfl⟩

theorem exists_group_of_term {w : Sketch} {bracket : Bracket}
    {elements : List (Option String × Term)} (h : w.term = .group bracket elements) :
    ∃ sketches, w = group bracket sketches := by
  cases w with
  | text ps | word ps => cases h
  | group other sketches => cases h; exact ⟨sketches, rfl⟩

theorem attributesOf_of_none {schema : Schema} {raw : String} (h : evaluateList raw = .ok none) :
    Resolver.attributesOf schema raw = .ok [] := by
  have hattributes : Argument.attributes raw = .ok [] := by rw [Argument.attributes, h]; rfl
  have hpositional : positional raw = .ok .null := by rw [positional, h]; rfl
  unfold Resolver.attributesOf
  simp only [hattributes, hpositional, bind, Except.bind, pure, Except.pure]
  split <;> rfl

/-- A list in parentheses is the value of a group that is drawn in its parts. -/
theorem exists_drawn_of_evaluate {cs : List Char} {ps : List Part} {v : Value}
    (hps : Token.lex (spell ps) = Token.lex ('(' :: cs))
    (h : evaluate (String.ofList ('(' :: cs)) = .ok v) : ∃ ls bracket elements,
      Lexeme.lex ps = .ok ls ∧ (group bracket elements).Drawn ls ∧
        (group bracket elements).value Lexeme.plain = v := by
  obtain ⟨t, ht, rfl⟩ := exists_of_evaluate h
  rw [String.toList_ofList] at ht
  obtain ⟨tokens, hlex, hspelled⟩ := ofText_eq_ok ht
  obtain ⟨rest, rfl⟩ : ∃ rest, tokens = .punct '(' :: rest := by
    rw [Token.lex, Token.lexFrom_punct rfl] at hlex
    cases hrest : Token.lexFrom .between cs with
    | error fault => rw [hrest] at hlex; cases hlex
    | ok rest => rw [hrest] at hlex; exact ⟨rest, (Except.ok.inj hlex).symm⟩
  obtain ⟨bracket, elements, rfl⟩ := exists_group_of_spelled hspelled
  rw [← hps, Lexeme.lex_spell] at hlex
  cases hls : Lexeme.lex ps with
  | error fault => rw [hls] at hlex; cases hlex
  | ok ls =>
    rw [hls] at hlex
    obtain ⟨w, hdrawn, hterm⟩ := exists_drawn hspelled ls (Except.ok.inj hlex)
    obtain ⟨sketches, rfl⟩ := exists_group_of_term hterm
    exact ⟨ls, _, sketches, rfl, hdrawn, by rw [← hterm, value_term]⟩

/-- Argument lists are read as they are written. -/
theorem exists_gives {schema : Schema} {raw : String} {ps : List Part} {attributes : Entries Value}
    (hps : Token.lex (spell ps) = Token.lex raw.toList)
    (h : Resolver.attributesOf schema raw = .ok attributes) :
    ∃ sketches, Gives schema.positional raw ps sketches ∧
      attributes = sketches.mapContents fun _ w => w.value Lexeme.plain := by
  have hlist : ∀ cs, Text.trim raw.toList = '(' :: cs → evaluateList raw =
      (evaluate (String.ofList ('(' :: cs))).map some := fun cs hcs => by
    simp only [evaluateList, hcs]
  by_cases hopen : (Text.trim raw.toList).head? = some '('
  · obtain ⟨cs, hcs⟩ := List.head?_eq_some_iff.mp hopen
    cases he : evaluate (String.ofList ('(' :: cs)) with
    | error stop =>
      have herror : evaluateList raw = .error stop := by rw [hlist cs hcs, he]; rfl
      have : Argument.attributes raw = .error stop := by rw [Argument.attributes, herror]; rfl
      rw [Resolver.attributesOf, this] at h
      cases h
    | ok v =>
      have hlex : Token.lex (spell ps) = Token.lex ('(' :: cs) := by
        rw [hps, ← hcs, Token.lex_trim]
      obtain ⟨ls, bracket, elements, hls, hdrawn, rfl⟩ := exists_drawn_of_evaluate hlex he
      have hvalue : Resolver.attributesOf schema raw = _ :=
        attributesOf_eq (by rw [hlist cs hcs, he]; rfl)
      rw [hvalue] at h
      exact ⟨_, .list hopen hls hdrawn, (Except.ok.inj h).symm⟩
  · have hnone : evaluateList raw = .ok none := by
      rw [evaluateList]
      split
      next cs hcs => exact absurd (by rw [hcs]; rfl) hopen
      next => rfl
    rw [attributesOf_of_none hnone] at h
    cases h
    exact ⟨[], .nothing hopen, rfl⟩

mutual

theorem mem_of_mem_leaves : ∀ {w : Sketch} {ls : List Lexeme}, w.Drawn ls →
    ∀ l ∈ w.leaves, l ∈ ls
  | _, _, .text ps | _, _, .word ps => fun _ hl => hl
  | _, _, .group he => fun l hl => by
    have := mem_of_mem_elementLeaves he l hl
    simp [this]

theorem mem_of_mem_elementLeaves : ∀ {es : List (Option Lexeme × Sketch)} {ls : List Lexeme},
    ElementsDrawn es ls → ∀ l ∈ elementLeaves es, l ∈ ls
  | _, _, .nil => fun _ hl => hl
  | _, _, .comma he => fun l hl => List.mem_cons_of_mem _ (mem_of_mem_elementLeaves he l hl)
  | _, _, .unkeyed hw he => fun l hl => by
    rcases List.mem_append.mp hl with hl | hl
    · exact List.mem_append_left _ (mem_of_mem_leaves hw l hl)
    · exact List.mem_append_right _ (mem_of_mem_elementLeaves he l hl)
  | _, _, .keyed hw he => fun l hl => by
    refine List.mem_cons_of_mem _ (List.mem_cons_of_mem _ ?_)
    rcases List.mem_append.mp hl with hl | hl
    · exact List.mem_append_left _ (mem_of_mem_leaves hw l hl)
    · exact List.mem_append_right _ (mem_of_mem_elementLeaves he l hl)

end

/-- The leaves of given attributes are tokens of the text as it is written. -/
theorem Gives.mem_of_mem_leaves {positional : Option String} {raw : String} {ps : List Part}
    {sketches : Entries Sketch} (h : Gives positional raw ps sketches) {e : String × Sketch}
    (he : e ∈ sketches) {l : Lexeme} (hl : l ∈ e.2.leaves) :
    ∃ ls, Lexeme.lex ps = .ok ls ∧ l ∈ ls := by
  cases h with
  | nothing => cases he
  | list _ hls hdrawn =>
    exact ⟨_, hls, Sketch.mem_of_mem_leaves hdrawn l (mem_leaves_of_attributes e he l hl)⟩

end Sketch

end DocAnnotations.Argument
