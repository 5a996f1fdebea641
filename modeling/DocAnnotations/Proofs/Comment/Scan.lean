import DocAnnotations.Comment
import DocAnnotations.Proofs.Argument.Print

/-! What a scan of an argument list passes over, and what it takes out. -/
namespace DocAnnotations.Comment

/-- Between these quotes, the scan passes over the text: no parenthesis and no at sign stands
outside quotes. -/
inductive Passive : Option Char → List Char → Option Char → Prop where
  | nil {quote : Option Char} : Passive quote [] quote
  | cons {quote after : Option Char} {c : Char} {cs : List Char} :
      (quote = none → c ≠ '(' ∧ c ≠ ')' ∧ c ≠ '@') → Passive (quoteAfter quote c) cs after →
      Passive quote (c :: cs) after

variable {quote middle after : Option Char} {cs ds : List Char}

theorem Passive.append (hc : Passive quote cs middle) (hd : Passive middle ds after) :
    Passive quote (cs ++ ds) after := by
  induction hc with
  | nil => exact hd
  | cons h _ ih => exact .cons h (ih hd)

/-- Inside quotes everything is passed over, also doubled quotes. -/
theorem passive_quoted (cs : List Char) : Passive none (Argument.quoted cs) none := by
  have hinside : Passive (some '"') (Argument.doubled cs ++ ['"']) none := by
    induction cs with
    | nil => exact .cons nofun .nil
    | cons c cs ih =>
      by_cases hc : c = '"'
      · subst hc
        exact .cons nofun (.cons (fun _ => by decide) ih)
      · rw [Argument.doubled_of_ne hc]
        refine .cons nofun ?_
        rwa [quoteAfter, if_neg hc]
  exact .cons (fun _ => by decide) hinside

/-- Outside quotes, the scan passes over the character. -/
def isPlain (c : Char) : Bool :=
  !(c = '(' || c = ')' || c = '@' || isQuote c)

theorem passive_of_all {cs : List Char} (h : cs.all isPlain = true) : Passive none cs none := by
  induction cs with
  | nil => exact .nil
  | cons c cs ih =>
    rw [List.all_cons, Bool.and_eq_true] at h
    obtain ⟨⟨⟨ho, hc⟩, hs⟩, hq⟩ : ((c ≠ '(' ∧ c ≠ ')') ∧ c ≠ '@') ∧ isQuote c = false := by
      simpa [isPlain] using h.1
    refine .cons (fun _ => ⟨ho, hc, hs⟩) ?_
    rw [quoteAfter, hq]
    exact ih h.2

theorem closesList_of_passive {c : Char} (h : quote = none → c ≠ '(' ∧ c ≠ ')' ∧ c ≠ '@')
    (level : Nat) : closesList level quote c = false := by
  cases quote with
  | none => simp [closesList, (h rfl).2.1]
  | some q => simp [closesList]

theorem levelAfter_of_passive {c : Char} (h : quote = none → c ≠ '(' ∧ c ≠ ')' ∧ c ≠ '@')
    (level : Nat) : levelAfter level quote c = level := by
  cases quote with
  | none => simp [levelAfter, (h rfl).1, (h rfl).2.1]
  | some q => rfl

theorem cutList_passive (h : Passive quote cs after) (level : Nat) (rest : List Char) :
    cutList level quote (cs ++ rest) =
      (cs ++ (cutList level after rest).1, (cutList level after rest).2) := by
  induction h with
  | nil => rfl
  | cons hc _ ih =>
    rw [List.cons_append, cutList, if_neg (by simp [closesList_of_passive hc]),
      levelAfter_of_passive hc, ih]
    rfl

/-- The argument list of a fragment without children is cut off as a whole. -/
theorem cutList_parentheses (h : Passive none cs none) (rest : List Char) :
    cutList 0 none ('(' :: (cs ++ [')']) ++ rest) = ('(' :: (cs ++ [')']), rest) := by
  have hinner : cutList 1 none (cs ++ (')' :: rest)) = (cs ++ [')'], rest) := by
    rw [cutList_passive h]
    rfl
  have hlevel : levelAfter 0 none '(' = 1 ∧ quoteAfter none '(' = none := by decide
  rw [List.cons_append, cutList, if_neg (by decide), List.append_assoc]
  simp only [hlevel, List.cons_append, List.nil_append, hinner]

namespace ArgumentText

/-- Puts a text and children in front. -/
def prepend (text : List Char) (children : List Fragment) (following : ArgumentText) :
    ArgumentText :=
  ⟨text ++ following.text, children ++ following.children, following.rest⟩

end ArgumentText

/-- The boundary flag behind a text. -/
def boundaryAfter (boundary : Bool) (cs : List Char) : Bool :=
  (cs.getLast?.map isBoundary).getD boundary

theorem boundaryAfter_cons (boundary : Bool) (c : Char) (cs : List Char) :
    boundaryAfter boundary (c :: cs) = boundaryAfter (isBoundary c) cs := by
  cases h : cs.getLast? <;> simp [boundaryAfter, List.getLast?_cons, h]

theorem childAt_of_passive {c : Char} (h : quote = none → c ≠ '(' ∧ c ≠ ')' ∧ c ≠ '@')
    (boundary : Bool) (rest : List Char) : childAt boundary quote c rest = none := by
  cases quote with
  | none => simp [childAt, (h rfl).2.2]
  | some q => simp [childAt]

section Cut

variable {level count : Nat} {boundary : Bool} {c : Char} {child : Fragment} {rest : List Char}

theorem cutChildren_child (h : childAt boundary quote c cs = some (child, rest)) :
    cutChildren level quote boundary count (c :: cs) =
      (cutChildren level quote false (count + 1) rest).withChild count child := by
  rw [cutChildren]
  split
  next hs => cases h.symm.trans hs; rfl
  next hs => cases h.symm.trans hs

theorem cutChildren_close (h : childAt boundary quote c cs = none)
    (hclose : closesList level quote c = true) :
    cutChildren level quote boundary count (c :: cs) = ⟨[c], [], cs⟩ := by
  rw [cutChildren]
  split
  next hs => cases h.symm.trans hs
  next => rw [if_pos hclose]

theorem cutChildren_char (h : childAt boundary quote c cs = none)
    (hclose : ¬ closesList level quote c = true) :
    cutChildren level quote boundary count (c :: cs) =
      (cutChildren (levelAfter level quote c) (quoteAfter quote c) (isBoundary c) count
        cs).withChar c := by
  rw [cutChildren]
  split
  next hs => cases h.symm.trans hs
  next => rw [if_neg hclose]

end Cut

theorem cutChildren_passive (h : Passive quote cs after) (level : Nat) (boundary : Bool)
    (count : Nat) (rest : List Char) :
    cutChildren level quote boundary count (cs ++ rest) =
      (cutChildren level after (boundaryAfter boundary cs) count rest).prepend cs [] := by
  induction h generalizing boundary with
  | nil => rfl
  | @cons quote after c cs hc _ ih =>
    rw [List.cons_append, cutChildren_char (childAt_of_passive hc boundary _)
      (by simp [closesList_of_passive hc]), levelAfter_of_passive hc, ih, boundaryAfter_cons]
    rfl

/-- Behind a boundary, the scan gives `raw` for a text and takes these children out of it, the
first of which has the number `count`. -/
def Cuts (count : Nat) (cs raw : List Char) (children : List Fragment) : Prop :=
  ∃ boundary, ∀ rest, cutChildren 1 none true count (cs ++ rest) =
    (cutChildren 1 none boundary (count + children.length) rest).prepend raw children

/-- A text that is passed over and has a boundary at its end. -/
structure Separator (cs : List Char) : Prop where
  passive : Passive none cs none
  boundary : ∀ boundary, boundaryAfter boundary cs = true

variable {count : Nat} {raw raw' : List Char} {children more : List Fragment}

theorem Separator.cutChildren_append (h : Separator cs) (boundary : Bool) (count : Nat)
    (rest : List Char) : cutChildren 1 none boundary count (cs ++ rest) =
      (cutChildren 1 none true count rest).prepend cs [] := by
  rw [cutChildren_passive h.passive, h.boundary]

namespace Cuts

theorem passive (h : Passive none cs none) : Cuts count cs cs [] :=
  ⟨_, fun rest => cutChildren_passive h 1 true count rest⟩

theorem append {sep : List Char} (hc : Cuts count cs raw children) (hs : Separator sep)
    (hd : Cuts (count + children.length) ds raw' more) :
    Cuts count (cs ++ (sep ++ ds)) (raw ++ (sep ++ raw')) (children ++ more) := by
  obtain ⟨b, hb⟩ := hc
  obtain ⟨b', hb'⟩ := hd
  refine ⟨b', fun rest => ?_⟩
  rw [List.append_assoc, hb, List.append_assoc, hs.cutChildren_append, hb', List.length_append,
    Nat.add_assoc]
  simp [ArgumentText.prepend]

theorem behind {sep : List Char} (hs : Separator sep) (hc : Cuts count cs raw children) :
    Cuts count (sep ++ cs) (sep ++ raw) children := by
  obtain ⟨b, hb⟩ := hc
  refine ⟨b, fun rest => ?_⟩
  rw [List.append_assoc, hs.cutChildren_append, hb]
  simp [ArgumentText.prepend]

theorem before (hc : Cuts count cs raw children) (hd : Passive none ds none) :
    Cuts count (cs ++ ds) (raw ++ ds) children := by
  obtain ⟨b, hb⟩ := hc
  refine ⟨boundaryAfter b ds, fun rest => ?_⟩
  rw [List.append_assoc, hb, cutChildren_passive hd]
  simp [ArgumentText.prepend]

/-- The scan of a whole argument list. -/
theorem parentheses (h : Cuts 0 cs raw children) :
    cutChildren 0 none false 0 ('(' :: (cs ++ [')'])) = ⟨'(' :: (raw ++ [')']), children, []⟩ := by
  obtain ⟨b, hb⟩ := h
  have hopen : cutChildren 0 none false 0 ('(' :: (cs ++ [')'])) =
      (cutChildren 1 none true 0 (cs ++ [')'])).withChar '(' :=
    cutChildren_char rfl (by decide)
  have hclose : cutChildren 1 none b (0 + children.length) [')'] = ⟨[')'], [], []⟩ :=
    cutChildren_close rfl rfl
  rw [hopen, hb, hclose]
  simp [ArgumentText.prepend, ArgumentText.withChar]

end Cuts

/-- Texts that are scanned one after another, with children numbered through. -/
inductive CutsAll : Nat → List (List Char) → List (List Char) → List Fragment → Prop where
  | nil {count : Nat} : CutsAll count [] [] []
  | cons {count : Nat} {cs raw : List Char} {children more : List Fragment}
      {texts raws : List (List Char)} : Cuts count cs raw children →
      CutsAll (count + children.length) texts raws more →
      CutsAll count (cs :: texts) (raw :: raws) (children ++ more)

theorem separator_comma : Separator ", ".toList where
  passive := passive_of_all (by decide)
  boundary _ := rfl

theorem CutsAll.intercalate {texts raws : List (List Char)}
    (h : CutsAll count texts raws children) :
    Cuts count ((", ".toList).intercalate texts) ((", ".toList).intercalate raws) children := by
  induction h with
  | nil => exact .passive .nil
  | cons hc hrest ih =>
    cases hrest with
    | nil => simpa using hc
    | cons _ _ =>
      simp only [List.intercalate_cons_cons, List.append_assoc] at ih ⊢
      exact hc.append separator_comma ih

theorem Cuts.labelled (key : Option String) (h : Cuts count cs raw children) :
    Cuts count (Argument.labelled key cs) (Argument.labelled key raw) children := by
  cases key with
  | none => exact h
  | some k =>
    have hs : Separator (Argument.quoted k.toList ++ ['=']) := by
      refine ⟨(passive_quoted _).append (passive_of_all (by decide)), fun b => ?_⟩
      simp [boundaryAfter]
      decide
    simpa [Argument.labelled] using h.behind hs

end DocAnnotations.Comment
