import DocAnnotations.Proofs.Comment.Agreement

/-! Argument texts as they are written, where a child is one part and not the text of its
placeholder. -/
namespace DocAnnotations.Argument

/-- A part of an argument text: a character as it is written, or the child with a number. -/
inductive Part where
  | char (c : Char)
  | child (n : Nat)
  deriving DecidableEq

namespace Part

/-- The characters that stand for a part where arguments are read. -/
def spelling : Part → List Char
  | char c => [c]
  | child n => (Fragment.placeholder n).toList

def isBlank : Part → Bool
  | char c => Text.isBlank c
  | child _ => false

def child? : Part → Option Nat
  | char _ => none
  | child n => some n

end Part

/-- The characters that stand for a text where arguments are read. -/
def spell (ps : List Part) : List Char :=
  ps.flatMap Part.spelling

theorem spell_nil : spell [] = [] := rfl

@[simp]
theorem spell_char (c : Char) (ps : List Part) : spell (.char c :: ps) = c :: spell ps := rfl

@[simp]
theorem spell_child (n : Nat) (ps : List Part) :
    spell (.child n :: ps) = (Fragment.placeholder n).toList ++ spell ps := rfl

@[simp]
theorem spell_append (ps qs : List Part) : spell (ps ++ qs) = spell ps ++ spell qs :=
  List.flatMap_append

theorem spell_map_char (cs : List Char) : spell (cs.map .char) = cs := by
  induction cs with
  | nil => rfl
  | cons c cs ih => rw [List.map_cons, spell_char, ih]

/-- A token as it is written. -/
inductive Lexeme where
  | punct (c : Char)
  | text (ps : List Part)
  | word (ps : List Part)
  deriving DecidableEq

namespace Lexeme

/-- The token that is read in its place. -/
def token : Lexeme → Token
  | punct c => .punct c
  | text ps => .ofQuoted (spell ps)
  | word ps => .ofBare (spell ps)

/-- The parts of a text or word. -/
def parts : Lexeme → List Part
  | punct _ => []
  | text ps | word ps => ps

/-- The child that the whole word is. -/
def child? : Lexeme → Option Nat
  | word ps =>
    match ps.filter (!·.isBlank) with
    | [.child n] => some n
    | _ => none
  | _ => none

/-- The modes of the reader of tokens, for texts as they are written. -/
inductive Mode where
  | between
  | bare (sofar : List Part)
  | quoted (quote : Char) (sofar : List Part)

namespace Mode

/-- The characters so far in reverse. -/
def seen (sofar : List Part) : List Char :=
  (spell sofar.reverse).reverse

/-- Where the reader of tokens stands. -/
def mode : Mode → Token.Mode
  | between => .between
  | bare sofar => .bare (seen sofar)
  | quoted quote sofar => .quoted quote (seen sofar)

end Mode

/-- The tokens of a text as they are written. A child between tokens begins a word. -/
def lexFrom : Mode → List Part → Except ArgumentFault (List Lexeme)
  | .between, [] => .ok []
  | .bare sofar, [] => .ok [word sofar.reverse]
  | .quoted _ _, [] => .error .unclosedText
  | .quoted '"' sofar, .char '"' :: .char '"' :: ps => lexFrom (.quoted '"' (.char '"' :: sofar)) ps
  | .quoted quote sofar, p :: ps =>
    if p = .char quote then (lexFrom .between ps).map (text sofar.reverse :: ·)
    else lexFrom (.quoted quote (p :: sofar)) ps
  | .between, .char c :: ps =>
    if Text.isBlank c then lexFrom .between ps
    else if Token.isPunct c then (lexFrom .between ps).map (punct c :: ·)
    else if Token.isQuote c then lexFrom (.quoted c []) ps
    else lexFrom (.bare [.char c]) ps
  | .between, .child n :: ps => lexFrom (.bare [.child n]) ps
  | .bare sofar, .char c :: ps =>
    if Token.isPunct c then (lexFrom .between ps).map ([word sofar.reverse, punct c] ++ ·)
    else if Token.isQuote c then (lexFrom (.quoted c []) ps).map (word sofar.reverse :: ·)
    else lexFrom (.bare (.char c :: sofar)) ps
  | .bare sofar, .child n :: ps => lexFrom (.bare (.child n :: sofar)) ps

/-- The tokens of an argument text as they are written. -/
def lex (ps : List Part) : Except ArgumentFault (List Lexeme) :=
  lexFrom .between ps

end Lexeme

/-- Characters that neither part words nor stand around a text. -/
def Inert (cs : List Char) : Prop :=
  ∀ c ∈ cs, Text.isBlank c = false ∧ Token.isPunct c = false ∧ Token.isQuote c = false

theorem inert_placeholder (n : Nat) : Inert (Fragment.placeholder n).toList := by
  have hall : ("_child0123456789".toList.all fun c =>
      !(Text.isBlank c || Token.isPunct c || Token.isQuote c)) = true := by decide
  intro c hc
  simpa [and_assoc] using List.all_eq_true.mp hall c (Fragment.mem_placeholder hc)

theorem placeholder_ne_nil (n : Nat) : (Fragment.placeholder n).toList ≠ [] := by
  simp [Fragment.toList_placeholder]

namespace Token

theorem lexFrom_bare_inert {cs : List Char} (h : Inert cs) (sofar rest : List Char) :
    lexFrom (.bare sofar) (cs ++ rest) = lexFrom (.bare (cs.reverse ++ sofar)) rest := by
  induction cs generalizing sofar with
  | nil => rfl
  | cons c cs ih =>
    obtain ⟨-, hp, hq⟩ := h c (by simp)
    rw [List.cons_append, lexFrom, if_neg (by simp [hp]), if_neg (by simp [hq]),
      ih fun d hd => h d (by simp [hd])]
    simp

theorem lexFrom_quoted_inert {quote : Char} (hquote : isQuote quote = true) {cs : List Char}
    (h : Inert cs) (sofar rest : List Char) :
    lexFrom (.quoted quote sofar) (cs ++ rest) =
      lexFrom (.quoted quote (cs.reverse ++ sofar)) rest := by
  induction cs generalizing sofar with
  | nil => rfl
  | cons c cs ih =>
    have hc : c ≠ quote := by
      rintro rfl
      simp [(h c (by simp)).2.2] at hquote
    rw [List.cons_append, lexFrom_inside hc, ih fun d hd => h d (by simp [hd])]
    simp

theorem lexFrom_between_inert {cs : List Char} (h : Inert cs) (hne : cs ≠ []) (rest : List Char) :
    lexFrom .between (cs ++ rest) = lexFrom (.bare cs.reverse) rest := by
  cases cs with
  | nil => exact absurd rfl hne
  | cons c cs =>
    obtain ⟨hb, hp, hq⟩ := h c (by simp)
    rw [List.cons_append, lexFrom, if_neg (by simp [hb]), if_neg (by simp [hp]),
      if_neg (by simp [hq]), lexFrom_bare_inert fun d hd => h d (by simp [hd])]
    simp

end Token

namespace Token

theorem not_isQuote_of_isPunct {c : Char} (hp : isPunct c = true) : ¬ isQuote c = true := by
  intro hq
  have hq : c = '"' ∨ c = '\'' := by simpa [isQuote] using hq
  rcases hq with rfl | rfl <;> cases hp

theorem not_isQuote_of_isBlank {c : Char} (hb : Text.isBlank c = true) : ¬ isQuote c = true := by
  intro hq
  have hq : c = '"' ∨ c = '\'' := by simpa [isQuote] using hq
  rcases hq with rfl | rfl <;> cases hb

theorem lexFrom_dropWhile_isBlank (cs : List Char) :
    lexFrom .between (cs.dropWhile Text.isBlank) = lexFrom .between cs := by
  induction cs with
  | nil => rfl
  | cons c cs ih =>
    by_cases hb : Text.isBlank c = true
    · rw [List.dropWhile_cons_of_pos hb, ih, lexFrom, if_pos hb]
    · rw [List.dropWhile_cons_of_neg hb]

/-- The quote between which the reader stands is one. -/
def Mode.Proper : Mode → Prop
  | .between | .bare _ => True
  | .quoted quote _ => isQuote quote = true

section Blank

variable {ds : List Char} (hd : ∀ c ∈ ds, Text.isBlank c = true)
include hd

theorem head?_ne_of_blank : ds.head? ≠ some '"' := by
  intro hquote
  exact not_isQuote_of_isBlank (hd '"' (List.mem_of_mem_head? hquote)) rfl

theorem lexFrom_between_blank : lexFrom .between ds = .ok [] := by
  have hnil : ds.dropWhile Text.isBlank = [] := List.dropWhile_eq_nil_iff.mpr hd
  rw [← lexFrom_dropWhile_isBlank, hnil]
  rfl

theorem ofBare_append_blank (cs : List Char) : ofBare (cs ++ ds) = ofBare cs := by
  cases ds with
  | nil => rw [List.append_nil]
  | cons d ds =>
    have hwords : Text.words ds = [] :=
      Text.words_eq_nil_iff.mpr fun c hc => hd c (List.mem_cons_of_mem d hc)
    rw [ofBare, Text.words_append_cons (hd d List.mem_cons_self), hwords, List.append_nil, ofBare]

theorem lexFrom_bare_blank (sofar : List Char) :
    lexFrom (.bare sofar) ds = .ok [ofBare (sofar.reverse ++ ds)] := by
  induction ds generalizing sofar with
  | nil => rw [List.append_nil]; rfl
  | cons d ds ih =>
    have hb := hd d List.mem_cons_self
    have hp : ¬ isPunct d = true := fun hp => by simp [isBlank_of_isPunct hp] at hb
    rw [lexFrom, if_neg hp, if_neg (not_isQuote_of_isBlank hb),
      ih fun c hc => hd c (List.mem_cons_of_mem d hc)]
    simp

theorem lexFrom_quoted_blank {quote : Char} (hquote : isQuote quote = true) (sofar : List Char) :
    lexFrom (.quoted quote sofar) ds = .error .unclosedText := by
  induction ds generalizing sofar with
  | nil => simp [lexFrom]
  | cons d ds ih =>
    have hne : d ≠ quote := by
      rintro rfl
      exact not_isQuote_of_isBlank (hd d List.mem_cons_self) hquote
    rw [lexFrom_inside hne]
    exact ih (fun c hc => hd c (List.mem_cons_of_mem d hc)) _

/-- White space at the end of a text changes no token. -/
theorem lexFrom_append_blank (mode : Mode) (hmode : mode.Proper) (cs : List Char) :
    lexFrom mode (cs ++ ds) = lexFrom mode cs := by
  fun_induction lexFrom mode cs with
  | case1 => exact lexFrom_between_blank hd
  | case2 sofar => rw [List.nil_append, lexFrom_bare_blank hd, ofBare_append_blank hd]
  | case3 quote sofar => exact lexFrom_quoted_blank hd hmode sofar
  | case4 sofar cs ih => exact ih hmode
  | case5 sofar c cs hp ih =>
    have hsingle := fun hq => head?_append_ne (head?_ne_of_single hp hq) (head?_ne_of_blank hd)
    rw [List.cons_append, lexFrom_closing hsingle, ih trivial]
  | case6 quote sofar c cs hp hne ih =>
    rw [List.cons_append, lexFrom_inside hne, ih hmode]
  | case7 c cs hb ih => rw [List.cons_append, lexFrom, if_pos hb, ih hmode]
  | case8 c cs hb hp ih => rw [List.cons_append, lexFrom, if_neg hb, if_pos hp, ih hmode]
  | case9 c cs hb hp hq ih => rw [List.cons_append, lexFrom, if_neg hb, if_neg hp, if_pos hq, ih hq]
  | case10 c cs hb hp hq ih =>
    rw [List.cons_append, lexFrom, if_neg hb, if_neg hp, if_neg hq, ih hmode]
  | case11 sofar c cs hp ih => rw [List.cons_append, lexFrom, if_pos hp, ih hmode]
  | case12 sofar c cs hp hq ih => rw [List.cons_append, lexFrom, if_neg hp, if_pos hq, ih hq]
  | case13 sofar c cs hp hq ih => rw [List.cons_append, lexFrom, if_neg hp, if_neg hq, ih hmode]

end Blank

/-- The tokens of a text are those of the text without white space around it. -/
theorem lex_trim (cs : List Char) : lex (Text.trim cs) = lex cs := by
  have hends (es : List Char) : lex (Text.dropWhileEnd Text.isBlank es) = lex es := by
    have hsplit : Text.dropWhileEnd Text.isBlank es ++ (es.reverse.takeWhile Text.isBlank).reverse
        = es := by
      rw [Text.dropWhileEnd, ← List.reverse_append, List.takeWhile_append_dropWhile,
        List.reverse_reverse]
    have hblank : ∀ c ∈ (es.reverse.takeWhile Text.isBlank).reverse, Text.isBlank c = true :=
      fun c hc => List.mem_takeWhile_imp (List.mem_reverse.mp hc)
    have happend := lexFrom_append_blank hblank .between trivial
      (Text.dropWhileEnd Text.isBlank es)
    rw [hsplit] at happend
    exact happend.symm
  exact (hends _).trans (lexFrom_dropWhile_isBlank cs)

end Token

namespace Lexeme

theorem seen_cons (p : Part) (sofar : List Part) :
    Mode.seen (p :: sofar) = p.spelling.reverse ++ Mode.seen sofar := by
  simp [Mode.seen, spell]

theorem reverse_seen (sofar : List Part) : (Mode.seen sofar).reverse = spell sofar.reverse :=
  List.reverse_reverse _

/-- A quote is doubled where it is doubled as it is written. -/
theorem exists_of_spell_eq_quote {ps : List Part} {cs : List Char} (h : spell ps = '"' :: cs) :
    ∃ qs, ps = .char '"' :: qs := by
  rcases ps with _ | ⟨_ | n, qs⟩
  · cases h
  · cases h
    exact ⟨qs, rfl⟩
  · rw [spell_child, Fragment.toList_placeholder] at h
    cases h

theorem lexFrom_close {quote : Char} {ps : List Part} (sofar : List Char)
    (hp : ∀ qs, quote = '"' → ps ≠ .char '"' :: qs) :
    Token.lexFrom (.quoted quote sofar) (quote :: spell ps) =
      (Token.lexFrom .between (spell ps)).map (.ofQuoted sofar.reverse :: ·) := by
  refine Token.lexFrom_closing (fun hquote hhead => ?_) sofar
  obtain ⟨cs, hcs⟩ := List.head?_eq_some_iff.mp hhead
  obtain ⟨qs, rfl⟩ := exists_of_spell_eq_quote hcs
  exact hp qs hquote rfl

theorem map_token {f : List Lexeme → List Lexeme} {g : List Token → List Token}
    (h : ∀ ls, (f ls).map token = g (ls.map token)) {x : Except ArgumentFault (List Lexeme)}
    {y : Except ArgumentFault (List Token)} (hx : y = x.map (·.map token)) :
    y.map g = (x.map f).map (·.map token) := by
  rw [hx]
  cases x with
  | error fault => rfl
  | ok ls => exact congrArg _ (h ls).symm

/-- Between tokens and in a word no quote is open. -/
theorem isQuote_of_no_quote : ∀ quote ∈ (none : Option Char), Token.isQuote quote = true := nofun

/-- The reader of tokens finds the tokens of the text as it is written. -/
theorem lexFrom_spell (mode : Mode) (ps : List Part)
    (hquote : ∀ quote ∈ mode.mode.quote?, Token.isQuote quote = true) :
    Token.lexFrom mode.mode (spell ps) = (lexFrom mode ps).map (·.map token) := by
  fun_induction lexFrom mode ps with
  | case1 => rfl
  | case2 sofar => simp [Mode.mode, Token.lexFrom, Except.map, token, spell_nil, reverse_seen]
  | case3 => simp [Mode.mode, Token.lexFrom, Except.map, spell_nil]
  | case4 sofar ps ih =>
    rw [← ih hquote, Mode.mode, Mode.mode, seen_cons]
    exact Token.lexFrom.eq_4 ..
  | case5 quote sofar ps hp ih =>
    rw [Mode.mode, spell_char, lexFrom_close _ fun qs hq => hp qs hq (hq ▸ rfl), reverse_seen]
    exact map_token (fun _ => rfl) (ih isQuote_of_no_quote)
  | case6 quote sofar p ps hp hne ih =>
    rw [← ih hquote, Mode.mode, Mode.mode, seen_cons]
    cases p with
    | char c =>
      have hc : c ≠ quote := fun h => hne (h ▸ rfl)
      exact Token.lexFrom_inside hc _ _
    | child n => exact Token.lexFrom_quoted_inert (hquote _ rfl) (inert_placeholder n) _ _
  | case7 c ps hb ih =>
    rw [spell_char, Mode.mode, Token.lexFrom, if_pos hb]
    exact ih isQuote_of_no_quote
  | case8 c ps hb hp ih =>
    rw [spell_char, Mode.mode, Token.lexFrom, if_neg hb, if_pos hp]
    exact map_token (fun _ => rfl) (ih isQuote_of_no_quote)
  | case9 c ps hb hp hq ih =>
    rw [spell_char, Mode.mode, Token.lexFrom, if_neg hb, if_neg hp, if_pos hq]
    exact ih fun _ h => by cases h; exact hq
  | case10 c ps hb hp hq ih =>
    rw [spell_char, Mode.mode, Token.lexFrom, if_neg hb, if_neg hp, if_neg hq]
    exact ih isQuote_of_no_quote
  | case11 n ps ih =>
    rw [spell_child, Mode.mode,
      Token.lexFrom_between_inert (inert_placeholder n) (placeholder_ne_nil n)]
    simpa [Mode.mode, Mode.seen, spell_nil] using ih isQuote_of_no_quote
  | case12 sofar c ps hp ih =>
    rw [spell_char, Mode.mode, Token.lexFrom, if_pos hp, reverse_seen]
    exact map_token (fun _ => rfl) (ih isQuote_of_no_quote)
  | case13 sofar c ps hp hq ih =>
    rw [spell_char, Mode.mode, Token.lexFrom, if_neg hp, if_pos hq, reverse_seen]
    exact map_token (fun _ => rfl) (ih fun _ h => by cases h; exact hq)
  | case14 sofar c ps hp hq ih =>
    rw [← ih isQuote_of_no_quote, spell_char, Mode.mode, Token.lexFrom, if_neg hp, if_neg hq,
      Mode.mode, seen_cons]
    rfl
  | case15 sofar n ps ih =>
    rw [← ih isQuote_of_no_quote, spell_child, Mode.mode,
      Token.lexFrom_bare_inert (inert_placeholder n), Mode.mode, seen_cons]
    rfl

/-- The tokens of an argument text are those of the text as it is written. -/
theorem lex_spell (ps : List Part) : Token.lex (spell ps) = (lex ps).map (·.map token) :=
  lexFrom_spell .between ps isQuote_of_no_quote

/-- Outside the quotes that a scan sees, a child may stand. -/
inductive Quiet : Option Char → List Part → Prop where
  | nil {quote : Option Char} : Quiet quote []
  | char {quote : Option Char} {c : Char} {ps : List Part} :
      Quiet (Comment.quoteAfter quote c) ps → Quiet quote (.char c :: ps)
  | child {n : Nat} {ps : List Part} : Quiet none ps → Quiet none (.child n :: ps)

theorem quiet_map_char (quote : Option Char) (cs : List Char) : Quiet quote (cs.map .char) := by
  induction cs generalizing quote with
  | nil => exact .nil
  | cons c cs ih => exact .char (ih _)

/-- The parts are characters. -/
def Written (ps : List Part) : Prop :=
  ∀ p ∈ ps, ∃ c, p = .char c

theorem written_nil : Written [] := List.forall_mem_nil _

theorem Written.cons {ps : List Part} (h : Written ps) (c : Char) : Written (.char c :: ps) :=
  List.forall_mem_cons.mpr ⟨⟨c, rfl⟩, h⟩

theorem quiet_char_iff {quote : Option Char} {c : Char} {ps : List Part} :
    Quiet quote (.char c :: ps) ↔ Quiet (Comment.quoteAfter quote c) ps :=
  ⟨fun h => by cases h; assumption, .char⟩

theorem Quiet.of_quote {c : Char} {ps : List Part} (hq : Token.isQuote c = true)
    (h : Quiet none (.char c :: ps)) : Quiet (some c) ps := by
  rwa [quiet_char_iff, Comment.quoteAfter, if_pos (show Comment.isQuote c = true from hq)] at h

theorem Quiet.of_plain {c : Char} {ps : List Part} (hq : ¬ Token.isQuote c = true)
    (h : Quiet none (.char c :: ps)) : Quiet none ps := by
  rwa [quiet_char_iff, Comment.quoteAfter, if_neg (show ¬ Comment.isQuote c = true from hq)] at h

/-- The tokens that are read all have the property. -/
def Each (Q : Lexeme → Prop) (result : Except ArgumentFault (List Lexeme)) : Prop :=
  ∀ ls, result = .ok ls → ∀ l ∈ ls, Q l

theorem each_error {Q : Lexeme → Prop} (fault : ArgumentFault) : Each Q (.error fault) := nofun

theorem Each.behind {Q : Lexeme → Prop} {result : Except ArgumentFault (List Lexeme)}
    (h : Each Q result) (more : List Lexeme) (hmore : ∀ l ∈ more, Q l) :
    Each Q (result.map (more ++ ·)) := by
  intro ls hls l hl
  cases result with
  | error fault => cases hls
  | ok rest =>
    cases hls
    exact (List.mem_append.mp hl).elim (hmore l) (h rest rfl l)

theorem each_single {Q : Lexeme → Prop} {l : Lexeme} (h : Q l) : Each Q (.ok [l]) := by
  rintro _ ⟨⟩ m hm
  obtain rfl := List.mem_singleton.mp hm
  exact h

/-- A text without children. -/
def TextWritten (l : Lexeme) : Prop :=
  ∀ ps, l = text ps → Written ps

theorem textWritten_word (ps : List Part) : TextWritten (word ps) := nofun

/-- The part of a text that has been read holds no children. -/
def Mode.Written : Mode → Prop
  | between | bare _ => True
  | quoted _ sofar => Lexeme.Written sofar

/-- Between quotes as the reader of tokens finds them, every part is a character. A doubled quote
is two steps of the scan. -/
theorem each_textWritten (mode : Mode) (ps : List Part) (h : Quiet mode.mode.quote? ps)
    (hsofar : mode.Written) : Each TextWritten (lexFrom mode ps) := by
  fun_induction lexFrom mode ps with
  | case1 => rintro _ ⟨⟩ l ⟨⟩
  | case2 sofar => exact each_single (textWritten_word _)
  | case3 => exact each_error _
  | case4 sofar ps ih =>
    have hinside : Quiet (some '"') ps := quiet_char_iff.mp (quiet_char_iff.mp h)
    exact ih hinside (Written.cons hsofar '"')
  | case5 quote sofar ps hp ih =>
    have hbehind : Quiet (Comment.quoteAfter (some quote) quote) ps := quiet_char_iff.mp h
    rw [Comment.quoteAfter, if_pos rfl] at hbehind
    refine (ih hbehind trivial).behind [text sofar.reverse] fun l hl => ?_
    obtain rfl := List.mem_singleton.mp hl
    rintro _ ⟨⟩ p hp
    exact hsofar p (List.mem_reverse.mp hp)
  | case6 quote sofar p ps hp hne ih =>
    cases h with
    | @char _ c _ h =>
      have hc : c ≠ quote := fun h => hne (h ▸ rfl)
      rw [Mode.mode, Token.Mode.quote?, Comment.quoteAfter, if_neg hc] at h
      exact ih h (Written.cons hsofar c)
  | case7 c ps hb ih => exact ih (h.of_plain (Token.not_isQuote_of_isBlank hb)) trivial
  | case8 c ps hb hp ih =>
    exact (ih (h.of_plain (Token.not_isQuote_of_isPunct hp)) trivial).behind [punct c]
      (by simp [TextWritten])
  | case9 c ps hb hp hq ih => exact ih (h.of_quote hq) written_nil
  | case10 c ps hb hp hq ih => exact ih (h.of_plain hq) trivial
  | case12 sofar c ps hp ih =>
    exact (ih (h.of_plain (Token.not_isQuote_of_isPunct hp)) trivial).behind
      [word sofar.reverse, punct c] (by simp [TextWritten])
  | case13 sofar c ps hp hq ih =>
    exact (ih (h.of_quote hq) written_nil).behind [word sofar.reverse] (by simp [TextWritten])
  | case14 sofar c ps hp hq ih => exact ih (h.of_plain hq) trivial
  | case11 n ps ih | case15 sofar n ps ih =>
    cases h with
    | child h => exact ih h trivial

/-- The parts of the token that has been begun. -/
def Mode.sofar : Mode → List Part
  | between => []
  | bare sofar | quoted _ sofar => sofar

/-- What holds of a text also within it, and where one quote stands for a doubled one, holds of the
parts of every token. -/
theorem each_parts {P : List Part → Prop} (hwithin : ∀ {qs ps}, qs <:+: ps → P ps → P qs)
    (hquote : ∀ ps qs, P (ps ++ .char '"' :: .char '"' :: qs) → P (ps ++ .char '"' :: qs))
    (mode : Mode) (ps : List Part) (h : P (mode.sofar.reverse ++ ps)) :
    Each (fun l => P l.parts) (lexFrom mode ps) := by
  have hbefore {p : Part} {qs ps : List Part} (h : P (qs ++ p :: ps)) : P qs :=
    hwithin (List.prefix_append qs _).isInfix h
  have htail {p : Part} {ps : List Part} (h : P (p :: ps)) : P ps :=
    hwithin (List.suffix_cons p ps).isInfix h
  have hbehind {p : Part} {qs ps : List Part} (h : P (qs ++ p :: ps)) : P ps :=
    htail (hwithin (List.suffix_append qs _).isInfix h)
  have hpush {p : Part} {sofar ps : List Part} (h : P (sofar.reverse ++ p :: ps)) :
      P ((p :: sofar).reverse ++ ps) := by simpa using h
  have hsingle {l : Lexeme} (h : P l.parts) : ∀ m ∈ [l], P m.parts := by simpa using h
  have hpunct (c : Char) {ps : List Part} (h : P ps) : P (punct c).parts :=
    hwithin List.nil_infix h
  fun_induction lexFrom mode ps with
  | case1 => rintro _ ⟨⟩ l ⟨⟩
  | case2 sofar => exact each_single (by simpa [parts, Mode.sofar] using h)
  | case3 => exact each_error _
  | case4 sofar ps ih => exact ih (hpush (hquote _ _ h))
  | case5 quote sofar ps hp ih =>
    exact (ih (hbehind h)).behind [text sofar.reverse] (hsingle (hbefore h))
  | case6 quote sofar p ps hp hne ih => exact ih (hpush h)
  | case7 c ps hb ih | case9 c ps hb hp hq ih => exact ih (htail h)
  | case8 c ps hb hp ih =>
    exact (ih (htail h)).behind [punct c] (hsingle (hpunct c h))
  | case10 c ps hb hp hq ih => exact ih h
  | case11 n ps ih => exact ih h
  | case12 sofar c ps hp ih =>
    exact (ih (hbehind h)).behind [word sofar.reverse, punct c]
      (List.forall_mem_cons.mpr ⟨hbefore h, hsingle (hpunct c h)⟩)
  | case13 sofar c ps hp hq ih =>
    exact (ih (hbehind h)).behind [word sofar.reverse] (hsingle (hbefore h))
  | case14 sofar c ps hp hq ih => exact ih (hpush h)
  | case15 sofar n ps ih => exact ih (hpush h)

theorem isBlank_of_mem_spell {ps : List Part} (h : ∀ p ∈ ps, p.isBlank = true) :
    ∀ c ∈ spell ps, Text.isBlank c = true := by
  intro c hc
  obtain ⟨p, hp, hc⟩ := List.mem_flatMap.mp hc
  cases p with
  | char d =>
    obtain rfl := List.mem_singleton.mp hc
    exact h _ hp
  | child n => cases h _ hp

theorem exists_word_of_child? {l : Lexeme} {n : Nat} (h : l.child? = some n) :
    ∃ ps, l = word ps ∧ ps.filter (!·.isBlank) = [.child n] := by
  rcases l with _ | _ | ps
  · cases h
  · cases h
  · refine ⟨ps, rfl, ?_⟩
    rw [child?] at h
    split at h
    next hps => cases h; exact hps
    next => cases h

theorem mem_parts_of_child? {l : Lexeme} {n : Nat} (h : l.child? = some n) :
    .child n ∈ l.parts := by
  obtain ⟨ps, rfl, hfilter⟩ := exists_word_of_child? h
  exact (List.mem_filter.mp (hfilter ▸ List.mem_cons_self)).1

/-- A word that is one child is read as its placeholder. -/
theorem token_of_child? {l : Lexeme} {n : Nat} (h : l.child? = some n) :
    l.token = .word (Fragment.placeholder n) := by
  obtain ⟨ps, rfl, hfilter⟩ := exists_word_of_child? h
  obtain ⟨front, behind, rfl, hfront, -, hbehind⟩ := List.filter_eq_cons_iff.mp hfilter
  have hfront : ∀ c ∈ spell front, Text.isBlank c = true :=
    isBlank_of_mem_spell (by simpa using hfront)
  have hbehind : ∀ c ∈ spell behind, Text.isBlank c = true :=
    isBlank_of_mem_spell (by simpa using hbehind)
  have hword := Text.words_of_not_blank (placeholder_ne_nil n) fun c hc =>
    (inert_placeholder n c hc).1
  rw [token, spell_append, spell_child, Token.ofBare, Text.words_append_blank hfront,
    ← Token.ofBare, Token.ofBare_append_blank hbehind, Token.ofBare, hword]
  simp

end Lexeme

end DocAnnotations.Argument
