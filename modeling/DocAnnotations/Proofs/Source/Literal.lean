import DocAnnotations.Proofs.Source.Arguments

/-! Literals in native attributes, and the values that are read back of them. -/
namespace DocAnnotations.Source

open Argument Text

/-- What stands between single quotes: single characters, and backslashes with the character behind
them. -/
inductive Piece where
  | char (c : Char)
  | pair (c : Char)
  deriving DecidableEq

namespace Piece

def source : Piece → List Char
  | char c => [c]
  | pair c => ['\\', c]

/-- A backslash escapes a quote and another backslash. Elsewhere it stands for itself. -/
def meaning : Piece → List Char
  | char c => [c]
  | pair c => if c = '\'' ∨ c = '\\' then [c] else ['\\', c]

/-- A quote would end the text, and a backslash would take the next character along. -/
def Proper : Piece → Prop
  | char c => c ≠ '\'' ∧ c ≠ '\\'
  | pair _ => True

instance (p : Piece) : Decidable p.Proper :=
  match p with
  | char c => inferInstanceAs (Decidable (c ≠ '\'' ∧ c ≠ '\\'))
  | pair _ => isTrue trivial

end Piece

/-- The sign in front of a number, if there is one. -/
inductive Sign where
  | none
  | plus
  | minus
  deriving DecidableEq

namespace Sign

def source : Sign → List Char
  | none => []
  | plus => ['+']
  | minus => ['-']

def apply : Sign → Nat → Int
  | none, n | plus, n => n
  | minus, n => -n

end Sign

/-- A literal. Null and the truth values may be written in any case. -/
inductive Literal where
  | null (word : List Char)
  | bool (b : Bool) (word : List Char)
  | int (sign : Sign) (n : Nat)
  | text (pieces : List Piece)
  deriving DecidableEq

namespace Literal

/-- What is written between the quotes. -/
def body (pieces : List Piece) : List Char :=
  pieces.flatMap Piece.source

def source : Literal → List Char
  | null word | bool _ word => word
  | int sign n => sign.source ++ Nat.toDigits 10 n
  | text pieces => '\'' :: body pieces ++ ['\'']

/-- The value in the language of the source. -/
def value : Literal → Value
  | null _ => .null
  | bool b _ => .bool b
  | int sign n => .int (sign.apply n)
  | text pieces => .text (String.ofList (pieces.flatMap Piece.meaning))

/-- The literal is spelled as such, with no more digits than are read and on a single line. -/
def Proper : Literal → Prop
  | null word => word.map Char.toLower = "null".toList
  | bool b word => word.map Char.toLower = (toString b).toList
  | int _ n => (Nat.toDigits 10 n).length ≤ Numeral.maxDigits
  | text pieces => (∀ p ∈ pieces, p.Proper) ∧ Clean (String.ofList (body pieces))

/-- Nothing in the literal is escaped. -/
def Plain : Literal → Prop
  | text pieces => ∀ p ∈ pieces, p.meaning = p.source
  | _ => True

/-- The literal is a number with a sign. -/
def IsSigned : Literal → Prop
  | int sign _ => sign ≠ .none
  | _ => False

instance (l : Literal) : Decidable l.Proper :=
  match l with
  | null word => inferInstanceAs (Decidable (word.map Char.toLower = "null".toList))
  | bool b word => inferInstanceAs (Decidable (word.map Char.toLower = (toString b).toList))
  | int _ n => inferInstanceAs (Decidable ((Nat.toDigits 10 n).length ≤ Numeral.maxDigits))
  | text pieces =>
    inferInstanceAs (Decidable ((∀ p ∈ pieces, p.Proper) ∧ Clean (String.ofList (body pieces))))

instance (l : Literal) : Decidable l.Plain :=
  match l with
  | text pieces => inferInstanceAs (Decidable (∀ p ∈ pieces, p.meaning = p.source))
  | null _ | bool _ _ | int _ _ => isTrue trivial

instance (l : Literal) : Decidable l.IsSigned :=
  match l with
  | int sign _ => inferInstanceAs (Decidable (sign ≠ .none))
  | null _ | bool _ _ | text _ => isFalse id

/-- What is kept of the literal. A number with a sign counts as an operation, which is kept as it
is written. -/
def kept (l : Literal) : Value :=
  if l.IsSigned then .text (String.ofList l.source) else l.value

/-- What a literal is as an expression. A sign makes an operation of a number. -/
def form : Literal → Expression
  | null word | bool _ word => .literal word
  | int .none n => .literal (Nat.toDigits 10 n)
  | int sign n => .other (int sign n).source
  | text pieces => .quoted (text pieces).source

/-- The words that null and the truth values spell. -/
def words : List String := ["true", "false", "null"]

variable {word : List Char} {small : String} {pieces : List Piece}

theorem null_mem_words : "null" ∈ words := by decide

theorem toString_mem_words (b : Bool) : toString b ∈ words := by
  cases b <;> decide

theorem isAlpha_of_toLower {c : Char} (h : c.toLower.isAlpha = true) : c.isAlpha = true := by
  by_cases hupper : c.isUpper = true
  · exact Bool.or_eq_true_iff.mpr (.inl hupper)
  · have hsame : c.toLower = c := dif_neg fun h => hupper (decide_eq_true h)
    rwa [hsame] at h

/-- A word that spells null or a truth value in any case has only letters. -/
theorem isAlpha_of_mem (h : word.map Char.toLower = small.toList)
    (hsmall : small ∈ words) : ∀ c ∈ word, c.isAlpha = true := by
  intro c hc
  refine isAlpha_of_toLower ?_
  have hmem : c.toLower ∈ small.toList := h ▸ List.mem_map_of_mem hc
  have hall : words.all (·.toList.all Char.isAlpha) = true := by decide
  exact List.all_eq_true.mp (List.all_eq_true.mp hall small hsmall) _ hmem

theorem quote_notMem_body (h : (text pieces).Proper) (hplain : (text pieces).Plain) :
    '\'' ∉ body pieces := by
  intro hmem
  obtain ⟨p, hp, hmem⟩ := List.mem_flatMap.mp hmem
  have hproper := h.1 p hp
  have hplain := hplain p hp
  cases p with
  | char c => exact hproper.1 (by simpa [Piece.source, eq_comm] using hmem)
  | pair c =>
    obtain rfl : '\'' = c := by simpa [Piece.source] using hmem
    simp [Piece.meaning, Piece.source] at hplain

theorem meaning_eq_body (hplain : (text pieces).Plain) :
    pieces.flatMap Piece.meaning = body pieces :=
  List.flatMap_congr hplain

theorem bare_of_isAlpha (hne : word ≠ []) (h : ∀ c ∈ word, c.isAlpha = true) :
    Bare (String.ofList word) := by
  refine ⟨by simpa using hne, fun c hc => ?_⟩
  have hc := h c (by simpa using hc)
  refine ⟨isBlank_of_isAlpha hc, ?_, ?_⟩ <;> rw [← Bool.not_eq_true] <;> intro hsign
  · simp only [Argument.Token.isPunct, Bool.or_eq_true, decide_eq_true_eq] at hsign
    obtain ((((rfl | rfl) | rfl) | rfl) | rfl) | rfl := hsign <;> exact absurd hc (by decide)
  · simp only [Argument.Token.isQuote, Bool.or_eq_true, decide_eq_true_eq] at hsign
    obtain rfl | rfl := hsign <;> exact absurd hc (by decide)

theorem lower_of_isAlpha (h : ∀ c ∈ word, c.isAlpha = true) :
    lower (String.ofList word) = String.ofList (word.map Char.toLower) := by
  have hfrom (seen : List Char) : lowerFrom seen word = word.map Char.toLower := by
    induction word generalizing seen with
    | nil => rfl
    | cons c cs ih =>
      have hlow := (toNat_of_isAlpha (h c (by simp))).2
      have hsigma : c ≠ 'Σ' := by rintro rfl; revert hlow; decide
      have hascii : c.toNat < 128 := by omega
      rw [lowerFrom, ih fun d hd => h d (by simp [hd])]
      simp [hsigma, lowerChar, hascii]
  rw [lower, String.toList_ofList, hfrom]

theorem lower_of_mem (h : word.map Char.toLower = small.toList)
    (hsmall : small ∈ words) : lower (String.ofList word) = small := by
  rw [lower_of_isAlpha (isAlpha_of_mem h hsmall), h, String.ofList_toList]

theorem bare_of_mem (h : word.map Char.toLower = small.toList)
    (hsmall : small ∈ words) : Bare (String.ofList word) := by
  refine bare_of_isAlpha (fun hnil => ?_) (isAlpha_of_mem h hsmall)
  have hall : ∀ s ∈ words, s.toList ≠ [] := by decide
  exact hall small hsmall (by rw [← h, hnil]; rfl)

theorem ofWord_null (h : (null word).Proper) : Scalar.ofWord (String.ofList word) = .null := by
  simp [Scalar.ofWord, lower_of_mem h null_mem_words]

theorem ofWord_bool {b : Bool} (h : (bool b word).Proper) :
    Scalar.ofWord (String.ofList word) = .bool b := by
  have hlower := lower_of_mem h (toString_mem_words b)
  cases b <;> simp [Scalar.ofWord, hlower, toString]

theorem ofList_toDigits (n : Nat) : String.ofList (Nat.toDigits 10 n) = toString (n : Int) := by
  rw [← String.ofList_toList (s := toString (n : Int)), Numeral.toList_toString,
    if_neg (by omega)]
  rfl

/-- A number with a sign has only plain characters. -/
theorem isPlain_of_mem_source {sign : Sign} {n : Nat} :
    ∀ c ∈ (int sign n).source, Json.IsPlain c := by
  intro c hc
  have hmem : c ∈ "+-0123456789".toList := by
    rw [source, List.mem_append] at hc
    obtain hc | hc := hc
    · cases sign <;> simp_all [Sign.source]
    · have hdigit := mem_of_isDigit (Nat.isDigit_of_mem_toDigits (by decide) (by decide) hc)
      exact List.mem_append_right "+-".toList hdigit
  have hall : "+-0123456789".toList.all (fun c => decide (Json.IsPlain c)) = true := by
    decide +kernel
  exact of_decide_eq_true (List.all_eq_true.mp hall c hmem)

theorem readable_form {l : Literal} (h : l.Proper) (hplain : l.Plain) : l.form.Readable := by
  cases l with
  | null word =>
    refine .literal (bare_of_mem h null_mem_words) ?_
    simp [Scalar.fault?, ofWord_null h]
  | bool b word =>
    refine .literal (bare_of_mem h (toString_mem_words b)) ?_
    simp [Scalar.fault?, ofWord_bool h]
  | int sign n =>
    cases sign with
    | none =>
      refine .literal ?_ ?_ <;> rw [ofList_toDigits]
      · exact bare_toString n
      · exact fault?_toString h
    | plus | minus => exact .other fun hquote => (isPlain_of_mem_source _ hquote).ne_quote rfl
  | text pieces => exact .quoted rfl (quote_notMem_body h hplain) h.2

/-- The value that is read back of a literal. -/
theorem value_term_form {l : Literal} (h : l.Proper) (hplain : l.Plain) :
    (l.form.term Expression.escaped).value = l.kept := by
  cases l with
  | null word =>
    change Scalar.value _ = _
    rw [Scalar.value, ofWord_null h]
    rfl
  | bool b word =>
    change Scalar.value _ = _
    rw [Scalar.value, ofWord_bool h]
    rfl
  | int sign n =>
    have hescape : (int sign n).source.flatMap Json.escape = (int sign n).source :=
      Json.flatMap_escape_eq_self_iff.mpr isPlain_of_mem_source
    cases sign with
    | none =>
      change Scalar.value _ = _
      rw [ofList_toDigits, value_toString]
      rfl
    | plus | minus =>
      rw [form, Expression.term, Expression.text, hescape]
      rfl
      all_goals simp
  | text pieces =>
    have hdrop : Expression.dropQuotes (text pieces).source = body pieces := by
      simp [Expression.dropQuotes, source]
    rw [form, Expression.term, Expression.text, hdrop]
    change Value.text _ = Value.text _
    rw [meaning_eq_body hplain]

theorem depth_term_form (l : Literal) (name : List Char → List Char) :
    (l.form.term name).depth = 0 := by
  cases l with
  | int sign n => cases sign <;> rfl
  | null | bool | text => rfl

section Arguments

variable {name : String} {arguments : List (Option (List Char) × Literal)}

end Arguments

end Literal

end DocAnnotations.Source
