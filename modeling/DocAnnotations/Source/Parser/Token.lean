import DocAnnotations.Source.Parser.Lexeme

/-!
Tokens of a source. Each holds the white space before it, so that the text of several tokens is the
text of the source.
-/

namespace DocAnnotations.Source.Parser

inductive TokenKind where
  | word
  | variableName
  | number
  /-- Text between quotes. -/
  | quoted
  /-- Text between other delimiters. -/
  | labelled
  | punctuation
  | comment
  /-- Text outside code, with the tags around it. -/
  | markup
  deriving DecidableEq, Repr, Inhabited

/-- A token, with the line on which it begins. -/
structure Token where
  kind : TokenKind
  text : List Char
  gap : List Char
  line : Nat
  deriving Inhabited

namespace Token

/-- The line on which the token ends. -/
def endLine (token : Token) : Nat :=
  token.line + token.text.count '\n'

/-- Whether the token may stand anywhere between others. -/
def isExtra (token : Token) : Bool :=
  token.kind = .comment || token.kind = .markup

def isPunct (token : Token) (text : String) : Bool :=
  token.kind = .punctuation && token.text = text.toList

/-- Whether the token is a word, in any case. -/
def isWord (token : Token) (word : String) : Bool :=
  token.kind = .word && token.text.map Char.toLower = word.toList

end Token

/-- Punctuation of more than one character, the longest first. -/
def longPunctuation : List String := ["?->", "...", "::", "->", "=>", "??"]

/-- The length of the punctuation in front. -/
def punctuationLength (cs : List Char) : Nat :=
  match longPunctuation.find? fun p => p.toList.isPrefixOf cs with
  | some p => p.length
  | none => 1

/-- A letter in front of a quote that changes nothing. -/
def isQuoteMark (c : Char) : Bool :=
  c = 'b' || c = 'B'

/-- The kind of the token that begins with `c`, and how many characters it has behind `c`. -/
def lexeme (c : Char) (cs : List Char) : TokenKind × Nat :=
  match c, cs with
  | '?', '>' :: rest => (.markup, 1 + markupLength rest)
  | '/', '*' :: rest => (.comment, 1 + blockCommentLength rest)
  | '/', '/' :: rest => (.comment, 1 + lineCommentLength rest)
  | '\'', _ => (.quoted, openLength [.plain] cs)
  | '"', _ => (.quoted, openLength [.text '"'] cs)
  | '`', _ => (.labelled, openLength [.text '`'] cs)
  | '#', '[' :: _ => (.punctuation, 1)
  | '#', _ => (.comment, lineCommentLength cs)
  | '<', '<' :: '<' :: rest =>
    match labelledLength? rest with
    | some n => (.labelled, 2 + n)
    | none => (.punctuation, 0)
  | _, _ =>
    if isQuoteMark c ∧ cs.head? = some '\'' then (.quoted, 1 + openLength [.plain] (cs.drop 1))
    else if isQuoteMark c ∧ cs.head? = some '"' then
      (.quoted, 1 + openLength [.text '"'] (cs.drop 1))
    else if isNameStart c ∨ c = '\\' then
      (.word, (cs.takeWhile fun c => isNamePart c || c = '\\').length)
    else if c = '$' ∧ cs.head?.any isNameStart then (.variableName, (cs.takeWhile isNamePart).length)
    else if c.isDigit ∨ (c = '.' ∧ cs.head?.any Char.isDigit) then
      (.number, numberLength (c :: cs) - 1)
    else (.punctuation, punctuationLength (c :: cs) - 1)

/-- The tokens of a text that begins on the given line. -/
def lexFrom (line : Nat) (cs : List Char) : List Token :=
  match _hs : cs.dropWhile isSpace with
  | [] => []
  | c :: rest =>
    let gap := cs.takeWhile isSpace
    let (kind, n) := lexeme c rest
    let token : Token := ⟨kind, c :: rest.take n, gap, line + gap.count '\n'⟩
    token :: lexFrom token.endLine (rest.drop n)
termination_by cs.length
decreasing_by
  have h := (List.dropWhile_suffix isSpace (l := cs)).length_le
  rw [_hs, List.length_cons] at h
  rw [List.length_drop]
  omega

/-- The tokens of a source. It begins outside code. -/
def lex (source : String) : List Token :=
  let cs := source.toList
  let n := markupLength cs
  let first : Token := ⟨.markup, cs.take n, [], 1⟩
  first :: lexFrom first.endLine (cs.drop n)

end DocAnnotations.Source.Parser
