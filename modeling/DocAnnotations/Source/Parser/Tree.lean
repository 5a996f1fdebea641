import DocAnnotations.Source.Parser.Token

/-!
Tokens with their brackets matched.
-/

namespace DocAnnotations.Source.Parser

/-- A token, or what stands between two brackets. The closing bracket may be missing at the end. -/
inductive Tree where
  | leaf (token : Token)
  | group (opening : Token) (items : List Tree) (closing : Option Token)
  deriving Inhabited

namespace Tree

def opens (token : Token) : Bool :=
  ["(", "[", "\x7b", "#["].any token.isPunct

def closes (token : Token) : Bool :=
  [")", "]", "\x7d"].any token.isPunct

/-- A group that is not closed yet, with its items in reverse. -/
structure Pending where
  opening : Token
  items : List Tree

/-- Adds a tree to the innermost pending group, or to the trees outside of groups. -/
def addTo (pending : List Pending) (done : List Tree) (tree : Tree) : List Pending × List Tree :=
  match pending with
  | [] => ([], tree :: done)
  | p :: outer => ({ p with items := tree :: p.items } :: outer, done)

/-- The outermost of the pending groups, where each lacks its closing bracket. -/
def closeAll (pending : List Pending) : Option Tree :=
  pending.foldl (fun inner p => some (group p.opening (inner.toList ++ p.items).reverse none)) none

/-- The trees of the remaining tokens, where groups are pending. -/
def ofTokensFrom (pending : List Pending) (done : List Tree) : List Token → List Tree
  | [] => ((closeAll pending).toList ++ done).reverse
  | token :: rest =>
    if opens token then ofTokensFrom (⟨token, []⟩ :: pending) done rest
    else if closes token then
      match pending with
      | [] => ofTokensFrom [] (leaf token :: done) rest
      | p :: outer =>
        let (outer, done) := addTo outer done (group p.opening p.items.reverse (some token))
        ofTokensFrom outer done rest
    else
      let (pending, done) := addTo pending done (leaf token)
      ofTokensFrom pending done rest

def ofTokens (tokens : List Token) : List Tree :=
  ofTokensFrom [] [] tokens

mutual

/-- The tokens of a tree. -/
def tokens : Tree → List Token
  | leaf token => [token]
  | group opening items closing => opening :: tokensOf items ++ closing.toList

def tokensOf : List Tree → List Token
  | [] => []
  | tree :: rest => tree.tokens ++ tokensOf rest

end

/-- The text of trees as it stands in the source, without the white space before it. -/
def sourceText (trees : List Tree) : List Char :=
  match tokensOf trees with
  | [] => []
  | first :: rest => first.text ++ rest.flatMap fun token => token.gap ++ token.text

/-- The line on which the trees begin. -/
def startLine (trees : List Tree) : Nat :=
  match tokensOf trees with
  | [] => 0
  | first :: _ => first.line

/-- The line on which the trees end. -/
def endLine (trees : List Tree) : Nat :=
  match (tokensOf trees).getLast? with
  | none => 0
  | some last => last.endLine

def isExtra : Tree → Bool
  | leaf token => token.isExtra
  | group _ _ _ => false

def isMarkup : Tree → Bool
  | leaf token => token.kind = .markup
  | group _ _ _ => false

def isWord (word : String) : Tree → Bool
  | leaf token => token.isWord word
  | group _ _ _ => false

def isPunct (text : String) : Tree → Bool
  | leaf token => token.isPunct text
  | group _ _ _ => false

/-- Whether the tree is a group that the given bracket opens. -/
def isGroup (opening : String) : Tree → Bool
  | leaf _ => false
  | group o _ _ => o.isPunct opening

/-- The trees inside a group. -/
def inside : Tree → List Tree
  | leaf _ => []
  | group _ items _ => items

/-- The text of a word. -/
def name? : Tree → Option String
  | leaf token => if token.kind = .word then some (String.ofList token.text) else none
  | group _ _ _ => none

/-- A variable with its sign. -/
def variableText? : Tree → Option String
  | leaf token => if token.kind = .variableName then some (String.ofList token.text) else none
  | group _ _ _ => none

/-- Drops comments and markup in front. -/
def skipExtras (trees : List Tree) : List Tree :=
  trees.dropWhile isExtra

end Tree

end DocAnnotations.Source.Parser
