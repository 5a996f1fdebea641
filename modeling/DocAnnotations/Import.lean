import DocAnnotations.Import.Preamble
import DocAnnotations.Import.Statement

/-!
The alias table of a source file. Only the text before the first class declaration is read.
-/

namespace DocAnnotations

/-- The names that are valid in a source, where `known` says which classes exist. -/
def AliasTable.ofSource (known : String → Bool) (source : String) (file : Option String) :
    Except Abort AliasTable :=
  Import.tableOfTokens known file (Import.lex (Import.preamble source))

end DocAnnotations
