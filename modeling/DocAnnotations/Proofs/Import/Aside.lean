import DocAnnotations.Proofs.Import.Layout

/-! Comments between the tokens of a preamble. They change nothing, unless a line of a comment looks
like the declaration of a class. -/
namespace DocAnnotations.Import

open QualifiedName Text

/-- A comment with white space around it. -/
structure Aside where
  before : List Char := []
  body : List Char
  after : List Char := []

namespace Aside

open Item

def items (a : Aside) : List Item :=
  a.before.map .blank ++ .block a.body :: a.after.map .blank

structure Proper (a : Aside) : Prop where
  before : ∀ c ∈ a.before, isBlank c = true
  body : ¬ ['*', '/'] <:+: a.body
  after : ∀ c ∈ a.after, isBlank c = true

variable {a : Aside} {front behind : List Item} {rest : List Char} {known : String → Bool}
  {file : Option String}

theorem Proper.items (h : a.Proper) :
    ∀ i ∈ a.items, i.Proper ∧ i.isWord = false ∧ i.lexeme? = none := by
  have hblanks {cs : List Char} (hcs : ∀ c ∈ cs, isBlank c = true) :
      ∀ i ∈ cs.map Item.blank, i.Proper ∧ i.isWord = false ∧ i.lexeme? = none := by
    intro i hi
    obtain ⟨c, hc, rfl⟩ := List.mem_map.mp hi
    exact ⟨hcs c hc, rfl, rfl⟩
  exact List.forall_mem_append.mpr
    ⟨hblanks h.before, List.forall_mem_cons.mpr ⟨⟨h.body, rfl, rfl⟩, hblanks h.after⟩⟩

theorem Proper.lexemes_insert (h : a.Proper) :
    lexemes (front ++ (a.items ++ behind)) = lexemes (front ++ behind) := by
  have hnone : a.items.filterMap lexeme? = [] :=
    List.filterMap_eq_nil_iff.mpr fun i hi => (h.items i hi).2.2
  simp only [lexemes, List.filterMap_append, hnone, List.nil_append]

/-- A comment may stand between any two items. -/
theorem Proper.laid_insert (h : a.Proper) (hlaid : Laid (front ++ behind)) :
    Laid (front ++ (a.items ++ behind)) := by
  obtain ⟨hproper, hapart⟩ := hlaid
  obtain ⟨hfront, hbehind, -⟩ := List.isChain_append.mp hapart
  have hitems := h.items
  refine ⟨?_, ?_⟩
  · rw [List.forall_mem_append] at hproper ⊢
    exact ⟨hproper.1, List.forall_mem_append.mpr ⟨fun i hi => (hitems i hi).1, hproper.2⟩⟩
  · have hmiddle : a.items.IsChain fun i j => ¬ (i.isWord = true ∧ j.isWord = true) := by
      refine (List.pairwise_of_forall_mem_list fun i hi j hj => ?_).isChain
      simp [(hitems i hi).2.1]
    refine List.isChain_append.mpr ⟨hfront, List.isChain_append.mpr ⟨hmiddle, hbehind, ?_⟩, ?_⟩
    · intro i hi j hj
      simp [(hitems i (List.mem_of_getLast? hi)).2.1]
    · intro i hi j hj
      have hne : a.items ≠ [] := by simp [Aside.items]
      rw [List.head?_append_of_ne_nil _ hne] at hj
      simp [(hitems j (List.mem_of_head? hj)).2.1]

theorem written_items (a : Aside) : written a.items =
    a.before ++ '/' :: '*' :: (a.body ++ '*' :: '/' :: a.after) := by
  have hblanks (cs : List Char) : (cs.map Item.blank).flatMap text = cs := by
    rw [List.flatMap_map]
    exact List.flatMap_singleton' cs
  rw [written, Aside.items, List.flatMap_append, List.flatMap_cons, hblanks, hblanks]
  simp [text]

section Lines

variable {cs body text : List Char}

theorem not_declares_nil : ¬ Declares [] := by
  rintro ⟨gap, word, b, rest, heq, -⟩
  simp at heq

/-- What a comment is opened behind makes no declaration. -/
theorem exists_lines_open (hcs : ∀ line ∈ lines cs, ¬ Declares line) (text : List Char) :
    ∃ front, (∀ line ∈ front, ¬ Declares line) ∧
      lines (cs ++ '/' :: '*' :: text) = front ++ (lines text).tail ∧
      front.flatten = cs ++ '/' :: '*' :: (lines text).headD [] := by
  obtain ⟨init, last, hlines, hinsert⟩ := exists_lines_insert cs
  have hlast : ¬ Declares last := by
    by_cases hnil : last = []
    · exact hnil ▸ not_declares_nil
    · exact hcs last (by simp [hlines, hnil])
  refine ⟨init ++ [last ++ (['/', '*'] ++ (lines text).headD [])], ?_, ?_, ?_⟩
  · refine List.forall_mem_append.mpr ⟨fun line hline => ?_, List.forall_mem_singleton.mpr ?_⟩
    · exact hcs line (hlines ▸ List.mem_append_left _ hline)
    · exact fun h => hlast (h.of_append_cons (by decide))
  · have hall := hinsert ['/', '*'] text (by simp) fun _ => noLineEnd_of_mem (by decide)
    rw [List.append_assoc, List.singleton_append]
    exact hall
  · rw [← flatten_append_of_lines hlines]
    simp

/-- Behind the first line of a comment only its lines and those behind it may declare. -/
theorem not_declares_of_close (hbody : ∀ line ∈ (lines body).tail, ¬ Declares line)
    (htext : ∀ line ∈ (lines text).tail, ¬ Declares line) :
    ∀ line ∈ (lines (body ++ '*' :: '/' :: text)).tail, ¬ Declares line := by
  obtain ⟨init, last, hlines, hinsert⟩ := exists_lines_insert body
  have hall := hinsert ['*', '/'] text (by simp) fun _ => noLineEnd_of_mem (by decide)
  change lines (body ++ '*' :: '/' :: text) = _ at hall
  rw [hall]
  cases init with
  | nil => exact htext
  | cons first init =>
    rw [hlines] at hbody
    change ∀ line ∈ init ++ _ :: (lines text).tail, _
    refine List.forall_mem_append.mpr ⟨fun line hline => ?_, List.forall_mem_cons.mpr ⟨?_, htext⟩⟩
    · exact hbody line (List.mem_append_left _ hline)
    · intro h
      have hlast : Declares last := h.of_append_cons (by decide)
      by_cases hnil : last = []
      · exact not_declares_nil (hnil ▸ hlast)
      · exact hbody last (by simp [hnil]) hlast

/-- Where a line of a comment declares, the lines in front of it are lines of the comment. -/
theorem isPrefix_of_declares (hbody : ∃ line ∈ (lines body).tail, Declares line)
    (text : List Char) :
    (lines (body ++ '*' :: '/' :: text)).headD [] ++
      ((lines (body ++ '*' :: '/' :: text)).tail.takeWhile (!beginsDeclaration ·)).flatten <+:
        body := by
  obtain ⟨line, hline, hdeclares⟩ := hbody
  obtain ⟨init, last, hlines, hinsert⟩ := exists_lines_insert body
  have hall := hinsert ['*', '/'] text (by simp) fun _ => noLineEnd_of_mem (by decide)
  change lines (body ++ '*' :: '/' :: text) = _ at hall
  have hflatten := flatten_append_of_lines hlines
  cases init with
  | nil =>
    rw [hlines] at hline
    split at hline <;> cases hline
  | cons first init =>
    have hinner : (init ++ (last ++ (['*', '/'] ++ (lines text).headD [])) ::
        (lines text).tail).takeWhile (!beginsDeclaration ·) =
          init.takeWhile (!beginsDeclaration ·) := by
      by_cases hkept : ∀ l ∈ init, (!beginsDeclaration l) = true
      · have hlast : Declares last := by
          rw [hlines] at hline
          rcases List.mem_append.mp hline with hline | hline
          · exact absurd hdeclares.beginsDeclaration (by simpa using hkept line hline)
          · split at hline
            next => cases hline
            next => rwa [List.mem_singleton.mp hline] at hdeclares
        have hbegins := (hlast.append (['*', '/'] ++ (lines text).headD [])).beginsDeclaration
        rw [List.takeWhile_append_of_pos hkept,
          List.takeWhile_cons_of_neg (by rw [hbegins]; decide), List.append_nil,
          List.takeWhile_eq_self_iff.mpr hkept]
      · exact takeWhile_append_of_not_forall hkept _
    obtain ⟨behind, heq⟩ := List.takeWhile_prefix (!beginsDeclaration ·) (l := init)
    rw [hall]
    change first ++ ((init ++ _).takeWhile _).flatten <+: body
    refine ⟨behind.flatten ++ last, ?_⟩
    rw [hinner, ← hflatten, List.flatten_cons, List.append_assoc,
      ← List.append_assoc (List.flatten _), ← List.flatten_append, heq, ← List.append_assoc]

end Lines

/-- Where a line of a comment declares, the preamble ends in the comment. -/
theorem exists_preambleOf_open {cs body : List Char} (hcs : ∀ line ∈ lines cs, ¬ Declares line)
    (hbody : ∃ line ∈ (lines body).tail, Declares line) (text : List Char) :
    ∃ part, part <+: body ∧
      preambleOf (cs ++ '/' :: '*' :: (body ++ '*' :: '/' :: text)) =
        cs ++ '/' :: '*' :: part := by
  obtain ⟨front, hfront, hlines, hflatten⟩ := exists_lines_open hcs (body ++ '*' :: '/' :: text)
  have hpassed : ∀ line ∈ front, (!beginsDeclaration line) = true := by
    intro line hline
    simpa [← beginsDeclaration_iff] using hfront line hline
  refine ⟨_, isPrefix_of_declares hbody text, ?_⟩
  rw [preambleOf, hlines, List.takeWhile_append_of_pos hpassed, List.flatten_append, hflatten,
    List.append_assoc]
  rfl

/-- The white space around the comment makes no line that declares, and the declaration of the class
keeps a line of its own. -/
structure Fits (a : Aside) (front behind : List Item) : Prop where
  before : ∀ line ∈ lines (written front ++ a.before), ¬ Declares line
  after : ∀ line ∈ (lines (a.after ++ written behind)).tail, ¬ Declares line
  ends : (a.after ++ written behind).getLast? = some '\n'

theorem written_insert (a : Aside) (front behind : List Item) :
    written (front ++ (a.items ++ behind)) = (written front ++ a.before) ++
      '/' :: '*' :: (a.body ++ '*' :: '/' :: (a.after ++ written behind)) := by
  have hitems : a.items.flatMap text = _ := written_items a
  simp [written, hitems]

theorem Fits.isPreamble (h : a.Fits front behind)
    (hsource : IsPreamble (written (front ++ behind)) rest)
    (hbody : ∀ line ∈ (lines a.body).tail, ¬ Declares line) :
    IsPreamble (written (front ++ (a.items ++ behind))) rest := by
  obtain ⟨hbefore, hafter, hends⟩ := h
  rw [written_insert]
  obtain ⟨opened, hopened, hlines, -⟩ := exists_lines_open hbefore
    (a.body ++ '*' :: '/' :: (a.after ++ written behind))
  refine ⟨?_, ?_, hsource.declares⟩
  · rw [hlines]
    exact List.forall_mem_append.mpr ⟨hopened, not_declares_of_close hbody hafter⟩
  · have hne : a.after ++ written behind ≠ [] := by
      intro hnil
      simp [hnil] at hends
    have hsplit (cs : List Char) : cs ++ '/' :: '*' :: (a.body ++ '*' :: '/' ::
        (a.after ++ written behind)) =
          (cs ++ '/' :: '*' :: (a.body ++ ['*', '/'])) ++ (a.after ++ written behind) := by
      simp
    rw [hsplit, List.getLast?_append_of_ne_nil _ hne, hends]
    rintro c ⟨⟩
    rfl

/-- Nothing is read of a comment that does not end. -/
theorem Proper.lexemes_open {part : List Char} (h : a.Proper) (hlaid : Laid (front ++ behind))
    (hpart : part <+: a.body) :
    (lexFrom 1 ((written front ++ a.before) ++ '/' :: '*' :: part)).map Token.lexeme =
      lexemes front := by
  have hopen : ¬ ['*', '/'] <:+: part := fun hends => h.body (hends.trans hpart.isInfix)
  have hfront : Laid (front ++ a.before.map Item.blank) := by
    have hall := h.laid_insert hlaid
    rw [Aside.items, List.append_assoc, ← List.append_assoc] at hall
    exact hall.left
  have hwritten : written front ++ a.before = written (front ++ a.before.map Item.blank) := by
    have hblanks : (a.before.map Item.blank).flatMap text = a.before := by
      rw [List.flatMap_map]
      exact List.flatMap_singleton' a.before
    rw [written, written, List.flatMap_append, hblanks]
  have hlexemes : lexemes (front ++ a.before.map Item.blank) = lexemes front := by
    have hnone : (a.before.map Item.blank).filterMap lexeme? = [] := by
      rw [List.filterMap_map]
      exact List.filterMap_eq_nil_iff.mpr fun c hc => rfl
    rw [lexemes, lexemes, List.filterMap_append, hnone, List.append_nil]
  have hslash : ∀ c ∈ ('/' :: '*' :: part).head?, isNamePart c = false := by
    rintro c ⟨⟩
    decide
  obtain ⟨next, heq⟩ := hfront.lexFrom_written hslash 1
  have hskip : cutSkipped '/' ('*' :: part) = some ('*' :: part, []) := by
    rw [cutSkipped, cutBlock_open hopen]
  rw [hwritten, heq, hlexemes, lexFrom_skip (by decide) hskip, lexFrom, List.map_nil,
    List.append_nil]

theorem not_declares_of_append {cs ds : List Char}
    (h : ∀ line ∈ lines (cs ++ ds), ¬ Declares line) : ∀ line ∈ lines cs, ¬ Declares line := by
  by_cases hne : cs = []
  · rw [hne]
    exact List.forall_mem_nil _
  obtain ⟨init, last, behind, hlines, hall, hbehind⟩ := exists_lines_append hne ds
  obtain ⟨more, rest, rfl⟩ := hbehind.exists_eq
  rw [hall] at h
  rw [hlines]
  refine List.forall_mem_append.mpr ⟨fun line hline => ?_, List.forall_mem_singleton.mpr ?_⟩
  · exact h line (List.mem_append_left _ hline)
  · intro hlast
    exact h (last ++ more) (by simp) (hlast.append more)

/-- A comment between two items of a preamble changes nothing, unless one of its lines begins like
the declaration of a class. Then nothing is read from the comment on. -/
theorem ofSource_comment (known : String → Bool) (file : Option String)
    (hlaid : Laid (front ++ behind)) (hsource : IsPreamble (written (front ++ behind)) rest)
    (ha : a.Proper) (hfits : a.Fits front behind) :
    ((∀ line ∈ (lines a.body).tail, ¬ Declares line) →
      (AliasTable.ofSource known
          (String.ofList (written (front ++ (a.items ++ behind)) ++ rest)) file).toOption =
        (AliasTable.ofSource known
          (String.ofList (written (front ++ behind) ++ rest)) file).toOption) ∧
    ((∃ line ∈ (lines a.body).tail, Declares line) →
      (AliasTable.ofSource known
          (String.ofList (written (front ++ (a.items ++ behind)) ++ rest)) file).toOption =
        (AliasTable.ofSource known (String.ofList (written front)) file).toOption) := by
  constructor
  · intro hbody
    rw [(ha.laid_insert hlaid).toOption_ofSource (hfits.isPreamble hsource hbody),
      hlaid.toOption_ofSource hsource, ha.lexemes_insert]
  · intro hbody
    obtain ⟨part, hpart, hpreamble⟩ := exists_preambleOf_open hfits.before hbody
      (a.after ++ written behind ++ rest)
    have htext : written (front ++ (a.items ++ behind)) ++ rest = (written front ++ a.before) ++
        '/' :: '*' :: (a.body ++ '*' :: '/' :: (a.after ++ written behind ++ rest)) := by
      rw [written_insert]
      simp
    have hfront := preambleOf_eq_self (not_declares_of_append hfits.before)
    rw [toOption_ofSource, toOption_ofSource, htext, hpreamble, hfront,
      ha.lexemes_open hlaid hpart, hlaid.left.lexemes_eq]

/-- Keywords and quotes in a comment between the base of a group and its brace. -/
theorem ofSource_comment_group :
    let word (w : String) : Item := .word w.toList
    let front : List Item :=
      [.tag, .blank '\n', word "namespace", .blank ' ', word "App", .sign ';', .blank '\n',
        word "use", .blank ' ', word "Lib\\"]
    let behind : List Item := [.sign '{', word "Note", .sign '}', .sign ';', .blank '\n']
    let a : Aside := { body := "*\n * Don't use Not\\An\\Import;\n * class \"Host\" \x7b\n ".toList
                       before := "\n".toList, after := "\n".toList }
    let rest := "final class Host \x7b\x7d\n".toList
    Laid (front ++ behind) ∧ IsPreamble (written (front ++ behind)) rest ∧ a.Proper ∧
      a.Fits front behind ∧ (∀ line ∈ (lines a.body).tail, ¬ Declares line) ∧
      (AliasTable.ofSource (fun _ => false)
          (String.ofList (written (front ++ (a.items ++ behind)) ++ rest)) none).toOption =
        some { scope := "App", imports := [("Lib\\Note", "Note")] } := by
  intro word front behind a rest
  have hlaid : Laid (front ++ behind) := by decide +kernel
  have hlast : (written (front ++ behind)).getLast? = some '\n' := by decide
  have hsource : IsPreamble (written (front ++ behind)) rest :=
    ⟨by decide +kernel, fun c hc => Option.some.inj (hc.symm.trans hlast), by decide⟩
  have hbreak : ∀ c ∈ ['\n'], isBlank c = true := List.forall_mem_singleton.mpr (by decide)
  have ha : a.Proper := ⟨hbreak, by decide +kernel, hbreak⟩
  have hfits : a.Fits front behind := ⟨by decide, by decide, by decide⟩
  have hbody : ∀ line ∈ (lines a.body).tail, ¬ Declares line := by decide
  refine ⟨hlaid, hsource, ha, hfits, hbody, ?_⟩
  rw [(ofSource_comment (fun _ => false) none hlaid hsource ha hfits).1 hbody,
    ofSource_of_chars none rfl]
  decide +kernel

/-- A line of a comment that begins with the word `class` hides the import behind the comment. -/
theorem ofSource_comment_ne :
    let source (comment : String) := "<?php\nnamespace App;\n" ++ comment ++
      "use Lib\\Note;\nclass Host \x7b\x7d\n"
    AliasTable.ofSource (fun _ => false) (source "/* The\nclass of notes.\n*/\n") none =
        .ok { scope := "App" } ∧
      AliasTable.ofSource (fun _ => false) (source "") none =
        .ok { scope := "App", imports := [("Lib\\Note", "Note")] } := by
  intro source
  have hsource {comment : String} {cs : List Char} (h : comment = String.ofList cs) :
      source comment = String.ofList ("<?php\nnamespace App;\n".toList ++ cs ++
        "use Lib\\Note;\nclass Host \x7b\x7d\n".toList) :=
    append_of_chars (append_of_chars rfl h) rfl
  exact ⟨(ofSource_of_chars none (hsource rfl)).trans (by decide +kernel),
    (ofSource_of_chars none (hsource rfl)).trans (by decide +kernel)⟩

end Aside

end DocAnnotations.Import
