import DocAnnotations.Proofs.Import.Insertion
import DocAnnotations.Proofs.Import.Name
import DocAnnotations.Source.Class

/-! Use statements for several classes, in a list or in a group, and the statements that import the
same classes one by one. -/
namespace DocAnnotations.Import

open QualifiedName Text

/-- A name in a use statement, and the name behind `as` if there is one. -/
structure Member where
  name : List Char
  renamed : Option (List Char) := none

namespace Member

def text (m : Member) : List Char :=
  m.name ++ m.renamed.elim [] (" as ".toList ++ ·)

/-- The member with its full name, where it stands in a group. -/
def below (base : List Char) (m : Member) : Member :=
  { m with name := base ++ m.name }

structure Proper (m : Member) : Prop where
  name : Legible m.name
  renamed : ∀ other ∈ m.renamed, Legible other

instance (m : Member) : Decidable m.Proper :=
  decidable_of_iff (_ ∧ _)
    ⟨fun ⟨hname, hrenamed⟩ => ⟨hname, hrenamed⟩, fun h => ⟨h.name, h.renamed⟩⟩

/-- What is read of the member. If its other name is read in several words, all but the first belong
to the class. -/
def clause (base : String) (m : Member) : Clause where
  base
  current := String.join (wordsIn m.name) ++
    m.renamed.elim "" fun other => String.join (wordsIn other).tail
  localName := m.renamed.bind fun other => (wordsIn other).head?

end Member

/-- A use statement on one line. In a group, `base` is the name in front of the last backslash
before the brace. -/
structure ImportList where
  base : Option (List Char) := none
  members : List Member

namespace ImportList

/-- What stands in front of each name in a group. -/
def prefixed (s : ImportList) : List Char :=
  s.base.elim [] (· ++ ['\\'])

def listing (members : List Member) : List Char :=
  ", ".toList.intercalate (members.map Member.text)

def body (s : ImportList) : List Char :=
  match s.base with
  | none => listing s.members
  | some base => base ++ '\\' :: '{' :: (listing s.members ++ ['}'])

def text (s : ImportList) : List Char :=
  "use ".toList ++ s.body ++ [';']

structure Proper (s : ImportList) : Prop where
  base : ∀ base ∈ s.base, Legible (base ++ ['\\'])
  ne_nil : s.members ≠ []
  members : ∀ m ∈ s.members, m.Proper

instance (s : ImportList) : Decidable s.Proper :=
  decidable_of_iff (_ ∧ _ ∧ _)
    ⟨fun ⟨hbase, hne, hmembers⟩ => ⟨hbase, hne, hmembers⟩, fun h => ⟨h.base, h.ne_nil, h.members⟩⟩

/-- One statement for each member, in their order. -/
def separate (s : ImportList) : List ImportList :=
  s.members.map fun m => { members := [m.below s.prefixed] }

def clauses (s : ImportList) : List Clause :=
  s.members.map (Member.clause (String.join (wordsIn s.prefixed)))

end ImportList

variable {known : String → Bool} {file : Option String} {table after : AliasTable}
  {cs ds n : List Char} {c d : Char} {first middle last : State × AliasTable} {clause : Clause}

/-- The table after imports, one after another. -/
def recordEach (known : String → Bool) (table : AliasTable) (clauses : List Clause) : AliasTable :=
  clauses.foldl (record known) table

theorem recordEach_nil : recordEach known table [] = table :=
  rfl

theorem recordEach_cons (clause : Clause) (clauses : List Clause) :
    recordEach known table (clause :: clauses) =
      recordEach known (record known table clause) clauses :=
  rfl

theorem recordEach_append (clauses more : List Clause) :
    recordEach known table (clauses ++ more) =
      recordEach known (recordEach known table clauses) more :=
  List.foldl_append

namespace Reads

theorem name (hn : Pieces n) (hc : isNamePart c = false)
    (h : Reads known file (c :: cs)
      (.importing ((wordsIn n).foldl Clause.addWord clause), table) last) :
    Reads known file (n ++ c :: cs) (.importing clause, table) last := by
  intro line rest
  obtain ⟨tokens, heq, hrun⟩ := h line rest
  refine ⟨lexFrom line n ++ tokens, ?_, (Runs.name hn line clause).append hrun⟩
  rw [List.append_assoc, List.cons_append, hn.lexFrom_append hc, ← List.cons_append, heq,
    List.append_assoc]

/-- A member is read into its clause. -/
theorem member {m : Member} {base : String} (hm : m.Proper) (hd : isNamePart d = false)
    (h : Reads known file (d :: cs) (.importing (m.clause base), table) last) :
    Reads known file (m.text ++ d :: cs) (.importing { base }, table) last := by
  obtain ⟨n, renamed⟩ := m
  have hname := hm.name
  have hnamed : (wordsIn n).foldl Clause.addWord { base } =
      { base, current := String.join (wordsIn n) } := by
    rw [foldl_addWord hname.not_as rfl, String.empty_append]
  cases renamed with
  | none =>
    rw [Member.text, Option.elim_none, List.append_nil]
    refine name hname.spelled.pieces hd ?_
    rw [hnamed]
    simpa [Member.clause] using h
  | some other =>
    have hother := hm.renamed other rfl
    have hall : (wordsIn other).foldl Clause.addWord
        { base, current := String.join (wordsIn n), expectsLocal := true } =
          (⟨n, some other⟩ : Member).clause base :=
      foldl_addWord_of_expects hother.not_as hother.ne_nil rfl
    have hbehind : Reads known file (other ++ d :: cs)
        (.importing { base, current := String.join (wordsIn n), expectsLocal := true }, table)
          last :=
      name hother.spelled.pieces hd (by rwa [hall])
    have htext : (⟨n, some other⟩ : Member).text ++ d :: cs =
        n ++ ' ' :: ("as".toList ++ ' ' :: (other ++ d :: cs)) := by
      simp [Member.text]
    rw [htext]
    refine name hname.spelled.pieces (by decide) (space (word (by decide) (fun line => ?_) hbehind))
    rw [hnamed]
    rfl

/-- Behind `use` a name is read as in a list. -/
theorem opened (hn : Legible n) (hc : isNamePart c = false)
    (h : Reads known file (n ++ c :: cs) (.importing {}, table) (.outside true, after)) :
    Reads known file (n ++ c :: cs) (.opened, table) (.outside true, after) := by
  intro line rest
  obtain ⟨tokens, heq, hrun⟩ := h line rest
  refine ⟨tokens, heq, ?_⟩
  have hpieces := hn.spelled.pieces
  have hwords := hpieces.words_lexFrom line
  rw [List.append_assoc, List.cons_append, hpieces.lexFrom_append hc] at heq
  -- The first token is one of the name.
  obtain ⟨token, front, hfront⟩ : ∃ token front, lexFrom line n = token :: front := by
    refine List.exists_cons_of_ne_nil fun hnil => hn.ne_nil ?_
    rw [← hwords, hnil]
    rfl
  cases tokens with
  | nil => cases hrun
  | cons head tokens =>
    rw [hfront] at heq hwords
    obtain rfl : token = head := (List.cons.inj heq).1
    refine Runs.opened (l := token.lexeme) (fun w hw => ?_) rfl hrun
    have hmem : w ∈ wordsIn n := by
      rw [← hwords]
      exact List.mem_filterMap.mpr ⟨token, List.mem_cons_self, hw⟩
    have hunreserved := hn.unreserved w hmem
    simp only [Reserved, List.mem_cons, List.not_mem_nil, or_false, not_or] at hunreserved
    exact hunreserved.2

/-- The members of a list are recorded one by one. -/
theorem listing {members : List Member} {base : String} (hne : members ≠ [])
    (hmembers : ∀ m ∈ members, m.Proper) (hd : isNamePart d = false)
    (h : ∀ (m : Member) before, Reads known file (d :: cs) (.importing (m.clause base), before)
      (.outside true, record known before (m.clause base))) :
    Reads known file (ImportList.listing members ++ d :: cs) (.importing { base }, table)
      (.outside true, recordEach known table (members.map (Member.clause base))) := by
  induction members generalizing table with
  | nil => exact absurd rfl hne
  | cons m members ih =>
    obtain ⟨hm, hmembers⟩ := List.forall_mem_cons.mp hmembers
    cases members with
    | nil =>
      rw [ImportList.listing, List.map_cons, List.map_nil, List.map_cons, List.map_nil,
        List.intercalate_singleton, recordEach_cons, recordEach_nil]
      exact member hm hd (h m table)
    | cons next members =>
      have htext : ImportList.listing (m :: next :: members) ++ d :: cs =
          m.text ++ ',' :: ' ' :: (ImportList.listing (next :: members) ++ d :: cs) := by
        simp [ImportList.listing, List.intercalate_cons_cons]
      have hcomma (line : Nat) : step known file (.importing (m.clause base), table)
          ⟨.punct ',', line⟩ = .ok (.importing { base }, record known table (m.clause base)) := rfl
      have hrest : Reads known file _ (.importing { base }, record known table (m.clause base)) _ :=
        ih (List.cons_ne_nil _ _) hmembers
      rw [htext, List.map_cons, recordEach_cons]
      exact member hm (by decide) (sign (by simp) hcomma (space hrest))

end Reads

namespace ImportList

variable {s : ImportList} {members : List Member}

/-- A list begins with its first name. -/
theorem exists_listing_eq (hne : members ≠ []) (hd : isNamePart d = false) (cs : List Char) :
    ∃ m ∈ members, ∃ c behind, isNamePart c = false ∧
      listing members ++ d :: cs = m.name ++ c :: behind := by
  have hcomma : isNamePart ',' = false := by decide
  have hspace : isNamePart ' ' = false := by decide
  obtain ⟨⟨n, renamed⟩, members, rfl⟩ := List.exists_cons_of_ne_nil hne
  refine ⟨⟨n, renamed⟩, List.mem_cons_self, ?_⟩
  rcases members with _ | ⟨next, members⟩ <;> rcases renamed with _ | other
  · exact ⟨d, cs, hd, by simp [listing, Member.text]⟩
  · exact ⟨' ', _, hspace, by simp [listing, Member.text]; rfl⟩
  · exact ⟨',', _, hcomma, by simp [listing, Member.text, List.intercalate_cons_cons]; rfl⟩
  · exact ⟨' ', _, hspace, by simp [listing, Member.text, List.intercalate_cons_cons]; rfl⟩

theorem join_prefixed_ne_empty {base : List Char} (h : Legible (base ++ ['\\'])) :
    String.join (wordsIn (base ++ ['\\'])) ≠ "" := by
  intro hempty
  rw [h.spelled.pieces.join_wordsIn] at hempty
  have hmem : '\\' ∈ (base ++ ['\\']).filter isNamePart :=
    List.mem_filter.mpr ⟨by simp, by decide⟩
  have hnil := congrArg String.toList hempty
  rw [String.toList_ofList] at hnil
  rw [hnil] at hmem
  cases hmem

theorem step_end (clause : Clause) (line : Nat) :
    step known file (.importing clause, table) ⟨.punct ';', line⟩ =
      .ok (.outside true, record known table clause) :=
  rfl

theorem reads_list (hne : members ≠ []) (hmembers : ∀ m ∈ members, m.Proper) :
    Reads known file (listing members ++ ';' :: []) (.importing {}, table)
      (.outside true, recordEach known table (members.map (Member.clause ""))) := by
  refine .listing hne hmembers (by decide) fun m before => ?_
  exact .sign (by simp) (step_end _) .nil

theorem reads_group {base : String} (hbase : base ≠ "") (hne : members ≠ [])
    (hmembers : ∀ m ∈ members, m.Proper) :
    Reads known file (listing members ++ '}' :: [';']) (.importing { base }, table)
      (.outside true, recordEach known table (members.map (Member.clause base))) := by
  refine .listing hne hmembers (by decide) fun m before => ?_
  have hclose (line : Nat) : step known file (.importing (m.clause base), before)
      ⟨.punct '}', line⟩ = .ok (.importing {}, record known before (m.clause base)) :=
    if_neg hbase
  have hend : Reads known file [';'] (.importing {}, record known before (m.clause base))
      (.outside true, record known before (m.clause base)) := by
    refine .sign (by simp) (fun line => ?_) .nil
    rw [step_end, Runs.record_nothing]
  exact .sign (by simp) hclose hend

/-- The members of a use statement are recorded one by one. -/
theorem Proper.reads (hs : s.Proper) :
    Reads known file s.text (.outside true, table)
      (.outside true, recordEach known table s.clauses) := by
  have huse (line : Nat) : step known file (.outside true, table)
      ⟨.word (String.ofList "use".toList), line⟩ = .ok (.opened, table) := by
    have hlower : lower "use" = "use" := by decide
    simp [step, stepOutside, hlower]
  obtain ⟨base, members⟩ := s
  obtain ⟨hbase, hne, hmembers⟩ := hs
  cases base with
  | none =>
    have htext : text { members } = "use".toList ++ ' ' :: (listing members ++ ';' :: []) := by
      simp [text, body]
    have hclauses : clauses { members } = members.map (Member.clause "") := by
      rw [clauses, prefixed, Option.elim_none, wordsIn_nil]
      rfl
    have hlist : Reads known file _ (.importing {}, table) _ := reads_list hne hmembers
    obtain ⟨m, hm, c, behind, hc, hbegin⟩ := exists_listing_eq hne (d := ';') (by decide) []
    rw [htext, hclauses]
    refine .word (by decide) huse ?_
    rw [hbegin] at hlist ⊢
    exact hlist.opened (hmembers m hm).name hc
  | some base =>
    have htext : text { base, members } = "use".toList ++ ' ' ::
        ((base ++ ['\\']) ++ '{' :: (listing members ++ '}' :: [';'])) := by
      simp [text, body]
    have hprefix := hbase base rfl
    have hjoined := join_prefixed_ne_empty hprefix
    have hopen (line : Nat) : step known file
        (.importing ((wordsIn (base ++ ['\\'])).foldl Clause.addWord {}), table)
          ⟨.punct '{', line⟩ =
        .ok (.importing { base := String.join (wordsIn (base ++ ['\\'])) }, table) := by
      rw [foldl_addWord hprefix.not_as rfl]
      simp [step, stepImport, Clause.written]
    rw [htext]
    exact .word (by decide) huse (.opened hprefix (by decide) (.name hprefix.spelled.pieces
      (by decide) (.sign (by simp) hopen (reads_group hjoined hne hmembers))))

theorem Proper.separate (hs : s.Proper) : ∀ t ∈ s.separate, t.Proper := by
  intro t ht
  obtain ⟨m, hm, rfl⟩ := List.mem_map.mp ht
  obtain ⟨hname, hrenamed⟩ := hs.members m hm
  refine ⟨nofun, List.cons_ne_nil _ _, List.forall_mem_singleton.mpr ⟨?_, hrenamed⟩⟩
  change Legible (s.prefixed ++ m.name)
  unfold prefixed
  cases hbase : s.base with
  | none => exact hname
  | some base => exact (hs.base base hbase).append (by simp) hname

theorem Proper.spelled_prefixed (hs : s.Proper) : Spelled s.prefixed := by
  unfold prefixed
  cases hbase : s.base with
  | none => exact List.forall_mem_nil _
  | some base => exact (hs.base base hbase).spelled

/-- Statements on one line are read one after another. -/
theorem reads_statements {statements : List ImportList} (h : ∀ t ∈ statements, t.Proper) :
    Reads known file ([' '].intercalate (statements.map text)) (.outside true, table)
      (.outside true, recordEach known table (statements.flatMap clauses)) := by
  induction statements generalizing table with
  | nil => exact .nil
  | cons t statements ih =>
    obtain ⟨ht, hrest⟩ := List.forall_mem_cons.mp h
    have hfirst : Reads known file t.text (.outside true, table) _ := ht.reads
    rw [List.flatMap_cons, recordEach_append]
    cases statements with
    | nil =>
      rw [List.map_cons, List.map_nil, List.intercalate_singleton]
      exact hfirst
    | cons next statements =>
      rw [List.map_cons, List.map_cons, List.intercalate_cons_cons, List.append_assoc,
        List.singleton_append, ← List.map_cons]
      exact hfirst.append (.space (ih hrest))

theorem record_below {base : List Char} {m : Member} (hbase : Spelled base)
    (hm : m.Proper) : record known table ((m.below base).clause "") =
      record known table (m.clause (String.join (wordsIn base))) := by
  refine Runs.record_congr ?_ rfl
  simp only [Clause.written, Member.clause, Member.below, String.empty_append]
  rw [join_wordsIn_append hbase hm.name.spelled, String.append_assoc]

/-- One by one, the same imports are recorded. -/
theorem Proper.recordEach_separate (hs : s.Proper) :
    recordEach known table (s.separate.flatMap clauses) = recordEach known table s.clauses := by
  have hclauses : s.separate.flatMap clauses =
      s.members.map fun m => (m.below s.prefixed).clause "" := by
    have hone (m : Member) : clauses { members := [m] } = [m.clause ""] := by
      rw [clauses, prefixed, Option.elim_none, wordsIn_nil]
      rfl
    rw [ImportList.separate, List.flatMap_map]
    simp only [hone]
    exact List.map_eq_flatMap.symm
  have hmembers := hs.members
  have hprefixed := hs.spelled_prefixed
  rw [hclauses, clauses]
  generalize s.members = members at hmembers
  induction members generalizing table with
  | nil => rfl
  | cons m members ih =>
    obtain ⟨hm, hmembers⟩ := List.forall_mem_cons.mp hmembers
    rw [List.map_cons, List.map_cons, recordEach_cons, recordEach_cons,
      record_below hprefixed hm, ih hmembers]

variable {front : List Char}

theorem noLineEnd_intercalate {sep : List Char} (hsep : ∀ c ∈ sep, isLineEnd c = false)
    {texts : List (List Char)} (h : ∀ text ∈ texts, ∀ c ∈ text, isLineEnd c = false) :
    ∀ c ∈ sep.intercalate texts, isLineEnd c = false :=
  intercalate_induction (P := fun cs => ∀ c ∈ cs, isLineEnd c = false) (List.forall_mem_nil _)
    (fun hc hd => List.forall_mem_append.mpr ⟨hc, hd⟩) hsep h

theorem Proper.noLineEnd_listing {members : List Member} (h : ∀ m ∈ members, m.Proper) :
    ∀ c ∈ listing members, isLineEnd c = false := by
  have hsep : ∀ c ∈ ", ".toList, isLineEnd c = false := fun _ => noLineEnd_of_mem (by decide)
  refine noLineEnd_intercalate hsep fun text htext => ?_
  obtain ⟨⟨n, renamed⟩, hm, rfl⟩ := List.mem_map.mp htext
  obtain ⟨hname, hrenamed⟩ := h _ hm
  have hline : ∀ c ∈ n, isLineEnd c = false := fun c hc => (hname.spelled c hc).2
  cases renamed with
  | none => simpa [Member.text] using hline
  | some other =>
    have hother : ∀ c ∈ other, isLineEnd c = false :=
      fun c hc => ((hrenamed other rfl).spelled c hc).2
    have has : ∀ c ∈ " as ".toList, isLineEnd c = false := fun _ => noLineEnd_of_mem (by decide)
    exact List.forall_mem_append.mpr ⟨hline, List.forall_mem_append.mpr ⟨has, hother⟩⟩

theorem Proper.beginsUse (hs : s.Proper) : BeginsUse s.text := by
  have hlisting := Proper.noLineEnd_listing hs.members
  have hbody : ∀ c ∈ s.body, isLineEnd c = false := by
    unfold body
    cases hbase : s.base with
    | none => exact hlisting
    | some base =>
      have hprefix : ∀ c ∈ base ++ ['\\'], isLineEnd c = false :=
        fun c hc => ((hs.base base hbase).spelled c hc).2
      have hbase' := (List.forall_mem_append.mp hprefix).1
      refine List.forall_mem_append.mpr ⟨hbase', ?_⟩
      refine List.forall_mem_cons.mpr ⟨by decide, List.forall_mem_cons.mpr ⟨by decide, ?_⟩⟩
      exact List.forall_mem_append.mpr ⟨hlisting, List.forall_mem_singleton.mpr rfl⟩
  refine ⟨⟨s.body ++ [';'], by rw [text, List.append_assoc]⟩, ?_⟩
  have huse : ∀ c ∈ "use ".toList, isLineEnd c = false := fun _ => noLineEnd_of_mem (by decide)
  exact List.forall_mem_append.mpr
    ⟨List.forall_mem_append.mpr ⟨huse, hbody⟩, List.forall_mem_singleton.mpr rfl⟩

theorem beginsUse_statements {statements : List ImportList} (hne : statements ≠ [])
    (h : ∀ t ∈ statements, BeginsUse t.text) :
    BeginsUse ([' '].intercalate (statements.map text)) := by
  have hsep : ∀ c ∈ [' '], isLineEnd c = false := List.forall_mem_singleton.mpr rfl
  refine ⟨?_, noLineEnd_intercalate hsep (List.forall_mem_map.mpr fun t ht => (h t ht).noLineEnd)⟩
  obtain ⟨t, statements, rfl⟩ := List.exists_cons_of_ne_nil hne
  obtain ⟨cs, hcs⟩ := (h t List.mem_cons_self).exists_eq
  cases statements with
  | nil => exact ⟨cs, by simpa using hcs⟩
  | cons next statements =>
    refine ⟨cs ++ ([' '] ++ [' '].intercalate ((next :: statements).map text)), ?_⟩
    rw [List.map_cons, List.map_cons, List.intercalate_cons_cons, hcs]
    simp

/-- A use statement for several classes, in a list or in a group, may stand for the statements by
which the same classes are imported one by one, in the same order. -/
theorem ofSource_separate (h : Ready known file front) (hs : s.Proper) (behind : List Char) :
    AliasTable.ofSource known (String.ofList (front ++ (s.text ++ behind))) file =
      AliasTable.ofSource known
        (String.ofList (front ++ ([' '].intercalate (s.separate.map text) ++ behind))) file := by
  have hseparate := hs.separate
  have hne : s.separate ≠ [] := fun hnil => hs.ne_nil (List.map_eq_nil_iff.mp hnil)
  refine ofSource_insert_congr h hs.beginsUse
    (beginsUse_statements hne fun t ht => (hseparate t ht).beginsUse) (fun table => ?_) behind
  refine ⟨recordEach known table s.clauses, hs.reads, ?_⟩
  rw [← hs.recordEach_separate]
  exact reads_statements hseparate

theorem ofSource_separate_group :
    let front := "<?php\nnamespace App;\n".toList
    let s : ImportList :=
      { base := "Lib".toList
        members := [{ name := "Cafe\u0301\\Bar".toList, renamed := "Baz".toList },
          { name := "Note".toList }] }
    Ready (fun _ => false) none front ∧ s.Proper ∧
      AliasTable.ofSource (fun _ => false)
          (String.ofList (front ++ (s.text ++ "\nclass Host".toList))) none =
        AliasTable.ofSource (fun _ => false) (String.ofList (front ++
          ([' '].intercalate (s.separate.map text) ++ "\nclass Host".toList))) none := by
  intro front s
  have hnewline {line : Nat} (rest : List Char) :
      lexFrom line ('\n' :: rest) = lexFrom (line + 1) rest := by
    rw [lexFrom, if_pos rfl]
  have hblank : isBlank '<' = false := by decide
  have hopening (rest : List Char) :
      cutSkipped '<' ("?php".toList ++ rest) = some ("?php".toList, rest) := rfl
  have hkeyword : Pieces "namespace".toList := Spelled.pieces (by decide)
  have hname : Pieces "App".toList := Spelled.pieces (by decide)
  have hfront (rest : List Char) : lexFrom 1 (front ++ rest) =
      (lexFrom 2 "namespace".toList ++ (lexFrom 2 "App".toList ++ [⟨.punct ';', 2⟩])) ++
        lexFrom 3 rest := by
    calc lexFrom 1 (front ++ rest)
      _ = lexFrom 1
          ('\n' :: ("namespace".toList ++ ' ' :: ("App".toList ++ ';' :: '\n' :: rest))) :=
        lexFrom_skip hblank (hopening _)
      _ = _ := by
        rw [hnewline, hkeyword.lexFrom_append (by decide), lexFrom_blank (by decide) (by decide),
          hname.lexFrom_append (by decide), lexFrom_sign (by decide) rfl (by decide), hnewline]
        simp
  have hready : Ready (fun _ => false) none front := by
    refine Ready.of_runs hfront (?_ : Runs _ _ _ _ (.outside true, { scope := "App" }))
    rw [Runs]
    decide +kernel
  have hs : s.Proper := by decide +kernel
  exact ⟨hready, hs, ofSource_separate hready hs _⟩

/-- A combining accent cuts the name into two words, and the second one is taken for the keyword
that another name follows. In a group it is the other name of the next member. -/
theorem ofSource_group_accented :
    let source (statements : String) := "<?php\n" ++ statements ++ "\nclass Host \x7b\x7d\n"
    "Andre\u0301as".toList.all Source.isNameChar = true ∧
      AliasTable.ofSource (fun _ => false) (source "use Lib\\\x7bAndre\u0301as, Bob\x7d;") none =
        .ok { imports := [("Lib\\Andre", "Andre"), ("Lib\\", "Bob")] } ∧
      AliasTable.ofSource (fun _ => false) (source "use Lib\\Andre\u0301as; use Lib\\Bob;") none =
        .ok { imports := [("Lib\\Andre", "Andre"), ("Lib\\Bob", "Bob")] } := by
  intro source
  have hsource {statements : String} {cs : List Char} (h : statements = String.ofList cs) :
      source statements = String.ofList
        ("<?php\n".toList ++ cs ++ "\nclass Host \x7b\x7d\n".toList) :=
    append_of_chars (append_of_chars rfl h) rfl
  exact ⟨by decide, (ofSource_of_chars none (hsource rfl)).trans (by decide +kernel),
    (ofSource_of_chars none (hsource rfl)).trans (by decide +kernel)⟩

end ImportList

end DocAnnotations.Import
