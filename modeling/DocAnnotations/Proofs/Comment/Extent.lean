import DocAnnotations.Proofs.Comment.Parts

/-! How far argument lists reach: up to the parenthesis outside quotes that closes the first one. -/
namespace DocAnnotations.Comment

/-- The characters of a text that stand outside quotes. -/
def unquoted : Option Char → List Char → List Char
  | _, [] => []
  | some q, c :: cs => unquoted (if c = q then none else some q) cs
  | none, c :: cs => if isQuote c then unquoted (some c) cs else c :: unquoted none cs

/-- Outside quotes, the text closes the parentheses that are open in front of it and those that it
opens, and no part in front of its end does. -/
structure Closes (level : Nat) (quote : Option Char) (cs : List Char) : Prop where
  closed : (unquoted quote cs).count ')' = level + (unquoted quote cs).count '('
  before : ∀ front, front <+: cs → front ≠ cs →
    (unquoted quote front).count ')' < level + (unquoted quote front).count '('

/-- The text begins with a parenthesis and ends with the one that closes it. -/
def IsList : List Char → Prop
  | '(' :: cs => Closes 1 none cs
  | _ => False

/-- The argument list in front of a text: up to the parenthesis that closes it, or all of the text if
there is none. -/
def Arguments (cs list : List Char) : Prop :=
  list <+: cs ∧ (IsList list ∨ list = cs ∧ ∀ front, front <+: cs → ¬ IsList front)

variable {level : Nat} {quote : Option Char} {c : Char} {cs ds rest : List Char}

section Closes

theorem levelAfter_none (level : Nat) (c : Char) : levelAfter level none c =
    if c = '(' then level + 1 else if c = ')' then level - 1 else level := rfl

theorem count_unquoted_cons (quote : Option Char) (c : Char) (cs : List Char) {d : Char}
    (hd : isQuote d = false) : (unquoted quote (c :: cs)).count d =
      (if quote = none ∧ c = d then 1 else 0) + (unquoted (quoteAfter quote c) cs).count d := by
  cases quote with
  | some q => simp [unquoted, quoteAfter]
  | none =>
    rw [unquoted, quoteAfter]
    split
    next hq =>
      have hne : c ≠ d := by
        rintro rfl
        simp [hd] at hq
      simp [hne]
    next => by_cases h : c = d <;> simp [h, Nat.add_comm]

/-- What is missing to close all parentheses is the same in front of a character and behind it. -/
theorem balance_cons (hlevel : 0 < level) (quote : Option Char) (c : Char) (cs : List Char) :
    (unquoted quote (c :: cs)).count ')' +
        (levelAfter level quote c + (unquoted (quoteAfter quote c) cs).count '(') =
      (unquoted (quoteAfter quote c) cs).count ')' +
        (level + (unquoted quote (c :: cs)).count '(') := by
  rw [count_unquoted_cons quote c cs (by decide), count_unquoted_cons quote c cs (by decide)]
  cases quote with
  | some q => simp [levelAfter]
  | none =>
    rw [levelAfter_none]
    by_cases ho : c = '('
    · simp [ho]
      omega
    · by_cases hc : c = ')'
      · simp [hc]
        omega
      · simp [ho, hc]

theorem levelAfter_pos (hlevel : 0 < level) (h : closesList level quote c = false) :
    0 < levelAfter level quote c := by
  cases quote with
  | some q => exact hlevel
  | none =>
    have hone : c = ')' → level ≠ 1 := by simpa [closesList] using h
    rw [levelAfter_none]
    split_ifs with ho hc
    · omega
    · have := hone hc
      omega
    · exact hlevel

theorem closes_cons_iff (hlevel : 0 < level) (h : closesList level quote c = false) :
    Closes level quote (c :: cs) ↔ Closes (levelAfter level quote c) (quoteAfter quote c) cs := by
  have hpos := levelAfter_pos hlevel h
  constructor
  · intro hcs
    refine ⟨?_, fun front hfront hne => ?_⟩
    · have := balance_cons hlevel quote c cs
      have := hcs.closed
      omega
    · have := balance_cons hlevel quote c front
      have := hcs.before (c :: front) (by simpa using hfront) (by simpa using hne)
      omega
  · intro hcs
    refine ⟨?_, fun front hfront hne => ?_⟩
    · have := balance_cons hlevel quote c cs
      have := hcs.closed
      omega
    · cases front with
      | nil => simpa [unquoted] using hlevel
      | cons d front =>
        obtain ⟨rfl, hrest⟩ := List.cons_prefix_cons.mp hfront
        have := balance_cons hlevel quote d front
        have := hcs.before front hrest (by simpa using hne)
        omega

theorem closes_of_closesList (h : closesList level quote c = true) :
    Closes level quote (c :: cs) ↔ cs = [] := by
  obtain ⟨⟨rfl, rfl⟩, rfl⟩ : (quote = none ∧ c = ')') ∧ level = 1 := by simpa [closesList] using h
  constructor
  · intro hcs
    by_contra hne
    have := hcs.before [')'] (by simp) (by simpa using Ne.symm hne)
    simp [unquoted, isQuote] at this
  · rintro rfl
    refine ⟨by simp [unquoted, isQuote], fun front hfront hne => ?_⟩
    obtain rfl : front = [] := by
      rcases List.prefix_cons_iff.mp hfront with rfl | ⟨more, rfl, hmore⟩
      · rfl
      · exact absurd (by rw [List.prefix_nil.mp hmore]) hne
    simp [unquoted]

/-- The scan ends where the parentheses are closed. -/
theorem enclosed_iff_closes (hlevel : 0 < level) :
    Enclosed level quote cs ↔ Closes level quote cs := by
  induction cs generalizing level quote with
  | nil =>
    refine ⟨nofun, fun h => ?_⟩
    have := h.closed
    simp [unquoted] at this
    omega
  | cons c cs ih =>
    cases hc : closesList level quote c with
    | true =>
      rw [closes_of_closesList hc]
      constructor
      · intro h
        cases h with
        | last => rfl
        | cons hnot => simp [hc] at hnot
      · rintro rfl
        exact .last hc
    | false =>
      rw [closes_cons_iff hlevel hc, ← ih (levelAfter_pos hlevel hc)]
      exact ⟨.of_cons hc, .cons hc⟩

end Closes

section Cut

theorem cutList_of_enclosed (h : Enclosed level quote cs) (rest : List Char) :
    cutList level quote (cs ++ rest) = (cs, rest) := by
  induction h with
  | last hc => rw [List.cons_append, cutList, if_pos hc, List.nil_append]
  | cons hc _ ih => rw [List.cons_append, cutList, if_neg (by simp [hc]), ih]

/-- What is cut off is closed, or it is all of the text. -/
theorem enclosed_or_cutList_eq (level : Nat) (quote : Option Char) (cs : List Char) :
    Enclosed level quote (cutList level quote cs).1 ∨ cutList level quote cs = (cs, []) := by
  induction cs generalizing level quote with
  | nil => exact .inr rfl
  | cons c cs ih =>
    rw [cutList]
    split
    next hc => exact .inl (.last hc)
    next hc =>
      rcases ih (levelAfter level quote c) (quoteAfter quote c) with h | h
      · exact .inl (.cons (by simpa using hc) h)
      · exact .inr (by rw [h])

theorem isList_cons_iff : IsList ('(' :: cs) ↔ Enclosed 1 none cs :=
  (enclosed_iff_closes Nat.one_pos).symm

theorem exists_of_isList (h : IsList cs) : ∃ ds, cs = '(' :: ds := by
  unfold IsList at h
  split at h
  next ds => exact ⟨ds, rfl⟩
  next => exact h.elim

/-- An argument list that is closed is cut off as a whole. -/
theorem cutList_of_isList (h : IsList cs) (rest : List Char) :
    cutList 0 none (cs ++ rest) = (cs, rest) := by
  obtain ⟨ds, rfl⟩ := exists_of_isList h
  have hcut := cutList_of_enclosed (isList_cons_iff.mp h) rest
  rw [List.cons_append, cutList, if_neg (by decide)]
  change ('(' :: (cutList 1 none (ds ++ rest)).1, (cutList 1 none (ds ++ rest)).2) = _
  rw [hcut]

/-- What is cut off is the argument list in front, and nothing else is. -/
theorem arguments_iff_cutList (hopen : cs.head? = some '(') :
    Arguments cs ds ↔ ds = (cutList 0 none cs).1 := by
  obtain ⟨inner, rfl⟩ := List.head?_eq_some_iff.mp hopen
  constructor
  · rintro ⟨⟨rest, hrest⟩, hlist | ⟨rfl, hnone⟩⟩
    · rw [← hrest, cutList_of_isList hlist]
    · rcases enclosed_or_cutList_eq 1 none inner with h | h
      · exact absurd (isList_cons_iff.mpr h) (hnone _ ⟨_, cutList_append 0 none ('(' :: inner)⟩)
      · change _ = '(' :: (cutList 1 none inner).1
        rw [h]
  · rintro rfl
    refine ⟨⟨_, cutList_append 0 none _⟩, ?_⟩
    by_cases h : Enclosed 1 none (cutList 1 none inner).1
    · exact .inl (isList_cons_iff.mpr h)
    · have hall := (enclosed_or_cutList_eq 1 none inner).resolve_left h
      refine .inr ⟨?_, fun front ⟨rest, hrest⟩ hlist => h ?_⟩
      · change '(' :: (cutList 1 none inner).1 = _
        rw [hall]
      · have hcut := cutList_of_isList hlist rest
        rw [hrest] at hcut
        have hfront : '(' :: (cutList 1 none inner).1 = front := congrArg Prod.fst hcut
        exact isList_cons_iff.mp (hfront ▸ hlist)

section Inner

variable {outer : Nat}

theorem closesList_add (houter : 0 < outer) (hlevel : 0 < level) (quote : Option Char) (c : Char) :
    closesList (outer + level) quote c = false := by
  have hne : outer + level ≠ 1 := by omega
  simp [closesList, hne]

theorem levelAfter_add (hlevel : 0 < level) (outer : Nat) (quote : Option Char) (c : Char) :
    levelAfter (outer + level) quote c = outer + levelAfter level quote c := by
  cases quote with
  | some q => rfl
  | none =>
    rw [levelAfter_none, levelAfter_none]
    split_ifs <;> omega

/-- Within a list, a list of its own is passed over as a whole. -/
theorem cutList_add (houter : 0 < outer) (hlevel : 0 < level) (quote : Option Char)
    (cs : List Char) : cutList (outer + level) quote cs =
      ((cutList level quote cs).1 ++ (cutList outer none (cutList level quote cs).2).1,
        (cutList outer none (cutList level quote cs).2).2) := by
  induction cs generalizing level quote with
  | nil => rfl
  | cons c cs ih =>
    have houter' := closesList_add houter hlevel quote c
    cases hc : closesList level quote c with
    | true =>
      obtain ⟨⟨rfl, rfl⟩, rfl⟩ : (quote = none ∧ c = ')') ∧ level = 1 := by
        simpa [closesList] using hc
      have hinner : cutList 1 none (')' :: cs) = ([')'], cs) := rfl
      rw [hinner, cutList, if_neg (by simp [houter'])]
      rfl
    | false =>
      rw [cutList, if_neg (by simp [houter']), levelAfter_add hlevel,
        ih (levelAfter_pos hlevel hc)]
      rw [cutList, if_neg (by simp [hc])]
      rfl

/-- A list within another is closed where the other is. -/
theorem Enclosed.inner (houter : 0 < outer) (hlevel : 0 < level)
    (h : Enclosed (outer + level) quote cs) :
    Enclosed level quote (cutList level quote cs).1 ∧
      Enclosed outer none (cutList level quote cs).2 := by
  induction cs generalizing level quote with
  | nil => nomatch h
  | cons c cs ih =>
    have houter' := closesList_add houter hlevel quote c
    have h := h.of_cons houter'
    rw [levelAfter_add hlevel] at h
    cases hc : closesList level quote c with
    | true =>
      obtain ⟨⟨rfl, rfl⟩, rfl⟩ : (quote = none ∧ c = ')') ∧ level = 1 := by
        simpa [closesList] using hc
      exact ⟨.last hc, h⟩
    | false =>
      obtain ⟨hinner, hbehind⟩ := ih (levelAfter_pos hlevel hc) h
      rw [cutList, if_neg (by simp [hc])]
      exact ⟨.cons hc hinner, hbehind⟩

end Inner

end Cut

section Children

variable {name list : List Char} {o : Occurrence} {boundary : Bool} {count : Nat}

theorem isPlain_of_isName (h : isNameStart c = true ∨ isNameChar c = true) : isPlain c = true := by
  by_contra hplain
  have hmem : c ∈ ['(', ')', '@', '"', '\''] := by
    simpa [isPlain, isQuote, or_iff_not_imp_left] using hplain
  have hall : ['(', ')', '@', '"', '\''].all (fun d => !isNameStart d && !isNameChar d) = true := by
    decide
  have hnone := List.all_eq_true.mp hall c hmem
  rcases h with h | h <;> simp [h] at hnone

theorem passive_of_cutName (h : cutName cs = some (name, rest)) : Passive none name none := by
  refine passive_of_all (List.all_eq_true.mpr fun d hd => isPlain_of_isName ?_)
  cases cs with
  | nil => cases h
  | cons c cs =>
    rw [cutName] at h
    split at h
    next hc =>
      cases h
      rcases List.mem_cons.mp hd with rfl | hd
      · exact .inl hc
      · exact .inr (List.mem_takeWhile_imp hd)
    next => cases h

/-- Within a list, a child is passed over as a whole. -/
theorem cutList_child (hlevel : 0 < level) (h : cutName cs = some (name, '(' :: list)) :
    cutList level none ('@' :: cs) =
      ('@' :: (name ++ ((cutList 0 none ('(' :: list)).1 ++
          (cutList level none (cutList 0 none ('(' :: list)).2).1)),
        (cutList level none (cutList 0 none ('(' :: list)).2).2) := by
  have hlist : cutList level none ('(' :: list) = ('(' :: (cutList (level + 1) none list).1,
      (cutList (level + 1) none list).2) := rfl
  have hname := cutList_passive (passive_of_cutName h) level ('(' :: list)
  have hcs : cutList level none ('@' :: cs) =
      ('@' :: (cutList level none cs).1, (cutList level none cs).2) := rfl
  rw [hcs, ← cutName_append h, hname, hlist, cutList_add hlevel Nat.one_pos]
  rfl

theorem BeginsChild.cutList_eq (h : BeginsChild boundary quote c cs o rest) (hlevel : 0 < level) :
    cutList level quote (c :: cs) =
      ('@' :: (o.name ++ ((cutList 0 none o.behind).1 ++ (cutList level none rest).1)),
        (cutList level none rest).2) := by
  obtain ⟨name, behind⟩ := o
  obtain ⟨rfl, -, rfl, hname, hlist, rfl⟩ := h
  obtain ⟨list, rfl⟩ := List.head?_eq_some_iff.mp hlist
  exact cutList_child hlevel hname

/-- Where an argument list ends does not depend on the children in it. -/
theorem rest_scanChildren (hlevel : 0 < level) (quote : Option Char) (boundary : Bool)
    (count : Nat) (cs : List Char) :
    (scanChildren level quote boundary count cs).rest = (cutList level quote cs).2 := by
  fun_induction scanChildren level quote boundary count cs with
  | case1 => rfl
  | case2 level quote boundary count c cs o rest hc ih =>
    have hchild := beginsChild_of_occurrenceAt hc
    rw [hchild.cutList_eq hlevel, ← hchild.unquoted]
    exact ih hlevel
  | case3 level quote boundary count c cs hc hclose => rw [cutList, if_pos hclose]
  | case4 level quote boundary count c cs hc hclose ih =>
    rw [cutList, if_neg hclose]
    exact ih (levelAfter_pos hlevel (by simpa using hclose))

theorem rest_read_withChildren (hopen : cs.head? = some '(') :
    (ArgumentReader.withChildren.read cs).rest = (cutList 0 none cs).2 := by
  obtain ⟨inner, rfl⟩ := List.head?_eq_some_iff.mp hopen
  rw [withChildren_read, scanWithChildren_open]
  exact rest_scanChildren Nat.one_pos none true 0 inner

end Children

end DocAnnotations.Comment
