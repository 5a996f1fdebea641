import DocAnnotations.Proofs.Comment.Plain

/-! Where argument lists end at any depth, and which slices of them become children. -/
namespace DocAnnotations.Comment

open Text

/-- How argument lists are read so many children deep. Lists of children have no children. -/
def ArgumentReader.atDepth : Nat → ArgumentReader
  | 0 => .withChildren
  | _ + 1 => .whole

/-- The argument list that begins at `p` ends in front of `e`. -/
structure ListEnds (t : List Char) (p e : Nat) : Prop where
  opens : t[p]? = some '('
  le_length : e ≤ t.length
  arguments : Arguments (t.drop p) (slice t p e)

/-- In the argument list that begins at `s`, a child begins at `k`: an at sign stands there at a
word boundary outside quotes, and an argument list directly behind the name that follows it. -/
structure ChildBegins (depth : Nat) (t : List Char) (s k : Nat) : Prop where
  depth_eq : depth = 0
  sigil : IsSigil t k
  unquoted : (slice t s k).foldl quoteAfter none = none
  named : ∃ name behind, NameAt t k name behind ∧ behind.head? = some '('

/-- The text from `a` to `b` is an at sign, a name and the argument list behind it, and reading it
one level deeper gives the child and nothing else. -/
structure ChildSlice (depth : Nat) (t : List Char) (a b : Nat) (child : Fragment) : Prop where
  name : ∃ behind, NameAt t a child.name.toList behind
  ends : ListEnds t (a + 1 + child.name.toList.length) b
  fragments_eq : fragmentsOf (.atDepth (depth + 1)) (slice t a b) = [child]
  raw_eq : child.raw.toList = trim (slice t (a + 1 + child.name.toList.length) b)

/-- The text from `p` to `e`, which is part of the argument list that begins at `s`, as it is read
behind `count` children: each child that begins in it, but not in the slice of another, leaves its
placeholder. -/
inductive CutsOut (depth : Nat) (t : List Char) (s : Nat) :
    Nat → Nat → Nat → List Char → List Fragment → Prop where
  | last {count p e : Nat} : p ≤ e → (∀ k, p ≤ k → k < e → ¬ ChildBegins depth t s k) →
      CutsOut depth t s count p e (slice t p e) []
  | child {count p a b e : Nat} {text : List Char} {first : Fragment} {children : List Fragment} :
      p ≤ a → (∀ k, p ≤ k → k < a → ¬ ChildBegins depth t s k) → ChildBegins depth t s a →
      ChildSlice depth t a b first → CutsOut depth t s (count + 1) b e text children →
      CutsOut depth t s count p e
        (slice t p a ++ ((Fragment.placeholder count).toList ++ text)) (first :: children)

/-- The argument list that begins at `p` ends in front of `e`. There it is cut off, and there
reading it at any depth ends, whether or not children are taken out of it on the way. -/
structure ReadersAgree (t : List Char) (p e : Nat) : Prop where
  ends : ListEnds t p e
  cutList_eq : cutList 0 none (t.drop p) = (slice t p e, t.drop e)
  rest_eq : ∀ depth, ((ArgumentReader.atDepth depth).read (t.drop p)).rest = t.drop e
  cutsOut : ∀ depth, CutsOut depth t p 0 p e
    ((ArgumentReader.atDepth depth).read (t.drop p)).text
    ((ArgumentReader.atDepth depth).read (t.drop p)).children

variable {t cs name behind text : List Char} {children : List Fragment} {c : Char}
  {depth level count s p k a b e : Nat} {quote : Option Char} {boundary : Bool} {o : Occurrence}

section Slice

theorem slice_self (t : List Char) (p : Nat) : slice t p p = [] := by
  simp [slice]

theorem slice_succ (hc : t[p]? = some c) : slice t p (p + 1) = [c] := by
  obtain ⟨hlt, rfl⟩ := List.getElem?_eq_some_iff.mp hc
  rw [slice, List.drop_eq_getElem_cons hlt, Nat.add_sub_cancel_left]
  rfl

theorem slice_cons (hc : t[p]? = some c) (hlt : p < e) : slice t p e = c :: slice t (p + 1) e := by
  rw [slice_append t (Nat.le_succ p) hlt, slice_succ hc]
  rfl

theorem slice_concat (hc : t[p]? = some c) (hle : s ≤ p) :
    slice t s (p + 1) = slice t s p ++ [c] := by
  rw [slice_append t hle (Nat.le_succ p), slice_succ hc]

end Slice

section Quote

theorem foldl_quoteAfter_of_enclosed (h : Enclosed level quote cs) :
    cs.foldl quoteAfter quote = none := by
  induction h with
  | @last level quote c hclose =>
    obtain ⟨⟨rfl, rfl⟩, -⟩ : (quote = none ∧ c = ')') ∧ level = 1 := by
      simpa [closesList] using hclose
    rfl
  | cons _ _ ih => exact ih

theorem foldl_quoteAfter_of_passive {after : Option Char} (h : Passive quote cs after) :
    cs.foldl quoteAfter quote = after := by
  induction h with
  | nil => rfl
  | cons _ _ ih => exact ih

end Quote

namespace ListEnds

theorem lt (h : ListEnds t p e) : p < e := by
  by_contra hle
  have hnil : slice t p e = [] := by
    rw [slice, Nat.sub_eq_zero_of_le (Nat.le_of_not_lt hle), List.take_zero]
  obtain ⟨hopen, -, -, hlist⟩ := h
  rw [hnil] at hlist
  rcases hlist with hlist | ⟨hall, -⟩
  · exact hlist
  · have hlt := (List.getElem?_eq_some_iff.mp hopen).1
    have hend := List.drop_eq_nil_iff.mp hall.symm
    omega

theorem length_slice (h : ListEnds t p e) : (slice t p e).length = e - p := by
  have hle := h.le_length
  rw [slice, List.length_take, List.length_drop]
  omega

/-- Outside quotes, the parenthesis that closes a list stands. -/
theorem unquoted (h : ListEnds t p e) (hlt : e < t.length) :
    (slice t p e).foldl quoteAfter none = none := by
  obtain hlist | ⟨hall, -⟩ := h.arguments.2
  · obtain ⟨inner, hinner⟩ := exists_of_isList hlist
    rw [hinner] at hlist ⊢
    have hinside := foldl_quoteAfter_of_enclosed (isList_cons_iff.mp hlist)
    exact hinside
  · have hlength := congrArg List.length hall
    have hpe := h.lt
    rw [h.length_slice, List.length_drop] at hlength
    omega

theorem not_atBoundary (h : ListEnds t p e) (hlt : e < t.length) : ¬ AtBoundary t e := by
  have hpe := h.lt
  have hend : p + (slice t p e).length = e := by
    rw [h.length_slice]
    omega
  have hnot := not_atBoundary_of_arguments rfl h.arguments
  rw [hend] at hnot
  exact hnot hlt

end ListEnds

/-- What is cut off is the text up to where the argument list ends. -/
theorem exists_listEnds (hopen : t[p]? = some '(') :
    ∃ e, ListEnds t p e ∧ cutList 0 none (t.drop p) = (slice t p e, t.drop e) := by
  have happend := cutList_append 0 none (t.drop p)
  have hslice := slice_of_drop happend.symm
  have hrest := drop_add_of_drop happend.symm
  have hlength := congrArg List.length happend
  have hlt := (List.getElem?_eq_some_iff.mp hopen).1
  rw [List.length_append, List.length_drop] at hlength
  have hhead : (t.drop p).head? = some '(' := by rw [List.head?_drop, hopen]
  refine ⟨p + (cutList 0 none (t.drop p)).1.length, ⟨hopen, by omega, ?_⟩, ?_⟩
  · rw [hslice]
    exact (arguments_iff_cutList hhead).mpr rfl
  · rw [hslice, hrest]

/-- The longest name is read. -/
theorem NameAt.cutName_eq (h : NameAt t p name behind) (hcs : t.drop p = c :: cs) :
    cutName cs = some (name, behind) := by
  have htext := hcs.symm.trans h.text
  obtain ⟨rfl, rfl⟩ := List.cons.inj htext
  cases hname : cutName (name ++ behind) with
  | none =>
    have hspells := h.longest.spells
    cases name with
    | nil => exact hspells.elim
    | cons d name => simp [cutName, hspells.1] at hname
  | some cut =>
    obtain ⟨rfl, rfl⟩ := h.unique (nameAt_of_cutName hcs hname)
    rfl

/-- The scan of the argument list that begins at `s` stands at `p`, with this open quote, and the
flag says whether a word boundary stands there. -/
structure Scanned (t : List Char) (s p : Nat) (boundary : Bool) (quote : Option Char) : Prop where
  le : s ≤ p
  le_length : p ≤ t.length
  boundary : p < t.length → (boundary = true ↔ AtBoundary t p)
  quote : p < t.length → (slice t s p).foldl quoteAfter none = quote

namespace Scanned

theorem char (h : Scanned t s p boundary quote) (hc : t[p]? = some c) :
    Scanned t s (p + 1) (isBoundary c) (quoteAfter quote c) := by
  have hlt := (List.getElem?_eq_some_iff.mp hc).1
  refine ⟨Nat.le_succ_of_le h.le, hlt, fun _ => (atBoundary_succ hc).symm, fun _ => ?_⟩
  rw [slice_concat hc h.le, List.foldl_append, h.quote hlt]
  rfl

/-- Where the scan goes on with the next character, no child begins. -/
theorem not_childBegins (h : Scanned t s p boundary quote) (hcs : t.drop p = c :: cs)
    (hnone : occurrenceAt boundary quote c cs = none) : ¬ ChildBegins depth t s p := by
  rintro ⟨-, hsigil, hunquoted, name, behind, hname, hopen⟩
  have hlt := lt_of_drop_cons hcs
  obtain rfl : quote = none := (h.quote hlt).symm.trans hunquoted
  obtain rfl : boundary = true := (h.boundary hlt).mpr hsigil.2
  obtain rfl : c = '@' := Option.some.inj ((getElem?_of_drop_cons hcs).symm.trans hsigil.1)
  obtain ⟨list, rfl⟩ := List.head?_eq_some_iff.mp hopen
  simp [occurrenceAt, hname.cutName_eq hcs] at hnone

theorem childBegins (h : Scanned t s p boundary quote) (hcs : t.drop p = c :: cs) {rest : List Char}
    (hchild : BeginsChild boundary quote c cs o rest) : ChildBegins 0 t s p := by
  obtain ⟨rfl, hboundary, rfl, hname, hlist, -⟩ := hchild
  have hlt := lt_of_drop_cons hcs
  exact ⟨rfl, ⟨getElem?_of_drop_cons hcs, (h.boundary hlt).mp hboundary⟩, h.quote hlt,
    o.name, o.behind, nameAt_of_cutName hcs hname, hlist⟩

end Scanned

theorem slice_child (hname : NameAt t p name behind)
    (hends : ListEnds t (p + 1 + name.length) b) :
    slice t p b = '@' :: (name ++ slice t (p + 1 + name.length) b) := by
  have htext : t.drop p = ('@' :: name) ++ behind := hname.text
  have hfront := slice_of_drop htext
  rw [List.length_cons, Nat.add_comm name.length, ← Nat.add_assoc] at hfront
  rw [slice_append t (by omega) hends.lt.le, hfront, List.cons_append]

/-- Behind a child no quote is open and no word boundary stands. -/
theorem Scanned.behind_child (h : Scanned t s p boundary none)
    (hcut : cutName cs = some (name, behind)) (hname : NameAt t p name behind)
    (hends : ListEnds t (p + 1 + name.length) b) :
    Scanned t s b false none := by
  have hlt := hends.lt
  have hle := h.le
  have hp : p < t.length := by
    have := hends.le_length
    omega
  refine ⟨by omega, hends.le_length, fun hb => ?_, fun hb => ?_⟩
  · exact iff_of_false Bool.false_ne_true (hends.not_atBoundary hb)
  · have hpassive : name.foldl quoteAfter none = none :=
      foldl_quoteAfter_of_passive (passive_of_cutName hcut)
    rw [slice_append t hle (by omega), List.foldl_append, h.quote hp, slice_child hname hends,
      List.foldl_cons, List.foldl_append]
    change (slice t _ b).foldl quoteAfter (name.foldl quoteAfter none) = none
    rw [hpassive, hends.unquoted hb]

/-- A child is the slice of a text up to the end of its argument list, and the scan goes on behind
it. -/
theorem exists_childSlice {rest : List Char} (hscan : Scanned t s p boundary quote)
    (hcs : t.drop p = c :: cs) (hchild : BeginsChild boundary quote c cs o rest) :
    ∃ b, ChildSlice 0 t p b (o.fragment .whole) ∧ t.drop b = rest ∧ Scanned t s b false none := by
  obtain ⟨rfl, -, rfl, hname, hlist, rfl⟩ := hchild
  have hat := nameAt_of_cutName hcs hname
  have hopen : t[p + 1 + o.name.length]? = some '(' := by
    rw [← List.head?_drop, hat.drop_behind]
    exact hlist
  obtain ⟨b, hends, hcut⟩ := exists_listEnds hopen
  rw [hat.drop_behind] at hcut
  have hnamed : (o.fragment .whole).name.toList = o.name := by
    rw [o.name_fragment, String.toList_ofList]
  refine ⟨b, ⟨?name, ?ends, ?fragments, ?raw⟩, by rw [hcut], hscan.behind_child hname hat hends⟩
  case name =>
    rw [hnamed]
    exact ⟨o.behind, hat⟩
  case ends =>
    rw [hnamed]
    exact hends
  case fragments =>
    obtain ⟨list, hbehind⟩ := Occurrence.exists_behind_eq hlist
    have hone := fragmentsOf_child (hbehind ▸ hname)
    rw [← hbehind, hcut] at hone
    rw [slice_child hat hends]
    exact hone
  case raw =>
    rw [hnamed, Occurrence.raw_of_hasList hlist, String.toList_ofList]
    exact congrArg trim (congrArg Prod.fst hcut)

theorem CutsOut.char (h : CutsOut depth t s count (p + 1) e text children) (hc : t[p]? = some c)
    (hnot : ¬ ChildBegins depth t s p) : CutsOut depth t s count p e (c :: text) children := by
  have hfirst {n : Nat} (hnone : ∀ k, p + 1 ≤ k → k < n → ¬ ChildBegins depth t s k) :
      ∀ k, p ≤ k → k < n → ¬ ChildBegins depth t s k := by
    intro k hk hlt
    rcases Nat.eq_or_lt_of_le hk with rfl | hk
    · exact hnot
    · exact hnone k hk hlt
  cases h with
  | last hle hnone =>
    rw [← slice_cons hc hle]
    exact .last (Nat.le_of_succ_le hle) (hfirst hnone)
  | child hle hnone hbegins hslice hrest =>
    rw [← List.cons_append, ← slice_cons hc hle]
    exact .child (Nat.le_of_succ_le hle) (hfirst hnone) hbegins hslice hrest

/-- The scan of an argument list takes out of it the children that begin in it. -/
theorem exists_cutsOut_scanChildren (level count : Nat) (hscan : Scanned t s p boundary quote)
    (hcs : t.drop p = cs) :
    ∃ e, e ≤ t.length ∧ (scanChildren level quote boundary count cs).rest = t.drop e ∧
      CutsOut 0 t s count p e (scanChildren level quote boundary count cs).text
        ((scanChildren level quote boundary count cs).children.map (·.fragment .whole)) := by
  fun_induction scanChildren level quote boundary count cs generalizing p with
  | case1 level quote boundary count =>
    have hnil := slice_self t p
    refine ⟨p, hscan.le_length, hcs.symm, ?_⟩
    have hlast : CutsOut 0 t s count p p (slice t p p) [] :=
      .last (Nat.le_refl p) fun k hk hlt => absurd hlt (Nat.not_lt_of_le hk)
    rwa [hnil] at hlast
  | case2 level quote boundary count c cs o rest hc ih =>
    have hchild := beginsChild_of_occurrenceAt hc
    obtain ⟨b, hslice, hrest, hnext⟩ := exists_childSlice hscan hcs hchild
    rw [← hchild.unquoted] at hnext
    obtain ⟨e, hle, hend, hcuts⟩ := ih hnext hrest
    refine ⟨e, hle, hend, ?_⟩
    have hall : CutsOut 0 t s count p e (slice t p p ++ _) _ :=
      .child (Nat.le_refl p) (fun k hk hlt => absurd hlt (Nat.not_lt_of_le hk))
        (hscan.childBegins hcs hchild) hslice hcuts
    rwa [slice_self] at hall
  | case3 level quote boundary count c cs hc hclose =>
    have hchar := getElem?_of_drop_cons hcs
    have hlast : CutsOut 0 t s count (p + 1) (p + 1) (slice t (p + 1) (p + 1)) [] :=
      .last (Nat.le_refl _) fun k hk hlt => absurd hlt (Nat.not_lt_of_le hk)
    rw [slice_self] at hlast
    exact ⟨p + 1, lt_of_drop_cons hcs, (drop_succ_of_drop_cons hcs).symm,
      hlast.char hchar (hscan.not_childBegins hcs hc)⟩
  | case4 level quote boundary count c cs hc hclose ih =>
    have hchar := getElem?_of_drop_cons hcs
    obtain ⟨e, hle, hend, hcuts⟩ := ih (hscan.char hchar) (drop_succ_of_drop_cons hcs)
    exact ⟨e, hle, hend, hcuts.char hchar (hscan.not_childBegins hcs hc)⟩

/-- The reader that takes children out of an argument list ends where the list does. -/
theorem cutsOut_withChildren (hends : ListEnds t p e)
    (hcut : cutList 0 none (t.drop p) = (slice t p e, t.drop e)) :
    (ArgumentReader.withChildren.read (t.drop p)).rest = t.drop e ∧
      CutsOut 0 t p 0 p e (ArgumentReader.withChildren.read (t.drop p)).text
        (ArgumentReader.withChildren.read (t.drop p)).children := by
  have hhead : (t.drop p).head? = some '(' := by rw [List.head?_drop, hends.opens]
  have hrest := rest_read_withChildren hhead
  rw [hcut] at hrest
  obtain ⟨inner, hinner⟩ := List.head?_eq_some_iff.mp hhead
  have hlt := lt_of_drop_cons hinner
  have hstart : Scanned t p p (decide (AtBoundary t p)) none :=
    ⟨Nat.le_refl p, hlt.le, fun _ => decide_eq_true_iff, fun _ => by rw [slice_self]; rfl⟩
  have hread : ArgumentReader.withChildren.read (t.drop p) =
      ((scanChildren 1 none true 0 inner).withChar '(').argumentText := by
    rw [hinner, withChildren_read, scanWithChildren_open]
  refine ⟨hrest, ?_⟩
  rw [hread] at hrest ⊢
  obtain ⟨e', hle, hend, hcuts⟩ := exists_cutsOut_scanChildren 1 0
    (hstart.char hends.opens) (drop_succ_of_drop_cons hinner)
  have hsame : e' = e := by
    have hlength := congrArg List.length (hend.symm.trans hrest)
    have hle' := hends.le_length
    rw [List.length_drop, List.length_drop] at hlength
    omega
  subst hsame
  exact hcuts.char hends.opens (hstart.not_childBegins hinner rfl)

/-- At depths of children an argument list is read as it is written. -/
theorem read_atDepth_succ (hcut : cutList 0 none (t.drop p) = (slice t p e, t.drop e))
    (depth : Nat) :
    (ArgumentReader.atDepth (depth + 1)).read (t.drop p) = ⟨slice t p e, [], t.drop e⟩ := by
  change (⟨(cutList 0 none (t.drop p)).1, [], (cutList 0 none (t.drop p)).2⟩ : ArgumentText) = _
  rw [hcut]

/-- At any depth, reading an argument list ends where the parenthesis that opens it is closed, or at
the end of the text, whether or not children are taken out of it. Each child that is taken out is
all that is read of its slice, and its value is the slice behind its name. -/
theorem exists_readersAgree (t : List Char) (p : Nat) (hopen : t[p]? = some '(') :
    ∃ e, ReadersAgree t p e := by
  obtain ⟨e, hends, hcut⟩ := exists_listEnds hopen
  obtain ⟨hrest, hcuts⟩ := cutsOut_withChildren hends hcut
  refine ⟨e, hends, hcut, fun depth => ?_, fun depth => ?_⟩
  · cases depth with
    | zero => exact hrest
    | succ depth => rw [read_atDepth_succ hcut]
  · cases depth with
    | zero => exact hcuts
    | succ depth =>
      rw [read_atDepth_succ hcut]
      exact .last hends.lt.le fun k _ _ hbegins => Nat.succ_ne_zero depth hbegins.depth_eq

/-- A parenthesis and an at sign between quotes, a child with parentheses inside its list, and a
child that is not closed, so that neither is the list that holds it. -/
theorem exists_readersAgree_nested :
    let t := "@Outer(a='@No(', b=@Inner(x=\")\", y=(1)), @Open(z ".toList
    t[6]? = some '(' ∧ ReadersAgree t 6 t.length ∧
      ((ArgumentReader.atDepth 0).read (t.drop 6)).text =
        "(a='@No(', b=_child_0, _child_1".toList := by
  intro t
  have hopen : t[6]? = some '(' := by decide
  obtain ⟨e, hagree⟩ := exists_readersAgree t 6 hopen
  have hrest : (cutList 0 none (t.drop 6)).2 = [] := by decide
  have hend : e = t.length := by
    rw [hagree.cutList_eq] at hrest
    exact Nat.le_antisymm hagree.ends.le_length (List.drop_eq_nil_iff.mp hrest)
  refine ⟨hopen, hend ▸ hagree, ?_⟩
  decide +kernel

end DocAnnotations.Comment
