import DocAnnotations.Proofs.Comment.Extent
import Mathlib.Data.List.Sort

/-! The positions at which the annotations of a comment stand. -/
namespace DocAnnotations.Comment

/-- A text begins or goes on behind a character after which an annotation may begin. -/
def AtBoundary (t : List Char) (p : Nat) : Prop :=
  p = 0 ∨ t[p - 1]?.any isBoundary = true

instance (t : List Char) (p : Nat) : Decidable (AtBoundary t p) :=
  inferInstanceAs (Decidable (_ ∨ _))

/-- An at sign stands at a word boundary. -/
def IsSigil (t : List Char) (p : Nat) : Prop :=
  t[p]? = some '@' ∧ AtBoundary t p

instance (t : List Char) (p : Nat) : Decidable (IsSigil t p) :=
  inferInstanceAs (Decidable (_ ∧ _))

/-- An annotation may begin: the first character of a name follows an at sign at a word
boundary. -/
def Begins (t : List Char) (p : Nat) : Prop :=
  IsSigil t p ∧ t[p + 1]?.any isNameStart = true

instance (t : List Char) (p : Nat) : Decidable (Begins t p) :=
  inferInstanceAs (Decidable (_ ∧ _))

def SpellsName : List Char → Prop
  | [] => False
  | c :: cs => isNameStart c = true ∧ ∀ d ∈ cs, isNameChar d = true

structure LongestName (cs name : List Char) : Prop where
  front : name <+: cs
  spells : SpellsName name
  longest : ∀ other, other <+: cs → SpellsName other → other.length ≤ name.length

/-- An at sign stands at the position, the longest name follows it, and `behind` follows the
name. -/
structure NameAt (t : List Char) (p : Nat) (name behind : List Char) : Prop where
  text : t.drop p = '@' :: (name ++ behind)
  longest : LongestName (name ++ behind) name

/-- A position lies within the argument list that stands directly behind the name at another. -/
def InArguments (t : List Char) (q p : Nat) : Prop :=
  ∃ name behind list, NameAt t q name behind ∧ behind.head? = some '(' ∧ Arguments behind list ∧
    q + 1 + name.length ≤ p ∧ p < q + 1 + name.length + list.length

/-- The positions at which annotations stand: where one may begin, but not within the argument list
of another. -/
structure Annotated (t : List Char) (ps : List Nat) : Prop where
  sorted : ps.Pairwise (· < ·)
  mem_iff : ∀ p, p ∈ ps ↔ Begins t p ∧ ∀ q ∈ ps, ¬ InArguments t q p

/-- From `a` on, the first position with a property, or the end of the text. -/
structure FirstFrom (P : Nat → Prop) (t : List Char) (a e : Nat) : Prop where
  le : a ≤ e
  le_length : e ≤ t.length
  before : ∀ k, a ≤ k → k < e → ¬ P k
  found : e < t.length → P e

variable {t cs name behind rest : List Char} {c : Char} {n p q : Nat} {ps qs : List Nat}

section Text

theorem getElem?_of_drop (h : t.drop n = cs) (k : Nat) : t[n + k]? = cs[k]? := by
  rw [← h, List.getElem?_drop]

theorem getElem?_of_drop_cons (h : t.drop n = c :: cs) : t[n]? = some c :=
  getElem?_of_drop h 0

theorem lt_of_drop_cons (h : t.drop n = c :: cs) : n < t.length :=
  (List.getElem?_eq_some_iff.mp (getElem?_of_drop_cons h)).1

theorem drop_add_of_drop (h : t.drop n = cs ++ rest) : t.drop (n + cs.length) = rest := by
  rw [← List.drop_drop, h, List.drop_left]

theorem drop_succ_of_drop_cons (h : t.drop n = c :: cs) : t.drop (n + 1) = cs :=
  drop_add_of_drop (show t.drop n = [c] ++ cs from h)

theorem atBoundary_succ (h : t[n]? = some c) : AtBoundary t (n + 1) ↔ isBoundary c = true := by
  simp [AtBoundary, h]

theorem not_atBoundary_of_drop (h : t.drop n = cs ++ rest) (hlast : cs.getLast? = some c)
    (hc : isBoundary c = false) : ¬ AtBoundary t (n + cs.length) := by
  obtain ⟨init, rfl⟩ := List.getLast?_eq_some_iff.mp hlast
  have hat : t[n + init.length]? = some c := by
    rw [getElem?_of_drop h]
    simp
  rw [List.length_append, List.length_singleton, ← Nat.add_assoc, atBoundary_succ hat, hc]
  exact Bool.false_ne_true

/-- A text is cut at the next at sign at a word boundary. -/
theorem firstFrom_splitAtSigil (boundary : Bool) (hcs : t.drop n = cs) (hn : n ≤ t.length)
    (hb : n < t.length → (boundary = true ↔ AtBoundary t n)) :
    FirstFrom (IsSigil t) t n (n + (splitAtSigil boundary cs).1.length) := by
  induction cs generalizing n boundary with
  | nil =>
    have hend : t.length ≤ n := List.drop_eq_nil_iff.mp hcs
    exact ⟨Nat.le_refl n, hn, fun k hk hlt => absurd hlt (Nat.not_lt_of_le hk),
      fun h => absurd h (Nat.not_lt_of_le hend)⟩
  | cons c cs ih =>
    have hc := getElem?_of_drop_cons hcs
    have hlt := lt_of_drop_cons hcs
    rw [splitAtSigil]
    split
    next h =>
      obtain ⟨rfl, hboundary⟩ := h
      exact ⟨Nat.le_refl n, hn, fun k hk hlt => absurd hlt (Nat.not_lt_of_le hk),
        fun _ => ⟨hc, (hb hlt).mp hboundary⟩⟩
    next h =>
      have hnext := ih (isBoundary c) (drop_succ_of_drop_cons hcs) hlt
        fun _ => (atBoundary_succ hc).symm
      have hlength : n + (c :: (splitAtSigil (isBoundary c) cs).1).length =
          n + 1 + (splitAtSigil (isBoundary c) cs).1.length := by
        rw [List.length_cons]
        omega
      change FirstFrom (IsSigil t) t n (n + (c :: (splitAtSigil (isBoundary c) cs).1).length)
      rw [hlength]
      refine ⟨(Nat.le_succ n).trans hnext.le, hnext.le_length, fun k hk hlt' hsigil => ?_,
        hnext.found⟩
      rcases Nat.eq_or_lt_of_le hk with rfl | hk
      · rw [IsSigil, hc] at hsigil
        exact h ⟨by simpa using hsigil.1, (hb hlt).mpr hsigil.2⟩
      · exact hnext.before k hk hlt' hsigil

theorem longestName_of_cutName (h : cutName cs = some (name, rest)) : LongestName cs name := by
  cases cs with
  | nil => cases h
  | cons c cs =>
    rw [cutName] at h
    split at h
    next hc =>
      cases h
      refine ⟨?_, ⟨hc, fun d hd => List.mem_takeWhile_imp hd⟩, fun other hother hspells => ?_⟩
      · exact List.cons_prefix_cons.mpr ⟨rfl, List.takeWhile_prefix _⟩
      · cases other with
        | nil => exact Nat.zero_le _
        | cons d other =>
          obtain ⟨-, more, rfl⟩ := List.cons_prefix_cons.mp hother
          simp [List.takeWhile_append_of_pos hspells.2]
    next => cases h

theorem LongestName.unique {other : List Char} (h : LongestName cs name)
    (ho : LongestName cs other) : other = name := by
  have hlength : other.length = name.length :=
    Nat.le_antisymm (h.longest other ho.front ho.spells) (ho.longest name h.front h.spells)
  exact (List.prefix_of_prefix_length_le ho.front h.front hlength.le).eq_of_length hlength

end Text

section Name

theorem nameAt_of_cutName (hcs : t.drop p = '@' :: cs) (h : cutName cs = some (name, behind)) :
    NameAt t p name behind := by
  have happend := cutName_append h
  exact ⟨by rw [happend, hcs], happend ▸ longestName_of_cutName h⟩

theorem NameAt.unique {name' behind' : List Char} (h : NameAt t p name behind)
    (h' : NameAt t p name' behind') : name' = name ∧ behind' = behind := by
  have htext : name' ++ behind' = name ++ behind := by
    have := h'.text.symm.trans h.text
    simpa using this
  obtain rfl := h.longest.unique (htext ▸ h'.longest)
  exact ⟨rfl, List.append_cancel_left htext⟩

theorem NameAt.drop_name (h : NameAt t p name behind) : t.drop (p + 1) = name ++ behind :=
  drop_succ_of_drop_cons h.text

theorem NameAt.drop_behind (h : NameAt t p name behind) :
    t.drop (p + 1 + name.length) = behind :=
  drop_add_of_drop h.drop_name

theorem NameAt.le_length (h : NameAt t p name behind) : p + 1 + name.length ≤ t.length := by
  have := congrArg List.length h.text
  simp at this
  omega

theorem NameAt.isName_of_mem (h : NameAt t p name behind) (hc : c ∈ name) :
    isNameStart c = true ∨ isNameChar c = true := by
  have hspells := h.longest.spells
  cases name with
  | nil => cases hc
  | cons d cs =>
    rcases List.mem_cons.mp hc with rfl | hc
    · exact .inl hspells.1
    · exact .inr (hspells.2 c hc)

/-- A name holds no at sign. -/
theorem NameAt.not_isSigil (h : NameAt t p name behind) {k : Nat} (hk : p < k)
    (hlt : k < p + 1 + name.length) : ¬ IsSigil t k := by
  rintro ⟨hsign, -⟩
  obtain ⟨i, rfl⟩ : ∃ i, k = p + 1 + i := Nat.exists_eq_add_of_le hk
  have hi : i < name.length := by omega
  rw [getElem?_of_drop h.drop_name, List.getElem?_append_left hi] at hsign
  have hplain := isPlain_of_isName (h.isName_of_mem (List.mem_of_getElem? hsign))
  cases hplain

theorem isBoundary_of_isName (h : isNameStart c = true ∨ isNameChar c = true) :
    isBoundary c = false := by
  have hall : [' ', '\t', '\r', '\n', '*', '(', '{', ',', '='].all
      (fun d => !isNameStart d && !isNameChar d) = true := by decide
  rw [Bool.eq_false_iff]
  intro hboundary
  have hnone := List.all_eq_true.mp hall c (by simpa [isBoundary] using hboundary)
  rcases h with h | h <;> simp [h] at hnone

/-- Behind a name is no word boundary. -/
theorem NameAt.not_atBoundary (h : NameAt t p name behind) :
    ¬ AtBoundary t (p + 1 + name.length) := by
  have hne : name ≠ [] := by
    rintro rfl
    exact h.longest.spells
  have hlast := List.getLast?_eq_some_getLast hne
  exact not_atBoundary_of_drop h.drop_name hlast
    (isBoundary_of_isName (h.isName_of_mem (List.getLast_mem hne)))

theorem NameAt.begins (h : NameAt t p name behind) (hsigil : IsSigil t p) : Begins t p := by
  have hspells := h.longest.spells
  cases name with
  | nil => exact hspells.elim
  | cons c cs =>
    refine ⟨hsigil, ?_⟩
    rw [getElem?_of_drop h.text]
    exact hspells.1

/-- Where a name is read, an at sign at a boundary begins an annotation. -/
theorem not_begins_of_cutName (hcs : t.drop p = c :: cs) (h : cutName cs = none) :
    ¬ Begins t p := by
  rintro ⟨-, hstart⟩
  rw [getElem?_of_drop hcs] at hstart
  cases cs with
  | nil => cases hstart
  | cons d cs =>
    have hd : isNameStart d = true := hstart
    simp [cutName, hd] at h

theorem InArguments.lt (h : InArguments t q p) : q < p := by
  obtain ⟨name, behind, list, -, -, -, hle, -⟩ := h
  omega

end Name

/-- The positions from `n` on at which annotations stand. -/
structure AnnotatedFrom (t : List Char) (n : Nat) (ps : List Nat) : Prop where
  sorted : ps.Pairwise (· < ·)
  le : ∀ p ∈ ps, n ≤ p
  mem_iff : ∀ p, n ≤ p → (p ∈ ps ↔ Begins t p ∧ ∀ q ∈ ps, ¬ InArguments t q p)

namespace AnnotatedFrom

theorem nil (hn : t.length ≤ n) : AnnotatedFrom t n [] := by
  refine ⟨.nil, by simp, fun p hp => ⟨by simp, fun h => ?_⟩⟩
  have := (List.getElem?_eq_some_iff.mp h.1.1.1).1
  omega

theorem skip {m : Nat} (h : AnnotatedFrom t m ps) (hnm : n ≤ m)
    (hskip : ∀ k, n ≤ k → k < m → ¬ Begins t k) : AnnotatedFrom t n ps := by
  refine ⟨h.sorted, fun p hp => hnm.trans (h.le p hp), fun p hp => ?_⟩
  rcases Nat.lt_or_ge p m with hlt | hge
  · refine ⟨fun hmem => ?_, fun hbegins => (hskip p hp hlt hbegins.1).elim⟩
    have := h.le p hmem
    omega
  · exact h.mem_iff p hge

/-- An annotation at `n` goes in front. Up to `m` is its argument list, or none may begin. -/
theorem cons {m : Nat} (h : AnnotatedFrom t m ps) (hnm : n < m) (hbegins : Begins t n)
    (hskip : ∀ k, n < k → k < m → InArguments t n k ∨ ¬ Begins t k)
    (hbehind : ∀ k, m ≤ k → ¬ InArguments t n k) : AnnotatedFrom t n (n :: ps) := by
  refine ⟨List.pairwise_cons.mpr ⟨fun p hp => hnm.trans_le (h.le p hp), h.sorted⟩,
    List.forall_mem_cons.mpr ⟨Nat.le_refl _, fun p hp => hnm.le.trans (h.le p hp)⟩, fun p hp => ?_⟩
  rcases Nat.eq_or_lt_of_le hp with rfl | hlt
  · refine iff_of_true List.mem_cons_self
      ⟨hbegins, List.forall_mem_cons.mpr ⟨?_, fun q hq hin => ?_⟩⟩
    · exact fun hin => (Nat.lt_irrefl _ hin.lt)
    · have := h.le q hq
      have := hin.lt
      omega
  · have hne : p ∈ n :: ps ↔ p ∈ ps := by simp [hlt.ne']
    rw [hne, List.forall_mem_cons]
    rcases Nat.lt_or_ge p m with hpm | hpm
    · refine iff_of_false (fun hmem => ?_) fun hall => ?_
      · have := h.le p hmem
        omega
      · rcases hskip p hlt hpm with hin | hnot
        · exact hall.2.1 hin
        · exact hnot hall.1
    · rw [h.mem_iff p hpm]
      exact ⟨fun hall => ⟨hall.1, hbehind p hpm, hall.2⟩, fun hall => ⟨hall.1, hall.2.2⟩⟩

end AnnotatedFrom

/-- The annotation at `n`, with its argument list if it has one, ends in front of `m`. -/
structure EndsAt (t : List Char) (n m : Nat) : Prop where
  lt : n < m
  le_length : m ≤ t.length
  inside : ∀ k, n < k → k < m → InArguments t n k ∨ ¬ IsSigil t k
  outside : ∀ k, m ≤ k → ¬ InArguments t n k
  boundary : m < t.length → ¬ AtBoundary t m

/-- Behind an argument list that is not all of the text is no word boundary. -/
theorem not_atBoundary_of_arguments {list : List Char} (hcs : t.drop n = cs)
    (hlist : Arguments cs list) (hlt : n + list.length < t.length) :
    ¬ AtBoundary t (n + list.length) := by
  obtain ⟨⟨rest, rfl⟩, hclosed | ⟨hall, -⟩⟩ := hlist
  · obtain ⟨inner, rfl⟩ := exists_of_isList hclosed
    obtain ⟨front, rfl⟩ := (isList_cons_iff.mp hclosed).exists_append
    exact not_atBoundary_of_drop hcs (List.getLast?_eq_some_iff.mpr ⟨'(' :: front, rfl⟩)
      (by decide)
  · have := congrArg List.length hcs
    rw [← hall, List.length_drop] at this
    omega

/-- An annotation and its argument list end where the next annotation is looked for. -/
theorem exists_endsAt {reader : ArgumentReader}
    (hreader : ∀ cs, cs.head? = some '(' → (reader.read cs).rest = (cutList 0 none cs).2)
    (h : NameAt t n name behind) :
    ∃ m, EndsAt t n m ∧ t.drop m = (⟨name, behind⟩ : Occurrence).rest reader := by
  rw [Occurrence.rest]
  split
  next hhas =>
    have hopen : behind.head? = some '(' := hhas
    have hlist := (arguments_iff_cutList hopen).mpr rfl
    have hcut := cutList_append 0 none behind
    have hlength := congrArg List.length hcut
    have hbehind := congrArg List.length h.drop_behind
    have hname := h.le_length
    rw [List.length_append] at hlength
    rw [List.length_drop] at hbehind
    refine ⟨n + 1 + name.length + (cutList 0 none behind).1.length,
      ⟨by omega, by omega, fun k hk hlt => ?_, fun k hk => ?_,
        not_atBoundary_of_arguments h.drop_behind hlist⟩, ?_⟩
    · rcases Nat.lt_or_ge k (n + 1 + name.length) with hkn | hkn
      · exact .inr (h.not_isSigil hk hkn)
      · exact .inl ⟨name, behind, _, h, hopen, hlist, hkn, hlt⟩
    · rintro ⟨name', behind', list', h', -, hlist', -, hlt⟩
      obtain ⟨rfl, rfl⟩ := h.unique h'
      obtain rfl := (arguments_iff_cutList hopen).mp hlist'
      omega
    · rw [hreader behind hopen]
      exact drop_add_of_drop (h.drop_behind.trans hcut.symm)
  next hopen =>
    refine ⟨n + 1 + name.length, ⟨by omega, h.le_length,
      fun k hk hlt => .inr (h.not_isSigil hk hlt), fun k hk => ?_, fun _ => h.not_atBoundary⟩,
      h.drop_behind⟩
    rintro ⟨name', behind', list', h', hopen', -⟩
    obtain ⟨rfl, rfl⟩ := h.unique h'
    exact hopen hopen'

theorem exists_annotatedFrom {reader : ArgumentReader}
    (hreader : ∀ cs, cs.head? = some '(' → (reader.read cs).rest = (cutList 0 none cs).2)
    (hcs : t.drop n = cs) (hn : n ≤ t.length) (hsigil : n < t.length → IsSigil t n) :
    ∃ ps, AnnotatedFrom t n ps ∧
      List.Forall₂ (fun p o => NameAt t p o.name o.behind) ps (occurrencesFrom reader cs) := by
  fun_induction occurrencesFrom reader cs generalizing n with
  | case1 => exact ⟨[], .nil (List.drop_eq_nil_iff.mp hcs), .nil⟩
  | case2 c cs hnone ih =>
    have hc := getElem?_of_drop_cons hcs
    have hlt := lt_of_drop_cons hcs
    obtain rfl : c = '@' := Option.some.inj (hc.symm.trans (hsigil hlt).1)
    have hdrop := drop_succ_of_drop_cons hcs
    have hfirst := firstFrom_splitAtSigil false hdrop hlt fun _ => (atBoundary_succ hc).symm
    obtain ⟨ps, hps, hnames⟩ := ih
      (drop_add_of_drop (by rw [splitAtSigil_append, hdrop])) hfirst.le_length hfirst.found
    refine ⟨ps, hps.skip ((Nat.le_succ n).trans hfirst.le) fun k hk hlt hbegins => ?_, hnames⟩
    rcases Nat.eq_or_lt_of_le hk with rfl | hk
    · exact not_begins_of_cutName hcs hnone hbegins
    · exact hfirst.before k hk hlt hbegins.1
  | case3 c cs name behind hname ih =>
    have hc := getElem?_of_drop_cons hcs
    have hlt := lt_of_drop_cons hcs
    have hbegin := hsigil hlt
    obtain rfl : c = '@' := Option.some.inj (hc.symm.trans hbegin.1)
    have hat := nameAt_of_cutName hcs hname
    obtain ⟨m, hm, hrest⟩ := exists_endsAt hreader hat
    have hfirst := firstFrom_splitAtSigil false hrest hm.le_length fun h => by
      simpa using hm.boundary h
    obtain ⟨ps, hps, hnames⟩ := ih
      (drop_add_of_drop (by rw [splitAtSigil_append, hrest])) hfirst.le_length hfirst.found
    refine ⟨n :: ps, hps.cons (hm.lt.trans_le hfirst.le) (hat.begins hbegin) (fun k hk hlt => ?_)
      (fun k hk => hm.outside k (hfirst.le.trans hk)), .cons hat hnames⟩
    rcases Nat.lt_or_ge k m with hkm | hkm
    · exact (hm.inside k hk hkm).imp_right fun h hbegins => h hbegins.1
    · exact .inr fun hbegins => hfirst.before k hkm hlt hbegins.1

theorem Occurrence.name_fragment (reader : ArgumentReader) (o : Occurrence) :
    (o.fragment reader).name = String.ofList o.name := by
  rw [fragment]
  split <;> rfl

/-- The annotations of a text stand at the positions where annotations are to be found. -/
theorem exists_annotated (comment : String) :
    ∃ ps, Annotated (undecorate comment.toList) ps ∧
      List.Forall₂ (fun p o => NameAt (undecorate comment.toList) p o.name o.behind) ps
        (occurrences comment) := by
  have hfirst : FirstFrom (IsSigil (undecorate comment.toList)) (undecorate comment.toList) 0 _ :=
    firstFrom_splitAtSigil true rfl (Nat.zero_le _)
      fun _ => iff_of_true rfl (.inl rfl)
  obtain ⟨ps, hps, hnames⟩ := exists_annotatedFrom (fun _ => rest_read_withChildren)
    (drop_add_of_drop (splitAtSigil_append true _).symm) hfirst.le_length hfirst.found
  have hall := hps.skip (Nat.zero_le _) fun k hk hlt hbegins => hfirst.before k hk hlt hbegins.1
  exact ⟨ps, ⟨hall.sorted, fun p => hall.mem_iff p (Nat.zero_le p)⟩, hnames⟩

/-- What holds of the annotations as they stand holds of the fragments at their positions. -/
theorem exists_annotated_fragments (comment : String)
    {P : Nat → List Char → Fragment → Prop}
    (h : ∀ p (o : Occurrence), NameAt (undecorate comment.toList) p o.name o.behind →
      P p o.behind (o.fragment .withChildren)) :
    ∃ ps, Annotated (undecorate comment.toList) ps ∧
      List.Forall₂ (fun p f => ∃ behind,
        NameAt (undecorate comment.toList) p f.name.toList behind ∧ P p behind f) ps
        (fragments comment) := by
  obtain ⟨ps, hps, hnames⟩ := exists_annotated comment
  refine ⟨ps, hps, ?_⟩
  rw [fragments_eq_map, List.forall₂_map_right_iff]
  refine hnames.imp fun p o hat => ⟨o.behind, ?_, h p o hat⟩
  rwa [o.name_fragment, String.toList_ofList]

theorem Annotated.unique (h : Annotated t ps) (h' : Annotated t qs) : qs = ps := by
  refine h'.sorted.eq_of_mem_iff h.sorted fun p => ?_
  induction p using Nat.strong_induction_on with
  | h p ih =>
    rw [h.mem_iff, h'.mem_iff]
    -- Only annotations further in front can hold the position in their argument lists.
    refine and_congr_right fun _ => forall_congr' fun q => ?_
    constructor
    · exact fun hnot hq hin => hnot ((ih q hin.lt).mpr hq) hin
    · exact fun hnot hq hin => hnot ((ih q hin.lt).mp hq) hin

/-- The annotations of a comment are found one by one, in their order, at the positions of its text
at which annotations stand, and no others are: where the first character of a name follows an at
sign at a word boundary, but not within the argument list of an annotation further in front. Each
has the longest name there. -/
theorem fragments_at_positions (comment : String) :
    ∃ ps, Annotated (undecorate comment.toList) ps ∧
      (∀ qs, Annotated (undecorate comment.toList) qs → qs = ps) ∧
      List.Forall₂ (fun p f => ∃ behind,
        NameAt (undecorate comment.toList) p f.name.toList behind) ps (fragments comment) := by
  obtain ⟨ps, hps, hnames⟩ := exists_annotated_fragments comment
    (P := fun _ _ _ => True) fun _ _ _ => trivial
  refine ⟨ps, hps, fun qs hqs => hps.unique hqs, hnames.imp fun p f ⟨behind, hat, _⟩ => ?_⟩
  exact ⟨behind, hat⟩

end DocAnnotations.Comment
