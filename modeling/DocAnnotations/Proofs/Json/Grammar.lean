import DocAnnotations.Json
import DocAnnotations.Proofs.Json.Escape
import DocAnnotations.Proofs.Json.Number
import DocAnnotations.Proofs.Text

/-! The grammar of JSON (RFC 8259), and what it says of the characters outside quotes. -/
namespace DocAnnotations

namespace Json

open Text

/-- What may stand between quotes. -/
inductive IsChars : List Char → Prop
  | nil : IsChars []
  | plain {c : Char} {cs : List Char} : 0x20 ≤ c.toNat → c ≠ '"' → c ≠ '\\' → IsChars cs →
      IsChars (c :: cs)
  | short {c : Char} {cs : List Char} : c ∈ ['"', '\\', '/', 'b', 'f', 'n', 'r', 't'] →
      IsChars cs → IsChars ('\\' :: c :: cs)
  | unit {ds cs : List Char} : ds.length = 4 → (∀ d ∈ ds, (hexValue? d).isSome) →
      IsChars cs → IsChars ('\\' :: 'u' :: (ds ++ cs))

def IsString (cs : List Char) : Prop :=
  ∃ body, IsChars body ∧ cs = '"' :: (body ++ ['"'])

/-- The numbers of JSON have ASCII digits. -/
def IsNumber (cs : List Char) : Prop :=
  Numeral.Spelled Char.isDigit cs

def IsSpaces (cs : List Char) : Prop :=
  ∀ c ∈ cs, isSpace c = true

/-- A member of an object, with the white space around its key. -/
structure Member where
  before : List Char
  key : List Char
  behind : List Char
  value : List Char

def Member.text (m : Member) : List Char :=
  m.before ++ (m.key ++ (m.behind ++ ':' :: m.value))

/-- The texts of JSON. -/
inductive IsText : List Char → Prop
  | null : IsText "null".toList
  | bool (b : Bool) : IsText (if b then "true".toList else "false".toList)
  | number {cs : List Char} : IsNumber cs → IsText cs
  | string {cs : List Char} : IsString cs → IsText cs
  | emptyArray {space : List Char} : IsSpaces space → IsText ('[' :: (space ++ [']']))
  | array {items : List (List Char)} : items ≠ [] → (∀ item ∈ items, IsText item) →
      IsText ('[' :: ([','].intercalate items ++ [']']))
  | emptyObject {space : List Char} : IsSpaces space → IsText ('{' :: (space ++ ['}']))
  | object {members : List Member} : members ≠ [] →
      (∀ m ∈ members, IsSpaces m.before ∧ IsString m.key ∧ IsSpaces m.behind) →
      (∀ m ∈ members, IsText m.value) →
      IsText ('{' :: ([','].intercalate (members.map Member.text) ++ ['}']))
  | spaced {before cs behind : List Char} : IsSpaces before → IsText cs → IsSpaces behind →
      IsText (before ++ (cs ++ behind))

theorem IsChars.append {cs ds : List Char} (hc : IsChars cs) (hd : IsChars ds) :
    IsChars (cs ++ ds) := by
  induction hc with
  | nil => exact hd
  | plain hlow hquote hbackslash _ ih => exact .plain hlow hquote hbackslash ih
  | short hc _ ih => exact .short hc ih
  | unit hlength hds _ ih =>
    rw [List.cons_append, List.cons_append, List.append_assoc]
    exact .unit hlength hds ih

theorem isSome_hexValue?_of_mem {d : Char} {count n : Nat} (h : d ∈ hexDigits count n) :
    (hexValue? d).isSome := by
  have hdigit : ∀ m < 16, (hexValue? (hexDigit m)).isSome := by decide
  induction count generalizing n with
  | zero => cases h
  | succ count ih =>
    rw [hexDigits, List.mem_append, List.mem_singleton] at h
    obtain h | rfl := h
    · exact ih h
    · exact hdigit _ (Nat.mod_lt _ (by decide))

theorem isChars_units (us : List Nat) :
    IsChars (us.flatMap fun u => '\\' :: 'u' :: hexDigits 4 u) := by
  induction us with
  | nil => exact .nil
  | cons u us ih =>
    rw [List.flatMap_cons, List.cons_append, List.cons_append]
    exact .unit (length_hexDigits 4 u) (fun d hd => isSome_hexValue?_of_mem hd) ih

theorem isChars_escape (c : Char) : IsChars (escape c) := by
  by_cases hplain : IsPlain c
  · rw [escape_of_isPlain hplain]
    exact .plain hplain.space_le hplain.ne_quote hplain.ne_backslash .nil
  unfold escape
  split
  next h => exact .short (by obtain rfl | rfl := h <;> simp) .nil
  split
  next => exact .short (by simp) .nil
  split
  next => exact .short (by simp) .nil
  split
  next => exact .short (by simp) .nil
  split
  next => exact .short (by simp) .nil
  split
  next => exact .short (by simp) .nil
  split
  next hmark _ _ _ _ _ h =>
    exact absurd ⟨h.1, h.2, fun hc => hmark (.inl hc), fun hc => hmark (.inr hc)⟩ hplain
  next => exact isChars_units _

/-- Every text is written as a string of the grammar. -/
theorem isString_writeText (cs : List Char) : IsString (writeText cs) := by
  refine ⟨cs.flatMap escape, ?_, rfl⟩
  induction cs with
  | nil => exact .nil
  | cons c cs ih =>
    rw [List.flatMap_cons]
    exact (isChars_escape c).append ih

/-- The characters that do not stand between quotes. The flag says whether the text begins between
quotes. -/
def outside : Bool → List Char → List Char
  | _, [] => []
  | true, '\\' :: _ :: cs => outside true cs
  | true, c :: cs => outside (c ≠ '"') cs
  | false, c :: cs => if c = '"' then outside true cs else c :: outside false cs

/-- Every quote of the text is closed in it. -/
def Closed (cs : List Char) : Prop :=
  ∀ rest, outside false (cs ++ rest) = outside false cs ++ outside false rest

theorem outside_cons {c : Char} (hc : c ≠ '"') (cs : List Char) :
    outside false (c :: cs) = c :: outside false cs := by
  rw [outside, if_neg hc]

theorem outside_quoted_cons {c : Char} (hquote : c ≠ '"') (hbackslash : c ≠ '\\')
    (cs : List Char) : outside true (c :: cs) = outside true cs := by
  rw [outside]
  · simp [hquote]
  · simp [hbackslash]

theorem outside_quoted_append {ds : List Char} (h : ∀ d ∈ ds, (hexValue? d).isSome)
    (cs : List Char) : outside true (ds ++ cs) = outside true cs := by
  induction ds with
  | nil => rfl
  | cons d ds ih =>
    rw [List.forall_mem_cons] at h
    have hne : ∀ c, hexValue? c = none → d ≠ c := by
      rintro c hc rfl
      simp [hc] at h
    rw [List.cons_append, outside_quoted_cons (hne _ (by decide)) (hne _ (by decide)), ih h.2]

theorem outside_isChars {body : List Char} (h : IsChars body) (rest : List Char) :
    outside true (body ++ '"' :: rest) = outside false rest := by
  induction h with
  | nil => rfl
  | plain _ hquote hbackslash _ ih =>
    rw [List.cons_append, outside_quoted_cons hquote hbackslash, ih]
  | short _ _ ih => rw [List.cons_append, List.cons_append, outside, ih]
  | unit _ hds _ ih =>
    rw [List.cons_append, List.cons_append, outside, List.append_assoc,
      outside_quoted_append hds, ih]

/-- Outside quotes, a string of the grammar has no characters. -/
theorem outside_isString {cs : List Char} (h : IsString cs) (rest : List Char) :
    outside false (cs ++ rest) = outside false rest := by
  obtain ⟨body, hbody, rfl⟩ := h
  rw [List.cons_append, outside, if_pos rfl, List.append_assoc]
  exact outside_isChars hbody rest

theorem closed_nil : Closed [] := fun _ => rfl

theorem closed_of_isString {cs : List Char} (h : IsString cs) : Closed cs := by
  intro rest
  have hnil := outside_isString h []
  rw [List.append_nil] at hnil
  rw [outside_isString h rest, hnil]
  rfl

theorem outside_append_of_bare {cs : List Char} (h : '"' ∉ cs) (rest : List Char) :
    outside false (cs ++ rest) = cs ++ outside false rest := by
  induction cs with
  | nil => rfl
  | cons c cs ih =>
    rw [List.mem_cons, not_or] at h
    rw [List.cons_append, outside_cons (Ne.symm h.1), ih h.2, List.cons_append]

theorem outside_of_bare {cs : List Char} (h : '"' ∉ cs) : outside false cs = cs := by
  simpa [outside] using outside_append_of_bare h []

theorem closed_of_bare {cs : List Char} (h : '"' ∉ cs) : Closed cs := by
  intro rest
  rw [outside_append_of_bare h, outside_of_bare h]

theorem Closed.append {cs ds : List Char} (hc : Closed cs) (hd : Closed ds) : Closed (cs ++ ds) := by
  intro rest
  rw [List.append_assoc, hc, hd, hc, List.append_assoc]

theorem closed_enclosed {first last : Char} {cs : List Char} (h : Closed cs) (hfirst : first ≠ '"')
    (hlast : last ≠ '"') : Closed (first :: (cs ++ [last])) := by
  have hopen : Closed [first] := closed_of_bare (by simpa using hfirst.symm)
  exact hopen.append (h.append (closed_of_bare (by simpa using hlast.symm)))

theorem closed_intercalate {sep : List Char} (hsep : '"' ∉ sep) {items : List (List Char)}
    (h : ∀ item ∈ items, Closed item) : Closed (sep.intercalate items) :=
  intercalate_induction closed_nil Closed.append (closed_of_bare hsep) h

/-- The quotes are closed, and outside them all is in ASCII. -/
structure Tidy (cs : List Char) : Prop where
  closed : Closed cs
  ascii : ∀ c ∈ outside false cs, c.toNat < 128

theorem tidy_of_bare {cs : List Char} (h : ∀ c ∈ cs, c ≠ '"' ∧ c.toNat < 128) : Tidy cs := by
  have hquote : '"' ∉ cs := fun hmem => (h _ hmem).1 rfl
  exact ⟨closed_of_bare hquote, by rw [outside_of_bare hquote]; exact fun c hc => (h c hc).2⟩

theorem Tidy.append {cs ds : List Char} (hc : Tidy cs) (hd : Tidy ds) : Tidy (cs ++ ds) := by
  refine ⟨hc.closed.append hd.closed, fun c hmem => ?_⟩
  rw [hc.closed ds, List.mem_append] at hmem
  exact hmem.elim (hc.ascii c) (hd.ascii c)

theorem tidy_of_isString {cs : List Char} (h : IsString cs) : Tidy cs := by
  refine ⟨closed_of_isString h, ?_⟩
  have hnil := outside_isString h []
  rw [List.append_nil] at hnil
  simp [hnil, outside]

theorem tidy_of_isSpaces {cs : List Char} (h : IsSpaces cs) : Tidy cs := by
  refine tidy_of_bare fun c hc => ?_
  have hspace := h c hc
  simp only [isSpace, Bool.or_eq_true, decide_eq_true_eq] at hspace
  obtain ((rfl | rfl) | rfl) | rfl := hspace <;> decide

theorem lt_of_isDigit {c : Char} (h : c.isDigit = true) : c.toNat < 128 := by
  simp only [Char.isDigit, Bool.and_eq_true, decide_eq_true_eq] at h
  exact Nat.lt_of_le_of_lt (UInt32.le_iff_toNat_le.mp h.2) (by decide)

theorem tidy_of_isNumber {cs : List Char} (h : IsNumber cs) : Tidy cs := by
  have hdigit {c : Char} (hc : c.isDigit = true) : c ≠ '"' ∧ c.toNat < 128 := by
    refine ⟨?_, lt_of_isDigit hc⟩
    rintro rfl
    cases hc
  refine tidy_of_bare fun c hc => ?_
  obtain hc | hc | hc := h.cases_of_mem hc
  · exact hdigit hc
  · exact hdigit hc
  · simp only [List.mem_cons, List.not_mem_nil, or_false] at hc
    obtain rfl | rfl | rfl | rfl | rfl := hc <;> decide

theorem tidy_enclosed {first last : Char} {cs : List Char} (h : Tidy cs)
    (hfirst : first ≠ '"' ∧ first.toNat < 128) (hlast : last ≠ '"' ∧ last.toNat < 128) :
    Tidy (first :: (cs ++ [last])) := by
  have hopen : Tidy [first] := tidy_of_bare (by simpa using hfirst)
  exact hopen.append (h.append (tidy_of_bare (by simpa using hlast)))

/-- Outside quotes a JSON text is in ASCII. -/
theorem tidy_of_isText {cs : List Char} (h : IsText cs) : Tidy cs := by
  have hcomma : Tidy [','] := tidy_of_bare (by simp)
  have hnil : Tidy [] := tidy_of_bare (by simp)
  induction h with
  | null => exact tidy_of_bare (by simp)
  | bool b => cases b <;> exact tidy_of_bare (by simp)
  | number h => exact tidy_of_isNumber h
  | string h => exact tidy_of_isString h
  | emptyArray h | emptyObject h =>
    exact tidy_enclosed (tidy_of_isSpaces h) (by decide) (by decide)
  | array _ _ ih =>
    exact tidy_enclosed (intercalate_induction hnil Tidy.append hcomma ih) (by decide) (by decide)
  | @object members _ hmembers _ ih =>
    refine tidy_enclosed (intercalate_induction hnil Tidy.append hcomma ?_) (by decide) (by decide)
    intro text htext
    obtain ⟨m, hm, rfl⟩ := List.mem_map.mp htext
    obtain ⟨hbefore, hkey, hbehind⟩ := hmembers m hm
    have hcolon : Tidy [':'] := tidy_of_bare (by simp)
    exact (tidy_of_isSpaces hbefore).append ((tidy_of_isString hkey).append
      ((tidy_of_isSpaces hbehind).append (hcolon.append (ih m hm))))
  | spaced hbefore _ hbehind ih =>
    exact (tidy_of_isSpaces hbefore).append (ih.append (tidy_of_isSpaces hbehind))

/-- A text stands outside quotes in a larger one. -/
def Stands (word text : List Char) : Prop :=
  ∃ front behind, text = front ++ (word ++ behind) ∧ Closed front

theorem Stands.refl (cs : List Char) : Stands cs cs := ⟨[], [], by simp, closed_nil⟩

theorem Stands.trans {as bs cs : List Char} (h : Stands as bs) (h' : Stands bs cs) :
    Stands as cs := by
  obtain ⟨front, behind, rfl, hfront⟩ := h
  obtain ⟨front', behind', rfl, hfront'⟩ := h'
  exact ⟨front' ++ front, behind ++ behind', by simp, hfront'.append hfront⟩

theorem Stands.behind {front word text : List Char} (h : Stands word text) (hfront : Closed front) :
    Stands word (front ++ text) := by
  obtain ⟨front', behind, rfl, hfront'⟩ := h
  exact ⟨front ++ front', behind, by simp, hfront.append hfront'⟩

theorem Stands.before {word text : List Char} (h : Stands word text) (behind : List Char) :
    Stands word (text ++ behind) := by
  obtain ⟨front, behind', rfl, hfront⟩ := h
  exact ⟨front, behind' ++ behind, by simp, hfront⟩

theorem Stands.mem_outside {word text : List Char} {c : Char} (h : Stands word text)
    (hword : '"' ∉ word) (hc : c ∈ word) : c ∈ outside false text := by
  obtain ⟨front, behind, rfl, hfront⟩ := h
  rw [hfront, outside_append_of_bare hword]
  simp [hc]

theorem stands_intercalate {sep item : List Char} (hsep : '"' ∉ sep) {items : List (List Char)}
    (h : ∀ item ∈ items, Closed item) (hitem : item ∈ items) :
    Stands item (sep.intercalate items) := by
  induction items with
  | nil => cases hitem
  | cons first items ih =>
    rw [List.forall_mem_cons] at h
    cases items with
    | nil =>
      obtain rfl := List.mem_singleton.mp hitem
      rw [List.intercalate_singleton]
      exact .refl item
    | cons next items =>
      rw [List.intercalate_cons_cons]
      obtain rfl | hitem := List.mem_cons.mp hitem
      · exact ((Stands.refl item).before sep).before _
      · exact (ih h.2 hitem).behind (h.1.append (closed_of_bare hsep))

end Json

end DocAnnotations
