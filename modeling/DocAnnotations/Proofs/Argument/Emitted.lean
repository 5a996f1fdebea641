import DocAnnotations.Proofs.Argument.Scalars
import DocAnnotations.Proofs.Argument.Written
import DocAnnotations.Proofs.Json.Grammar

/-! When the JSON text of an argument text is in the grammar of JSON. -/
namespace DocAnnotations

namespace Json

/-- Behind every comma but the last stands a space. -/
theorem intercalate_comma_space (item : List Char) (items : List (List Char)) :
    [',', ' '].intercalate (item :: items) = [','].intercalate (item :: items.map (' ' :: ·)) := by
  induction items generalizing item with
  | nil => simp
  | cons next items ih =>
    rw [List.intercalate_cons_cons, ih, List.map_cons, List.intercalate_cons_cons]
    cases items <;> simp

theorem isSpaces_nil : IsSpaces [] := nofun

theorem isSpaces_space : IsSpaces [' '] := by simp [IsSpaces, isSpace]

theorem isText_space {cs : List Char} (h : IsText cs) : IsText (' ' :: cs) := by
  simpa using IsText.spaced isSpaces_space h isSpaces_nil

theorem isText_jsonList {items : List (List Char)} (h : ∀ item ∈ items, IsText item) :
    IsText (Argument.jsonList items) := by
  cases items with
  | nil => exact .emptyArray isSpaces_nil
  | cons item items =>
    rw [List.forall_mem_cons] at h
    have htexts : ∀ text ∈ item :: items.map (' ' :: ·), IsText text := by
      refine List.forall_mem_cons.mpr ⟨h.1, fun text htext => ?_⟩
      obtain ⟨other, hother, rfl⟩ := List.mem_map.mp htext
      exact isText_space (h.2 other hother)
    have := IsText.array (by simp) htexts
    rwa [← intercalate_comma_space] at this

/-- A member as it is written behind some white space. -/
def memberOf (before : List Char) (m : String × List Char) : Member :=
  ⟨before, writeText m.1.toList, [], ' ' :: m.2⟩

theorem isText_jsonMap {members : List (String × List Char)} (h : ∀ m ∈ members, IsText m.2) :
    IsText (Argument.jsonMap members) := by
  cases members with
  | nil => exact .emptyObject isSpaces_nil
  | cons m members =>
    have hshape : ∀ n ∈ memberOf [] m :: members.map (memberOf [' ']),
        IsSpaces n.before ∧ IsString n.key ∧ IsSpaces n.behind := by
      refine List.forall_mem_cons.mpr ⟨⟨isSpaces_nil, isString_writeText _, isSpaces_nil⟩, ?_⟩
      intro n hn
      obtain ⟨other, -, rfl⟩ := List.mem_map.mp hn
      exact ⟨isSpaces_space, isString_writeText _, isSpaces_nil⟩
    have hvalues : ∀ n ∈ memberOf [] m :: members.map (memberOf [' ']), IsText n.value := by
      rw [List.forall_mem_cons] at h
      refine List.forall_mem_cons.mpr ⟨isText_space h.1, fun n hn => ?_⟩
      obtain ⟨other, hother, rfl⟩ := List.mem_map.mp hn
      exact isText_space (h.2 other hother)
    have hobject := IsText.object (by simp) hshape hvalues
    have htexts : (memberOf [] m :: members.map (memberOf [' '])).map Member.text =
        memberText m :: (members.map memberText).map (' ' :: ·) := by
      simp [memberOf, Member.text, memberText, Function.comp_def]
    rwa [htexts, ← intercalate_comma_space, ← List.map_cons] at hobject

theorem closed_jsonList {items : List (List Char)} (h : ∀ item ∈ items, Closed item) :
    Closed (Argument.jsonList items) :=
  closed_enclosed (closed_intercalate (by decide) h) (by decide) (by decide)

theorem closed_memberKey (key : String) : Closed (writeText key.toList ++ [':', ' ']) :=
  (closed_of_isString (isString_writeText _)).append (closed_of_bare (by decide))

theorem closed_memberText {m : String × List Char} (h : Closed m.2) : Closed (memberText m) :=
  (closed_memberKey m.1).append h

theorem closed_jsonMap {members : List (String × List Char)} (h : ∀ m ∈ members, Closed m.2) :
    Closed (Argument.jsonMap members) := by
  refine closed_enclosed (closed_intercalate (by decide) ?_) (by decide) (by decide)
  intro text htext
  obtain ⟨m, hm, rfl⟩ := List.mem_map.mp htext
  exact closed_memberText (h m hm)

theorem stands_enclosed {first last : Char} {cs word : List Char} (h : Stands word cs)
    (hfirst : first ≠ '"') : Stands word (first :: (cs ++ [last])) := by
  have hopen : Closed [first] := closed_of_bare (by simpa using hfirst.symm)
  exact (h.before [last]).behind hopen

theorem stands_jsonList {items : List (List Char)} (h : ∀ item ∈ items, Closed item)
    {item : List Char} (hitem : item ∈ items) : Stands item (Argument.jsonList items) :=
  stands_enclosed (stands_intercalate (by decide) h hitem) (by decide)

theorem stands_jsonMap {members : List (String × List Char)} (h : ∀ m ∈ members, Closed m.2)
    {m : String × List Char} (hm : m ∈ members) : Stands m.2 (Argument.jsonMap members) := by
  have htexts : ∀ text ∈ members.map memberText, Closed text := by
    intro text htext
    obtain ⟨n, hn, rfl⟩ := List.mem_map.mp htext
    exact closed_memberText (h n hn)
  have hmember : Stands m.2 (memberText m) := (Stands.refl m.2).behind (closed_memberKey m.1)
  exact hmember.trans (stands_enclosed
    (stands_intercalate (by decide) htexts (List.mem_map_of_mem hm)) (by decide))

end Json

namespace Argument

open Text

/-- Every content is a member of the map, or one of the list that is. -/
theorem Contents.exists_member {α : Type} (list : List α → α) {contents : Contents α} {x : α}
    (hx : x ∈ contents.all) : (∃ m ∈ contents.members list, m.2 = x) ∨
      ∃ m ∈ contents.members list, m.2 = list contents.unkeyed ∧ x ∈ contents.unkeyed := by
  obtain hx | hx := List.mem_append.mp hx
  · obtain ⟨_ | ⟨one, _ | ⟨other, rest⟩⟩, keyed⟩ := contents
    · cases hx
    · exact .inl ⟨(unkeyedName, one), by simp [members], (List.mem_singleton.mp hx).symm⟩
    · exact .inr ⟨_, List.mem_cons_self, rfl, hx⟩
  · obtain ⟨m, hm, rfl⟩ := List.mem_map.mp hx
    refine .inl ⟨m, ?_, rfl⟩
    obtain ⟨_ | ⟨one, _ | ⟨other, rest⟩⟩, keyed⟩ := contents
    · exact hm
    · exact List.mem_cons_of_mem _ hm
    · exact List.mem_cons_of_mem _ hm

section Group

variable {elements : List (Option String × List Char)}

theorem all_of_isEmpty {contents : Contents (List Char)} (h : contents.keyed.isEmpty = true) :
    contents.all = contents.unkeyed := by
  simp [Contents.all, List.isEmpty_iff.mp h]

theorem groupJson_induction {P : List Char → Prop}
    (hlist : ∀ items, (∀ item ∈ items, P item) → P (jsonList items))
    (hmap : ∀ members : List (String × List Char), (∀ m ∈ members, P m.2) → P (jsonMap members))
    (h : ∀ x ∈ (Contents.ofElements elements).all, P x) : P (groupJson elements) := by
  unfold groupJson
  dsimp only
  split
  next hempty => exact hlist _ fun x hx => h x (List.mem_append_left _ hx)
  next => exact hmap _ (Contents.forall_members hlist h)

theorem stands_groupJson (h : ∀ x ∈ (Contents.ofElements elements).all, Json.Closed x)
    {x : List Char} (hx : x ∈ (Contents.ofElements elements).all) :
    Json.Stands x (groupJson elements) := by
  unfold groupJson
  dsimp only
  split
  next hempty =>
    rw [all_of_isEmpty hempty] at h hx
    exact Json.stands_jsonList h hx
  next =>
    have hmembers := Contents.forall_members (fun _ => Json.closed_jsonList) h
    obtain ⟨m, hm, rfl⟩ | ⟨m, hm, heq, hx⟩ := Contents.exists_member jsonList hx
    · exact Json.stands_jsonMap hmembers hm
    · have hin : Json.Stands x m.2 := by
        rw [heq]
        exact Json.stands_jsonList (fun y hy => h y (List.mem_append_left _ hy)) hx
      exact hin.trans (Json.stands_jsonMap hmembers hm)

end Group

theorem proper_isDecimalDigit : Numeral.Proper isDecimalDigit := by
  simp [Numeral.Proper, isDecimalDigit]

/-- A number begins with an ASCII digit or a sign. -/
theorem exists_head_of_spelled {isDigit : Char → Bool} {cs : List Char}
    (h : Numeral.Spelled isDigit cs) :
    ∃ c ds, cs = c :: ds ∧ (c = '-' ∨ c.isDigit = true) := by
  obtain ⟨minus, whole, fraction, exponent, rfl, rfl | rfl, hwhole, -⟩ := h
  · obtain rfl | ⟨c, ds, rfl, -, hdigit, -⟩ := hwhole
    · exact ⟨'0', _, rfl, .inr rfl⟩
    · exact ⟨c, _, rfl, .inr hdigit⟩
  · exact ⟨'-', _, rfl, .inl rfl⟩

/-- The words that are taken for numbers are those that the grammar has, with digits of any
script. -/
theorem ofWord_eq_number_iff {word : String} :
    Scalar.ofWord word = .number ↔ Numeral.Spelled isDecimalDigit word.toList := by
  rw [← Numeral.isNumeral_iff proper_isDecimalDigit]
  refine ⟨Scalar.isNumeral_of_ofWord, fun hn => ?_⟩
  obtain ⟨c, cs, hcs, hc⟩ :=
    exists_head_of_spelled ((Numeral.isNumeral_iff proper_isDecimalDigit).mp hn)
  have hmem : c ∈ "-0123456789".toList := by
    obtain rfl | hc := hc
    · decide
    · exact List.mem_cons_of_mem _ (mem_of_isDigit hc)
  have hhead : ∀ c ∈ "-0123456789".toList, c.toNat < 128 ∧ c.toLower ∉ ['n', 't', 'f'] := by
    simp
  rw [ofWord_of_head hcs (hhead c hmem).1 (hhead c hmem).2, if_pos hn]

theorem ofWord_eq_text {word : String} (hliteral : lower word ∉ ["null", "true", "false"])
    (hnumber : ¬ Numeral.Spelled isDecimalDigit word.toList) : Scalar.ofWord word = .text := by
  rw [← Numeral.isNumeral_iff proper_isDecimalDigit] at hnumber
  simp only [List.mem_cons, List.not_mem_nil, or_false, not_or] at hliteral
  simp [Scalar.ofWord, hliteral, hnumber]

/-- A number in ASCII is a number of JSON. -/
theorem isNumber_of_ascii {cs : List Char} (h : Numeral.Spelled isDecimalDigit cs)
    (hascii : ∀ c ∈ cs, c.toNat < 128) : Json.IsNumber cs := by
  rw [← Numeral.isNumeral_iff proper_isDecimalDigit] at h
  refine Numeral.spelled_of_isNumeral ?_
  have hcut : Numeral.cut isDecimalDigit cs = Numeral.cut Char.isDigit cs :=
    Numeral.cut_congr fun c hc => by simp [isDecimalDigit, hascii c hc]
  rwa [Numeral.isNumeral, hcut] at h

theorem quote_notMem_of_spelled {cs : List Char} (h : Numeral.Spelled isDecimalDigit cs) :
    '"' ∉ cs := by
  intro hc
  obtain hc | hc | hc := h.cases_of_mem hc
  · cases hc
  · exact absurd hc (by decide)
  · simp at hc

theorem closed_scalar (word : String) : Json.Closed (Scalar.json word) := by
  unfold Scalar.json
  cases hw : Scalar.ofWord word with
  | null =>
    have hnull : '"' ∉ "null".toList := by decide
    exact Json.closed_of_bare hnull
  | bool b =>
    have hbool : '"' ∉ (if b then "true" else "false").toList := by cases b <;> decide
    cases b <;> exact Json.closed_of_bare hbool
  | number => exact Json.closed_of_bare (quote_notMem_of_spelled (ofWord_eq_number_iff.mp hw))
  | text => exact Json.closed_of_isString (Json.isString_writeText _)

theorem isText_scalar {word : String}
    (h : Numeral.Spelled isDecimalDigit word.toList → Json.IsNumber word.toList) :
    Json.IsText (Scalar.json word) := by
  unfold Scalar.json
  cases hw : Scalar.ofWord word with
  | null => exact .null
  | bool b =>
    have := Json.IsText.bool b
    cases b <;> exact this
  | number => exact .number (h (ofWord_eq_number_iff.mp hw))
  | text => exact .string (Json.isString_writeText _)

namespace Term

theorem mem_all_elementJsons {elements : List (Option String × Term)} {x : List Char} :
    x ∈ (Contents.ofElements (elementJsons elements)).all ↔ ∃ e ∈ elements, e.2.json = x := by
  simp [elementJsons_eq_map, Contents.mem_all]

theorem mem_scalars_group {bracket : Bracket} {elements : List (Option String × Term)}
    {word : String} :
    word ∈ (group bracket elements).scalars ↔ ∃ e ∈ elements, word ∈ e.2.scalars := by
  rw [scalars_group, List.mem_flatMap]
  constructor
  · rintro ⟨t, ht, hword⟩
    obtain ⟨e, he, rfl⟩ := Contents.mem_all.mp ht
    exact ⟨e, he, hword⟩
  · rintro ⟨e, he, hword⟩
    exact ⟨e.2, Contents.mem_all.mpr ⟨e, he, rfl⟩, hword⟩

theorem closed_json (t : Term) : Json.Closed t.json := by
  induction t with
  | text s => exact Json.closed_of_isString (Json.isString_writeText _)
  | word s => exact closed_scalar s
  | group bracket elements ih =>
    refine groupJson_induction (fun _ => Json.closed_jsonList) (fun _ => Json.closed_jsonMap) ?_
    intro x hx
    obtain ⟨e, he, rfl⟩ := mem_all_elementJsons.mp hx
    exact ih e he

/-- The JSON text of every word stands outside quotes in that of the term. -/
theorem stands_json {t : Term} {word : String} (h : word ∈ t.scalars) :
    Json.Stands (Scalar.json word) t.json := by
  induction t with
  | text => cases h
  | word s =>
    obtain rfl := List.mem_singleton.mp h
    exact .refl _
  | group bracket elements ih =>
    obtain ⟨e, he, hword⟩ := mem_scalars_group.mp h
    refine (ih e he hword).trans (stands_groupJson ?_ (mem_all_elementJsons.mpr ⟨e, he, rfl⟩))
    intro x hx
    obtain ⟨other, -, rfl⟩ := mem_all_elementJsons.mp hx
    exact other.2.closed_json

theorem isText_json {t : Term}
    (h : ∀ word ∈ t.scalars, Numeral.Spelled isDecimalDigit word.toList →
      Json.IsNumber word.toList) : Json.IsText t.json := by
  induction t with
  | text s => exact .string (Json.isString_writeText _)
  | word s => exact isText_scalar (h s (by simp [scalars]))
  | group bracket elements ih =>
    refine groupJson_induction (fun _ => Json.isText_jsonList) (fun _ => Json.isText_jsonMap) ?_
    intro x hx
    obtain ⟨e, he, rfl⟩ := mem_all_elementJsons.mp hx
    exact ih e he fun word hword => h word (mem_scalars_group.mpr ⟨e, he, hword⟩)

/-- A number that stands in a JSON text is a number of JSON. -/
theorem isNumber_of_isText {t : Term} (h : Json.IsText t.json) {word : String}
    (hword : word ∈ t.scalars) (hn : Numeral.Spelled isDecimalDigit word.toList) :
    Json.IsNumber word.toList := by
  have hstands := stands_json hword
  rw [Scalar.json, ofWord_eq_number_iff.mpr hn] at hstands
  exact isNumber_of_ascii hn fun c hc => (Json.tidy_of_isText h).ascii c
    (hstands.mem_outside (quote_notMem_of_spelled hn) hc)

end Term

/-- The JSON text of an argument text is in the grammar of JSON exactly if every word that is spelled
like a number, with digits of any script, is a number of JSON. Words that are spelled like neither
number nor null nor truth value are strings in it, and are read back from it. -/
theorem normalize_isText_iff {raw text : String} (h : normalize raw = .ok text) :
    ∃ term, Term.ofText raw.toList = .ok term ∧
      (∀ word ∈ term.scalars, Json.Stands (Scalar.json word) text.toList ∧
        (lower word ∉ ["null", "true", "false"] →
          ¬ Numeral.Spelled isDecimalDigit word.toList →
            Json.IsString (Scalar.json word) ∧ Json.Denotes (Scalar.json word) (.text word))) ∧
      (Json.IsText text.toList ↔ ∀ word ∈ term.scalars,
        Numeral.Spelled isDecimalDigit word.toList → Json.IsNumber word.toList) := by
  unfold normalize at h
  split at h
  next term ht =>
    cases h
    rw [String.toList_ofList]
    refine ⟨term, ht, fun word hword => ⟨Term.stands_json hword, fun hliteral hnumber => ?_⟩,
      fun htext word hword => Term.isNumber_of_isText htext hword, Term.isText_json⟩
    rw [Scalar.json, ofWord_eq_text hliteral hnumber]
    exact ⟨Json.isString_writeText _, Json.denotes_text word⟩
  next => cases h

/-- Words of another script, a literal in capitals, a number and what only looks like one. -/
theorem normalize_isText_iff_mixed :
    let raw := "(é b, TRUE, -2.5e+1, k=\x7b\"x\", 007\x7d)"
    let text := "\x7b\"value\": [\"\\u00e9 b\", true, -2.5e+1], \"k\": [\"x\", \"007\"]\x7d"
    normalize raw = .ok text ∧ Json.IsText text.toList := by
  intro raw text
  have htext : normalize raw = .ok text := by decide +kernel
  have hscalars : (Term.ofText raw.toList).map Term.scalars =
      .ok ["é b", "TRUE", "-2.5e+1", "007"] := by decide +kernel
  obtain ⟨term, hterm, -, hiff⟩ := normalize_isText_iff htext
  rw [hterm] at hscalars
  refine ⟨htext, hiff.mpr fun word hword hspelled => ?_⟩
  have hall : ∀ w ∈ ["é b", "TRUE", "-2.5e+1", "007"],
      Numeral.isNumeral isDecimalDigit w.toList = true →
        Numeral.isNumeral Char.isDigit w.toList = true := by decide +kernel
  rw [Except.ok.inj hscalars] at hword
  exact Numeral.spelled_of_isNumeral
    (hall word hword ((Numeral.isNumeral_iff proper_isDecimalDigit).mpr hspelled))

/-- A digit of another script behind the first one. -/
theorem normalize_arabic_digit :
    normalize "(1٣)" = .ok "[1٣]" ∧ ¬ Json.IsText "[1٣]".toList := by
  refine ⟨by decide +kernel, fun h => ?_⟩
  have hascii := (Json.tidy_of_isText h).ascii '٣' (by decide +kernel)
  revert hascii
  decide

end Argument

end DocAnnotations
