import DocAnnotations.Argument.Meaning
import DocAnnotations.Proofs.Json.Text
import DocAnnotations.Proofs.Numeral
import Mathlib.Data.List.Forall2

/-! JSON texts of argument values are read back as these values. -/
namespace DocAnnotations.Json

/-- What may stand behind a value in a JSON text. -/
def Ends (rest : List Char) : Prop :=
  ∀ c ∈ rest.head?, c = ',' ∨ c = ']' ∨ c = '}'

/-- The text is read as the value, whatever ends it. The recursion needs no more than one level
for each character. -/
structure Denotes (text : List Char) (v : Value) : Prop where
  starts : ∃ c ∈ text.head?, isSpace c = false ∧ c ≠ ']'
  reads : ∀ fuel rest, text.length ≤ fuel → Ends rest →
    readValue fuel (text ++ rest) = some (v, rest)

theorem Ends.stops {rest : List Char} (h : Ends rest) : Numeral.Stops Char.isDigit rest := by
  intro c hc
  rcases h c hc with rfl | rfl | rfl <;> decide

theorem ends_cons {c : Char} (h : c = ',' ∨ c = ']' ∨ c = '}') (cs : List Char) : Ends (c :: cs) := by
  intro d hd
  obtain rfl : c = d := by simpa using hd
  exact h

theorem skipSpace_cons {c : Char} (h : isSpace c = false) (cs : List Char) :
    skipSpace (c :: cs) = c :: cs := by
  simp [skipSpace, h]

theorem denotes_text (s : String) : Denotes (writeText s.toList) (.text s) := by
  refine ⟨⟨'"', rfl, by decide⟩, ?_⟩
  intro fuel rest hf _
  obtain _ | fuel := fuel
  · simp [writeText] at hf
  · rw [writeText_append, readValue]
    simp [readText_escapes]

/-! Numbers and words. -/

theorem readValue_of_head {c : Char} {cs : List Char} (fuel : Nat) (hq : c ≠ '"') (hl : c ≠ '[')
    (hm : c ≠ '{') : readValue (fuel + 1) (c :: cs) =
      (readWord (c :: cs)).or (readNumber (c :: cs)) := by
  rw [readValue] <;> simp [hq, hl, hm]

theorem isDigit_of_cutWhole {cs : List Char} {p : List Char × List Char}
    (h : Numeral.cutWhole Char.isDigit cs = some p) : ∃ d ds, cs = d :: ds ∧ d.isDigit = true := by
  cases cs with
  | nil => simp [Numeral.cutWhole] at h
  | cons d ds =>
    refine ⟨d, ds, rfl, ?_⟩
    by_cases h0 : d = '0'
    · subst h0; rfl
    · by_contra hd
      simp [Numeral.cutWhole, h0, hd] at h

/-- A number begins with a digit, before which a sign may stand. -/
theorem head_of_cut {cs : List Char} {p : Numeral × List Char}
    (h : Numeral.cut Char.isDigit cs = some p) :
    ∃ d ds, d.isDigit = true ∧ (cs = d :: ds ∨ cs = '-' :: d :: ds) := by
  have hw : ∃ q, Numeral.cutWhole Char.isDigit (Numeral.cutMinus cs).2 = some q := by
    cases hc : Numeral.cutWhole Char.isDigit (Numeral.cutMinus cs).2 with
    | none => simp [Numeral.cut, hc] at h
    | some q => exact ⟨q, rfl⟩
  obtain ⟨q, hq⟩ := hw
  obtain ⟨d, ds, hd, hdigit⟩ := isDigit_of_cutWhole hq
  refine ⟨d, ds, hdigit, ?_⟩
  unfold Numeral.cutMinus at hd
  split at hd
  · exact Or.inr (congrArg _ hd)
  · exact Or.inl hd

theorem readWord_of_cut {cs rest : List Char} {p : Numeral × List Char}
    (h : Numeral.cut Char.isDigit cs = some p) : readWord (cs ++ rest) = none := by
  obtain ⟨d, ds, hd, rfl | rfl⟩ := head_of_cut h
  all_goals
    have hne : ∀ c, c.isDigit = false → c ≠ d := by rintro c hc rfl; simp [hd] at hc
    simp [readWord, wordValues, Text.dropFront?, hne 'n' rfl, hne 't' rfl, hne 'f' rfl,
      hne 'N' rfl, hne 'I' rfl, hne '-' rfl]


theorem readNumber_append {cs rest : List Char} {n : Numeral}
    (h : Numeral.cut Char.isDigit cs = some (n, [])) (hn : n.isOversized = false)
    (hr : Ends rest) : readNumber (cs ++ rest) = some (n.value, rest) := by
  have hd : ∀ c ∈ rest.head?, c.isDigit = false := fun c hc => (hr.stops c hc).1
  simp [readNumber, Numeral.cut_append hr.stops hd, h, hn]

/-- A number that is not too long is read as what it spells. -/
theorem denotes_number {cs : List Char} {n : Numeral}
    (h : Numeral.cut Char.isDigit cs = some (n, [])) (hn : n.isOversized = false) :
    Denotes cs n.value := by
  obtain ⟨c, tail, rfl, hc⟩ : ∃ c tail, cs = c :: tail ∧ (c = '-' ∨ c.isDigit = true) := by
    obtain ⟨d, ds, hd, rfl | rfl⟩ := head_of_cut h
    · exact ⟨d, ds, rfl, Or.inr hd⟩
    · exact ⟨'-', d :: ds, rfl, Or.inl rfl⟩
  have hne : ∀ d, d.isDigit = false → d ≠ '-' → c ≠ d := by
    rintro d hd hm rfl
    rcases hc with rfl | hc
    · exact hm rfl
    · simp [hc] at hd
  refine ⟨⟨c, rfl, ?_, hne ']' rfl (by decide)⟩, ?_⟩
  · simp [isSpace, hne ' ' rfl, hne '\t' rfl, hne '\n' rfl, hne '\r' rfl]
  · intro fuel rest hf hr
    obtain _ | fuel := fuel
    · simp at hf
    · rw [List.cons_append, readValue_of_head fuel (hne '"' rfl (by decide))
        (hne '[' rfl (by decide)) (hne '{' rfl (by decide)), ← List.cons_append,
        readWord_of_cut h, readNumber_append h hn hr, Option.none_or]

theorem denotes_word {cs : List Char} {v : Value}
    (hs : ∃ c ∈ cs.head?, isSpace c = false ∧ c ∉ [']', '"', '[', '{'])
    (h : ∀ rest, readWord (cs ++ rest) = some (v, rest)) : Denotes cs v := by
  obtain ⟨c, hc, hsp, hne⟩ := hs
  obtain ⟨tail, rfl⟩ : ∃ tail, cs = c :: tail := by
    cases cs with
    | nil => simp at hc
    | cons d tail => exact ⟨tail, by simpa using hc⟩
  simp only [List.mem_cons, List.not_mem_nil, or_false, not_or] at hne
  refine ⟨⟨c, rfl, hsp, hne.1⟩, ?_⟩
  intro fuel rest hf _
  obtain _ | fuel := fuel
  · simp at hf
  · rw [List.cons_append, readValue_of_head fuel hne.2.1 hne.2.2.1 hne.2.2.2, ← List.cons_append,
      h, Option.some_or]

theorem denotes_null : Denotes "null".toList .null :=
  denotes_word ⟨'n', rfl, by decide⟩ fun _ => rfl

theorem denotes_bool (b : Bool) : Denotes (if b then "true".toList else "false".toList) (.bool b) := by
  cases b
  · exact denotes_word ⟨'f', rfl, by decide⟩ fun _ => rfl
  · exact denotes_word ⟨'t', rfl, by decide⟩ fun _ => rfl


/-! Lists and maps. -/

theorem Denotes.append_starts {text : List Char} {v : Value} (h : Denotes text v)
    (rest : List Char) : ∃ c cs, text ++ rest = c :: cs ∧ isSpace c = false ∧ c ≠ ']' := by
  obtain ⟨c, hc, hs⟩ := h.starts
  cases text with
  | nil => simp at hc
  | cons d cs => exact ⟨c, cs ++ rest, by simpa using hc, hs⟩

theorem Denotes.skipSpace_append {text : List Char} {v : Value} (h : Denotes text v)
    (rest : List Char) : skipSpace (text ++ rest) = text ++ rest := by
  obtain ⟨c, cs, he, hs, -⟩ := h.append_starts rest
  rw [he, skipSpace_cons hs]

theorem skipSpace_comma (cs : List Char) : skipSpace (',' :: cs) = ',' :: cs :=
  skipSpace_cons (by decide) cs

theorem skipSpace_space (cs : List Char) : skipSpace (' ' :: cs) = skipSpace cs := by
  simp [skipSpace, isSpace]

theorem readItems_comma {fuel : Nat} {cs rest after : List Char} {v : Value} {vs : List Value}
    (hv : readValue fuel cs = some (v, ',' :: ' ' :: rest))
    (hs : skipSpace rest = rest) (h : readItems fuel rest = some (vs, after)) :
    readItems (fuel + 1) cs = some (v :: vs, after) := by
  simp [readItems, hv, skipSpace_comma, skipSpace_space, hs, h]

theorem readItems_close {fuel : Nat} {cs rest : List Char} {v : Value}
    (hv : readValue fuel cs = some (v, ']' :: rest)) :
    readItems (fuel + 1) cs = some ([v], rest) := by
  have hs : skipSpace (']' :: rest) = ']' :: rest := skipSpace_cons (by decide) rest
  simp [readItems, hv, hs]

theorem prefix_intercalate {α : Type} (sep a : List α) (more : List (List α)) :
    ∃ rest, sep.intercalate (a :: more) = a ++ rest := by
  cases more with
  | nil => exact ⟨[], by simp⟩
  | cons b more => exact ⟨_, by rw [List.intercalate_cons_cons, List.append_assoc]⟩

/-- The items of a list and the bracket behind them. -/
theorem readItems_intercalate {texts : List (List Char)} {vs : List Value}
    (h : List.Forall₂ Denotes texts vs) (hne : texts ≠ []) (fuel : Nat) (rest : List Char)
    (hf : ([',', ' '].intercalate texts).length < fuel) :
    readItems fuel ([',', ' '].intercalate texts ++ ']' :: rest) = some (vs, rest) := by
  induction h generalizing fuel with
  | nil => exact absurd rfl hne
  | @cons text v texts vs hv hvs ih =>
    obtain _ | fuel := fuel
    · omega
    cases hvs with
    | nil =>
      simp only [List.intercalate_singleton] at hf ⊢
      exact readItems_close (hv.reads fuel _ (by omega) (ends_cons (by simp) _))
    | @cons text' v' texts vs hv' hvs =>
      rw [List.intercalate_cons_cons] at hf ⊢
      simp only [List.length_append, List.length_cons] at hf
      have hitem := hv.reads fuel (',' :: ' ' :: ([',', ' '].intercalate (text' :: texts) ++
        ']' :: rest)) (by omega) (ends_cons (by simp) _)
      have hmore := ih (by simp) fuel (by omega)
      obtain ⟨tail, htail⟩ := prefix_intercalate [',', ' '] text' texts
      have hspace : skipSpace ([',', ' '].intercalate (text' :: texts) ++ ']' :: rest) =
          [',', ' '].intercalate (text' :: texts) ++ ']' :: rest := by
        rw [htail, List.append_assoc, hv'.skipSpace_append]
      simpa using readItems_comma hitem hspace hmore

theorem readValue_list {fuel : Nat} {c : Char} {cs rest : List Char} {vs : List Value}
    (hs : isSpace c = false) (hc : c ≠ ']') (h : readItems fuel (c :: cs) = some (vs, rest)) :
    readValue (fuel + 1) ('[' :: c :: cs) = some (.list vs, rest) := by
  rw [readValue, skipSpace_cons hs]
  simp [hc, h]

theorem denotes_list {texts : List (List Char)} {vs : List Value}
    (h : List.Forall₂ Denotes texts vs) : Denotes (Argument.jsonList texts) (.list vs) := by
  refine ⟨⟨'[', rfl, by decide⟩, ?_⟩
  intro fuel rest hf _
  have htext : Argument.jsonList texts ++ rest =
      '[' :: ([',', ' '].intercalate texts ++ ']' :: rest) := by
    simp [Argument.jsonList]
  have hlen : (Argument.jsonList texts).length = ([',', ' '].intercalate texts).length + 2 := by
    simp [Argument.jsonList]
  obtain _ | fuel := fuel
  · omega
  rw [htext]
  cases h with
  | nil => rfl
  | @cons text v texts vs hv hvs =>
    have hitems := readItems_intercalate (.cons hv hvs) (by simp) fuel rest (by omega)
    obtain ⟨tail, htail⟩ := prefix_intercalate [',', ' '] text texts
    obtain ⟨c, cs, hcs, hs, hc⟩ := hv.append_starts (tail ++ ']' :: rest)
    rw [htail, List.append_assoc, hcs] at hitems ⊢
    exact readValue_list hs hc hitems

/-- The JSON text of one member of a map. -/
def memberText (m : String × List Char) : List Char :=
  writeText m.1.toList ++ ": ".toList ++ m.2

theorem jsonMap_eq (ms : List (String × List Char)) :
    Argument.jsonMap ms = '{' :: [',', ' '].intercalate (ms.map memberText) ++ ['}'] := rfl

theorem memberText_append (m : String × List Char) (rest : List Char) :
    memberText m ++ rest =
      '"' :: (m.1.toList.flatMap escape ++ '"' :: ':' :: ' ' :: (m.2 ++ rest)) := by
  simp [memberText, writeText]

theorem readMembers_comma {fuel : Nat} {key : String} {text rest after : List Char} {v : Value}
    {ms : List (String × Value)} (ht : skipSpace text = text)
    (hv : readValue fuel text = some (v, ',' :: ' ' :: rest))
    (hs : skipSpace rest = rest) (h : readMembers fuel rest = some (ms, after)) :
    readMembers (fuel + 1) ('"' :: (key.toList.flatMap escape ++ '"' :: ':' :: ' ' :: text)) =
      some ((key, v) :: ms, after) := by
  have hc : skipSpace (':' :: ' ' :: text) = ':' :: ' ' :: text := skipSpace_cons (by decide) _
  simp [readMembers, readText_escapes, hc, skipSpace_space, ht, hv, skipSpace_comma, hs, h]

theorem readMembers_close {fuel : Nat} {key : String} {text rest : List Char} {v : Value}
    (ht : skipSpace text = text) (hv : readValue fuel text = some (v, '}' :: rest)) :
    readMembers (fuel + 1) ('"' :: (key.toList.flatMap escape ++ '"' :: ':' :: ' ' :: text)) =
      some ([(key, v)], rest) := by
  have hc : skipSpace (':' :: ' ' :: text) = ':' :: ' ' :: text := skipSpace_cons (by decide) _
  have hb : skipSpace ('}' :: rest) = '}' :: rest := skipSpace_cons (by decide) rest
  simp [readMembers, readText_escapes, hc, skipSpace_space, ht, hv, hb]

/-- Members with texts that denote the values of other members. -/
def DenotesMember (m : String × List Char) (n : String × Value) : Prop :=
  m.1 = n.1 ∧ Denotes m.2 n.2

/-- The members of a map and the brace behind them. -/
theorem readMembers_intercalate {ms : List (String × List Char)} {ns : List (String × Value)}
    (h : List.Forall₂ DenotesMember ms ns) (hne : ms ≠ []) (fuel : Nat) (rest : List Char)
    (hf : ([',', ' '].intercalate (ms.map memberText)).length < fuel) :
    readMembers fuel ([',', ' '].intercalate (ms.map memberText) ++ '}' :: rest) =
      some (ns, rest) := by
  induction h generalizing fuel with
  | nil => exact absurd rfl hne
  | @cons m n ms ns hm hms ih =>
    obtain ⟨key, v⟩ := n
    obtain ⟨rfl, hv⟩ := hm
    obtain _ | fuel := fuel
    · omega
    have hlen : m.2.length ≤ (memberText m).length := by
      simp only [memberText, List.length_append]
      omega
    cases hms with
    | nil =>
      simp only [List.map_cons, List.map_nil, List.intercalate_singleton] at hf ⊢
      rw [memberText_append]
      exact readMembers_close (hv.skipSpace_append _)
        (hv.reads fuel _ (by omega) (ends_cons (by simp) _))
    | @cons m' n' ms ns hm' hms =>
      rw [List.map_cons, List.map_cons, List.intercalate_cons_cons] at hf ⊢
      simp only [List.length_append, List.length_cons] at hf
      have hitem := hv.reads fuel (',' :: ' ' :: ([',', ' '].intercalate
        ((m' :: ms).map memberText) ++ '}' :: rest)) (by omega) (ends_cons (by simp) _)
      have hmore := ih (by simp) fuel (by simp only [List.map_cons]; omega)
      have hspace : skipSpace ([',', ' '].intercalate ((m' :: ms).map memberText) ++ '}' :: rest) =
          [',', ' '].intercalate ((m' :: ms).map memberText) ++ '}' :: rest := by
        obtain ⟨tail, htail⟩ := prefix_intercalate [',', ' '] (memberText m') (ms.map memberText)
        rw [List.map_cons, htail, List.append_assoc, memberText_append,
          skipSpace_cons (by decide)]
      simpa [memberText_append] using
        readMembers_comma (hv.skipSpace_append _) hitem hspace hmore

theorem denotes_map {ms : List (String × List Char)} {ns : List (String × Value)}
    (h : List.Forall₂ DenotesMember ms ns) :
    Denotes (Argument.jsonMap ms) (.map (Entries.ofPairs ns)) := by
  refine ⟨⟨'{', rfl, by decide⟩, ?_⟩
  intro fuel rest hf _
  have htext : Argument.jsonMap ms ++ rest =
      '{' :: ([',', ' '].intercalate (ms.map memberText) ++ '}' :: rest) := by
    simp [jsonMap_eq]
  have hlen : (Argument.jsonMap ms).length =
      ([',', ' '].intercalate (ms.map memberText)).length + 2 := by
    simp [jsonMap_eq]
  obtain _ | fuel := fuel
  · omega
  rw [htext]
  cases h with
  | nil => rfl
  | @cons m n ms ns hm hms =>
    have hitems := readMembers_intercalate (.cons hm hms) (by simp) fuel rest (by omega)
    obtain ⟨tail, htail⟩ := prefix_intercalate [',', ' '] (memberText m) (ms.map memberText)
    rw [List.map_cons, htail, List.append_assoc, memberText_append] at hitems ⊢
    rw [readValue, skipSpace_cons (by decide)]
    simp [hitems]

/-- A JSON text that denotes a value is read as this value. -/
theorem Denotes.read? {cs : List Char} {v : Value} (h : Denotes cs v) :
    Json.read? (String.ofList cs) = some v := by
  obtain ⟨c, tail, hc, hs, -⟩ := h.append_starts []
  have hread := h.reads (2 * cs.length + 1) [] (by omega) (by simp [Ends])
  rw [List.append_nil] at hc hread
  simp only [Json.read?, String.toList_ofList]
  rw [hc, skipSpace_cons hs, ← hc, hread]
  rfl

end DocAnnotations.Json
