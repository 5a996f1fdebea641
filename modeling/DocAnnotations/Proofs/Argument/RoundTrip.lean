import DocAnnotations.Proofs.Argument.Written

/-! Attributes without children, printed and read again. -/
namespace DocAnnotations.Argument.Arguments

variable {arguments : Arguments Empty}

/-- The JSON text of printed arguments holds their attributes. Without arguments it is an empty
list. -/
theorem normalize_print (h : arguments.Valid) (hd : arguments.depth ≤ checkBalance.maxNesting) :
    ∃ text, normalize (String.ofList (arguments.term Empty.elim).print) = .ok text ∧
      Json.read? text = some (if arguments = [] then .list []
        else .map (arguments.values Empty.elim)) := by
  have hword : ∀ b : Empty, PlainWord b.elim := nofun
  have htext : normalize (String.ofList (arguments.term Empty.elim).print) =
      .ok (String.ofList (arguments.term Empty.elim).json) := by
    simp only [normalize, String.toList_ofList, ofText_print h hd hword]
  have hchild : (fun b : Empty => Value.text b.elim) = Empty.elim := funext nofun
  refine ⟨_, htext, ?_⟩
  rw [(Term.denotes_json (fault?_term h hword)).read?, value_term h hword, hchild]

/-- Printed attributes are read back with their keys in the same order, in every map, and so is
their JSON text. -/
theorem attributes_of_print (h : arguments.Valid)
    (hd : arguments.depth ≤ checkBalance.maxNesting) :
    attributes (String.ofList (arguments.term Empty.elim).print) =
        .ok (arguments.values Empty.elim) ∧
      ∃ text, normalize (String.ofList (arguments.term Empty.elim).print) = .ok text ∧
        Json.read? text = some (if arguments = [] then .list []
          else .map (arguments.values Empty.elim)) := by
  have hchild : (fun b : Empty => Value.text b.elim) = Empty.elim := funext nofun
  have hread := attributes_print h hd (nofun : ∀ b : Empty, PlainWord b.elim)
  rw [hchild] at hread
  exact ⟨hread, normalize_print h hd⟩

/-- Quotes, brackets and a character beyond the basic plane in texts, and maps in lists. -/
theorem attributes_of_print_nested :
    let text := "(\"b \"\" (=,\"=\x7b\"\"\"\\\x01😀)\", \x7b\x7d, \x7b\"x\"=-12, \"a\"=null\x7d\x7d, " ++
      "\"a\"=true)"
    attributes text = .ok [("b \" (=,", .list [.text "\"\\\x01😀)", .list [],
      .map [("x", .int (-12)), ("a", .null)]]), ("a", .bool true)] := by
  intro text
  let arguments : Arguments Empty := [("b \" (=,", .list [.atom (.text "\"\\\x01😀)"), .list [],
    .map [("x", .atom (.int (-12))), ("a", .atom .null)]]), ("a", .atom (.bool true))]
  have hvalid : arguments.Valid := by
    have hinner : ValidKeys ["x", "a"] := by decide
    have hint : (Nat.toDigits 10 12).length ≤ Numeral.maxDigits := by decide
    have hclean : Clean "\"\\\x01😀)" := by decide
    refine ⟨by decide, List.forall_mem_cons.mpr ⟨?_, List.forall_mem_cons.mpr ⟨?_, nofun⟩⟩⟩
    · simp [hinner, hint, hclean, Atom.Valid]
    · simp [Atom.Valid]
  have hdepth : arguments.depth ≤ checkBalance.maxNesting := by decide
  have hprint : String.ofList (arguments.term Empty.elim).print = text := by decide
  have hread := (attributes_of_print hvalid hdepth).1
  rw [hprint] at hread
  rw [hread]
  simp [arguments, values, Atom.value]

end DocAnnotations.Argument.Arguments
