import DocAnnotations.Factory.Model

/-!
The mapping vocabulary: annotation types that relate classes to tables.
-/

namespace DocAnnotations.Vocabulary

open Factory

/-- The namespace of the vocabulary. -/
def scope : String := "DocblockReader\\Mapping"

/-- Relates a class to a table. -/
def table : Factory :=
  model "Table" [⟨"name", .text, some (.text "")⟩,
    ⟨"repository_class_name", .text, some (.text "")⟩]

/-- Relates a property to a column. -/
def column : Factory :=
  model "Column" [⟨"name", .text, some (.text "")⟩, ⟨"type", .textOrNull, some .null⟩,
    ⟨"length", .integerOrNull, some .null⟩, ⟨"nullable", .flag, some (.bool false)⟩,
    ⟨"is_primary_key", .flag, some (.bool false)⟩]

/-- Says that a property relates to other entities. The child class is set by a method only. -/
def relationship : Factory :=
  model "Relationship" [⟨"relationship_type", .text, none⟩,
    ⟨"is_primary_key", .flag, some (.bool false)⟩, ⟨"mapped_by", .text, some (.text "")⟩,
    ⟨"lazy_load", .flagOrNull, some .null⟩, ⟨"join_table", .text, some (.text "")⟩,
    ⟨"join_column", .text, some (.text "")⟩, ⟨"source_join_column", .text, some (.text "")⟩,
    ⟨"join_type", .text, some (.text "LEFT")⟩, ⟨"order_by", .anything, some (.list [])⟩,
    ⟨"cascade_deletes", .flag, some (.bool false)⟩, ⟨"orphan_removal", .flag, some (.bool false)⟩]
    [("_child_class_name", .text "")]
    [("get_child_class_name", fun _ _ => .error .wrongArguments),
     ("set_child_class_name", writeField "_child_class_name")]
    ["ONE_TO_ONE", "ONE_TO_MANY", "MANY_TO_ONE", "MANY_TO_MANY"]

/-- The order of a collection. -/
def orderBy : Factory :=
  model "OrderBy" [⟨"order_by", .textsOrTextMap, none⟩]

/-- The types of the vocabulary. -/
def types : List Factory := [table, column, relationship, orderBy]

/-- The name under which a type of the vocabulary is known. -/
def qualifiedName (factory : Factory) : String :=
  QualifiedName.below scope factory.typeName

end DocAnnotations.Vocabulary
