import BareComponent.Configuration
import BareComponent.Proofs.Json.Nested

/-! # Configurations are read back

A configuration is printed without its empty tables, and what is left out is read as empty. So a
configuration is read back from its text, if the values in its tables can be; and of the values that
can be stored these are the ones that are nested no deeper than a reader may go.
-/

namespace BareComponent

open Json RecordField

theorem Table.eq_empty_of_isEmpty {α : Type} {table : Table α} (nothing : table.isEmpty = true) :
    table = .empty := by
  obtain ⟨entries, rising⟩ := table
  obtain rfl : entries = [] := List.isEmpty_iff.mp nothing
  rfl

/-- A field of a table that is left out where it is empty. -/
theorem fills_table {α : Type} {fields : List (RecordField α)} {depth : Nat} {seen : List Text}
    {draft : α} {name : Text} {put : α → Table Json → α} {table : Table Json}
    (known : find? fields name = some (ofReader name tableReader put)) (fresh : name ∉ seen)
    (absent : put draft .empty = draft)
    (readable : ∀ entry ∈ table.entries, Readable depth entry.2) :
    Fills fields (depth + 1) seen draft
      (if table.isEmpty then [] else [(name, .object table.entries)]) (put draft table) := by
  split
  · next nothing =>
    rw [Table.eq_empty_of_isEmpty nothing, absent]
    exact .nil
  · exact .put table known fresh (fun rest ends => tableReader_print readable ends) .nil

/-- A printed framework is read back, whatever follows it. -/
theorem Framework.reader_print {framework : Framework} {depth : Nat}
    (readable : ∀ entry ∈ framework.symbols.entries, Readable depth entry.2) (rest : Text) :
    Framework.reader (depth + 2) (framework.toJson.print ++ rest) = some (framework, rest) := by
  have filled : Fills Framework.fields (depth + 1) [] Framework.default
      ((Text.ofString "name", .string framework.name) ::
        if framework.symbols.isEmpty then []
        else [(Text.ofString "symbols", .object framework.symbols.entries)]) framework := by
    refine .put framework.name rfl List.not_mem_nil
      (fun rest _ => string_quoted_append framework.name rest) ?_
    have known : find? fields "symbols" = some (.ofReader "symbols" tableReader
        fun framework symbols => { framework with symbols }) := rfl
    have fresh : Text.ofString "symbols" ∉ [Text.ofString "name"] := by decide
    exact fills_table known fresh rfl readable
  exact readRecord_print filled rfl rest

/-- A configuration is read back from its text. -/
theorem Configuration.ofText?_print (configuration : Configuration)
    (symbols : ∀ entry ∈ configuration.framework.symbols.entries, Readable 124 entry.2)
    (modules : ∀ entry ∈ configuration.modules.entries, Readable 125 entry.2) :
    Configuration.ofText? configuration.toJson.print = some configuration := by
  have filled : Fills Configuration.fields 126 [] Configuration.default
      ((Text.ofString "framework", configuration.framework.toJson) ::
        if configuration.modules.isEmpty then []
        else [(Text.ofString "modules", .object configuration.modules.entries)])
      configuration := by
    refine .put configuration.framework rfl List.not_mem_nil
      (fun rest _ => Framework.reader_print symbols rest) ?_
    have known : find? fields "modules" = some (.ofReader "modules" tableReader
        fun configuration modules => { configuration with modules }) := rfl
    have fresh : Text.ofString "modules" ∉ [Text.ofString "framework"] := by decide
    exact fills_table known fresh rfl modules
  have read : Configuration.reader depthLimit (configuration.toJson.print ++ []) =
      some (configuration, []) := readRecord_print filled rfl []
  rw [List.append_nil] at read
  rw [Configuration.ofText?, Json.ofText?, read]
  rfl

/-- A field of a table is refused where a value in the table is nested too deep. -/
theorem stuck_table {α : Type} {fields : List (RecordField α)} {limit : Nat} {seen : List Text}
    {draft : α} {name : Text} {put : α → Table Json → α} {table : Table Json}
    (known : find? fields name = some (ofReader name tableReader put))
    (storable : ∀ entry ∈ table.entries, Storable entry.2)
    (deep : limit < depthFields table.entries) :
    Stuck fields (limit + 1) seen draft
      (if table.isEmpty then [] else [(name, .object table.entries)]) := by
  have full : ¬table.isEmpty = true := by
    intro nothing
    rw [Table.eq_empty_of_isEmpty nothing] at deep
    exact Nat.not_lt_zero limit deep
  rw [if_neg full]
  exact .at known fun rest ends => tableReader_eq_none storable (Nat.succ_lt_succ deep) ends

/-- A table that is left out where it is empty adds a level to the deepest of its values. -/
theorem depthFields_table_le_iff {name : Text} {table : Table Json} {limit : Nat} :
    depthFields (if table.isEmpty then [] else [(name, .object table.entries)]) ≤ limit + 1 ↔
      depthFields table.entries ≤ limit := by
  split
  · next nothing =>
    rw [Table.eq_empty_of_isEmpty nothing]
    simp [depthFields, Table.empty]
  · simp [depthFields, depth]

theorem Framework.depth_toJson_le_iff {framework : Framework} {limit : Nat} :
    framework.toJson.depth ≤ limit + 2 ↔ depthFields framework.symbols.entries ≤ limit := by
  rw [toJson, depth, depthFields, depth, Nat.zero_max, Nat.add_le_add_iff_right,
    depthFields_table_le_iff]

/-- How deep a configuration nests, from the values that its two tables store. -/
theorem Configuration.depth_toJson_le_iff {configuration : Configuration} {limit : Nat} :
    configuration.toJson.depth ≤ limit + 3 ↔
      depthFields configuration.framework.symbols.entries ≤ limit ∧
        depthFields configuration.modules.entries ≤ limit + 1 := by
  rw [toJson, depth, depthFields, Nat.add_le_add_iff_right, Nat.max_le,
    Framework.depth_toJson_le_iff, depthFields_table_le_iff]

/-- A printed framework is refused if one of its symbols is nested too deep. -/
theorem Framework.reader_eq_none {framework : Framework} {limit : Nat}
    (storable : ∀ entry ∈ framework.symbols.entries, Storable entry.2)
    (deep : limit < depthFields framework.symbols.entries) (rest : Text) :
    Framework.reader (limit + 2) (framework.toJson.print ++ rest) = none := by
  have known : find? Framework.fields "symbols" = some (.ofReader "symbols" tableReader
      fun framework symbols => { framework with symbols }) := rfl
  have stuck : Stuck Framework.fields (limit + 1) [] Framework.default
      ((Text.ofString "name", .string framework.name) ::
        if framework.symbols.isEmpty then []
        else [(Text.ofString "symbols", .object framework.symbols.entries)]) :=
    .behind framework.name rfl (fun rest _ => string_quoted_append framework.name rest)
      (stuck_table known storable deep)
  exact readRecord_eq_none stuck rest

/-- A configuration of values that can be stored is read back from its text if it is nested no
deeper than a reader may go, and refused otherwise. -/
theorem Configuration.ofText?_toJson_print (configuration : Configuration)
    (symbols : ∀ entry ∈ configuration.framework.symbols.entries, Storable entry.2)
    (modules : ∀ entry ∈ configuration.modules.entries, Storable entry.2) :
    Configuration.ofText? configuration.toJson.print =
      if configuration.toJson.depth ≤ depthLimit then some configuration else none := by
  have limits : configuration.toJson.depth ≤ depthLimit ↔
      depthFields configuration.framework.symbols.entries ≤ 124 ∧
        depthFields configuration.modules.entries ≤ 125 := depth_toJson_le_iff
  split
  · next shallow =>
    obtain ⟨symbolsShallow, modulesShallow⟩ := limits.mp shallow
    exact ofText?_print configuration
      (fun entry member => (symbols entry member).readable
        (depthFields_le_iff.mp symbolsShallow entry member))
      (fun entry member => (modules entry member).readable
        (depthFields_le_iff.mp modulesShallow entry member))
  · next deep =>
    have known : find? fields "modules" = some (.ofReader "modules" tableReader
        fun configuration modules => { configuration with modules }) := rfl
    have stuck : Stuck Configuration.fields 126 [] Configuration.default
        ((Text.ofString "framework", configuration.framework.toJson) ::
          if configuration.modules.isEmpty then []
          else [(Text.ofString "modules", .object configuration.modules.entries)]) := by
      by_cases shallow : depthFields configuration.framework.symbols.entries ≤ 124
      · have readable (entry : Text × Json)
            (member : entry ∈ configuration.framework.symbols.entries) : Readable 124 entry.2 :=
          (symbols entry member).readable (depthFields_le_iff.mp shallow entry member)
        have modulesDeep : 125 < depthFields configuration.modules.entries :=
          Nat.not_le.mp fun modulesShallow => deep (limits.mpr ⟨shallow, modulesShallow⟩)
        exact .behind configuration.framework rfl
          (fun rest _ => Framework.reader_print readable rest)
          (stuck_table known modules modulesDeep)
      · exact .at rfl fun rest _ =>
          Framework.reader_eq_none symbols (Nat.not_le.mp shallow) rest
    have refused : Configuration.reader depthLimit (configuration.toJson.print ++ []) = none :=
      readRecord_eq_none stuck []
    rw [List.append_nil] at refused
    rw [Configuration.ofText?, Json.ofText?, refused]

private def boxed : (levels : Nat) → Json
  | 0 => .number (.integer (-Number.greatestNegative))
  | levels + 1 => .array [.string "\"\n", boxed levels]

private theorem storable_boxed (levels : Nat) : Storable (boxed levels) := by
  induction levels with
  | zero => exact .integer ⟨Int.le_refl _, by decide⟩
  | succ levels ih => exact .array (by simpa using ⟨.string, ih⟩)

private theorem depth_boxed (levels : Nat) : (boxed levels).depth = levels := by
  induction levels with
  | zero => rfl
  | succ levels ih => simp [boxed, depth, depthItems, ih]

/-- A framework without a name that exports a value, and a module of so many levels. -/
private def storing (levels : Nat) : Configuration :=
  ⟨⟨"", .ofList [("ref", .object [("a", .null), ("b", .bool true)])]⟩,
    .ofList [("m", boxed levels)]⟩

private theorem symbols_storing (levels : Nat) : (storing levels).framework.symbols.entries =
    [(Text.ofString "ref", .object [(Text.ofString "a", .null),
      (Text.ofString "b", .bool true)])] := rfl

private theorem modules_storing (levels : Nat) :
    (storing levels).modules.entries = [(Text.ofString "m", boxed levels)] := rfl

private theorem depth_storing_le_iff (levels : Nat) :
    (storing levels).toJson.depth ≤ depthLimit ↔ levels ≤ 125 := by
  have symbols : depthFields (storing levels).framework.symbols.entries = 1 := rfl
  have modules : depthFields (storing levels).modules.entries = levels := by
    rw [modules_storing, depthFields, depthFields, depth_boxed, Nat.max_zero]
  have limits := @Configuration.depth_toJson_le_iff (storing levels) 124
  rw [symbols, modules] at limits
  exact limits.trans (and_iff_right (by decide))

/-- A module of 125 levels is read back, and one of 126 levels is refused. -/
theorem Configuration.ofText?_toJson_print_boxed :
    (∀ entry ∈ (storing 125).framework.symbols.entries, Storable entry.2) ∧
      (∀ entry ∈ (storing 125).modules.entries, Storable entry.2) ∧
      Configuration.ofText? (storing 125).toJson.print = some (storing 125) ∧
      Configuration.ofText? (storing 126).toJson.print = none := by
  have symbols (levels : Nat) :
      ∀ entry ∈ (storing levels).framework.symbols.entries, Storable entry.2 := by
    rw [symbols_storing, List.forall_mem_singleton]
    exact .object (by decide) (by simpa using ⟨.null, .bool⟩)
  have modules (levels : Nat) :
      ∀ entry ∈ (storing levels).modules.entries, Storable entry.2 := by
    rw [modules_storing, List.forall_mem_singleton]
    exact storable_boxed levels
  have deepest := Configuration.ofText?_toJson_print (storing 125) (symbols 125) (modules 125)
  have deeper := Configuration.ofText?_toJson_print (storing 126) (symbols 126) (modules 126)
  rw [if_pos ((depth_storing_le_iff 125).mpr (Nat.le_refl _))] at deepest
  rw [if_neg (mt (depth_storing_le_iff 126).mp (by decide))] at deeper
  exact ⟨symbols 125, modules 125, deepest, deeper⟩

end BareComponent
