import BareComponent.Proofs.Table
import BareComponent.ResolvedScript

/-! # Which module a name is bound to

A script is resolved module by module in the order of the table, not site by site in the order of
the script. Where one name stands at sites of several modules of the table, it is therefore bound
to the module with the greatest key, whichever site comes last.
-/

namespace BareComponent.ResolvedScript

variable {α : Type}

/-- Whether a site of a script binds a name to a module. -/
def binds (sites : List RequireSite) (name moduleName : Text) : Bool :=
  sites.any fun site => site.binding == name && site.moduleName == moduleName

/-- What it means that some sites bind a name to a module. -/
theorem binds_iff (sites : List RequireSite) (name moduleName : Text) :
    binds sites name moduleName = true ↔
      ∃ site ∈ sites, site.binding = name ∧ site.moduleName = moduleName := by
  simp [binds]

private theorem lookup_map_const (keys : List Text) (value : α) (key : Text) :
    (keys.map fun key => (key, value)).lookup key = if key ∈ keys then some value else none := by
  induction keys with
  | nil => rfl
  | cons first rest ih =>
    rw [List.map_cons, List.lookup_cons, ih]
    by_cases same : key = first
    · simp [same]
    · simp [same, beq_eq_false_iff_ne.mpr same]

private theorem lookup_sites (sites : List RequireSite) (name moduleName : Text) (value : α) :
    (((sites.filter (·.moduleName == moduleName)).map fun site =>
      (site.binding, value)).reverse).lookup name =
        if binds sites name moduleName then some value else none := by
  have keys : ((sites.filter (·.moduleName == moduleName)).map fun site =>
      (site.binding, value)).reverse =
        ((sites.filter (·.moduleName == moduleName)).map (·.binding)).reverse.map
          fun key => (key, value) := by
    rw [List.map_reverse, List.map_map]
    rfl
  have member : name ∈ ((sites.filter (·.moduleName == moduleName)).map (·.binding)).reverse ↔
      binds sites name moduleName = true := by
    simp only [List.mem_reverse, List.mem_map, List.mem_filter, beq_iff_eq, binds_iff]
    exact ⟨fun ⟨site, ⟨member, named⟩, bound⟩ => ⟨site, member, bound, named⟩,
      fun ⟨site, member, bound, named⟩ => ⟨site, ⟨member, named⟩, bound⟩⟩
  simp only [keys, lookup_map_const, member]

private theorem lookup_flatMap {answers : Text × α → Bool} {part : Text × α → List (Text × α)}
    {name : Text} (answer : ∀ entry, (part entry).lookup name =
      if answers entry then some entry.2 else none) (entries : List (Text × α)) :
    (entries.flatMap part).lookup name = (entries.find? answers).map Prod.snd := by
  induction entries with
  | nil => rfl
  | cons head rest ih =>
    rw [List.flatMap_cons, List.lookup_append, answer, ih, List.find?_cons]
    cases answers head <;> rfl

/-- A name is bound to the last module in the order of the table to which a site binds it. -/
theorem bindings_get? (script : Text) (modules : Table α) (name : Text) :
    (ofScript script modules).bindings.get? name =
      (modules.entries.reverse.find? fun entry =>
        binds (RequireSite.all script) name entry.1).map Prod.snd := by
  change (Table.ofList (boundNames modules (RequireSite.all script))).get? name = _
  rw [Table.get?_ofList, boundNames, List.reverse_flatMap]
  exact lookup_flatMap (fun entry => lookup_sites _ name entry.1 entry.2) _

/-- A name is bound exactly if a site binds it to a module of the table. -/
theorem bindings_hasKey_iff (script : Text) (modules : Table α) (name : Text) :
    (ofScript script modules).bindings.hasKey name = true ↔
      ∃ site ∈ RequireSite.all script, site.binding = name ∧
        modules.hasKey site.moduleName = true := by
  rw [Table.hasKey, bindings_get?, Option.isSome_map, List.find?_isSome]
  constructor
  · rintro ⟨entry, member, bound⟩
    obtain ⟨site, found, named, same⟩ := (binds_iff _ _ _).mp bound
    have held : (site.moduleName, entry.2) ∈ modules.entries := same ▸ List.mem_reverse.mp member
    exact ⟨site, found, named, (modules.hasKey_iff _).mpr ⟨entry.2, held⟩⟩
  · rintro ⟨site, found, named, known⟩
    obtain ⟨value, held⟩ := (modules.hasKey_iff _).mp known
    exact ⟨(site.moduleName, value), List.mem_reverse.mpr held,
      (binds_iff _ _ _).mpr ⟨site, found, named, rfl⟩⟩

/-- What a name is bound to is the value of a module to which a site binds it, and no module to
which another site binds it has a greater key. -/
theorem bindings_get?_eq_some_iff (script : Text) (modules : Table α) (name : Text) (value : α) :
    (ofScript script modules).bindings.get? name = some value ↔
      ∃ site ∈ RequireSite.all script, site.binding = name ∧
        modules.get? site.moduleName = some value ∧
        ∀ other ∈ RequireSite.all script, other.binding = name →
          modules.hasKey other.moduleName = true → other.moduleName ≤ site.moduleName := by
  rw [bindings_get?, Option.map_eq_some_iff]
  constructor
  · rintro ⟨⟨moduleName, held⟩, found, rfl⟩
    obtain ⟨member, bound, greatest⟩ := (modules.find?_reverse_entries_eq_some_iff _ _).mp found
    obtain ⟨site, written, named, rfl⟩ := (binds_iff _ _ _).mp bound
    refine ⟨site, written, named, (modules.get?_eq_some_iff _ _).mpr member, ?_⟩
    intro other otherWritten otherNamed known
    obtain ⟨otherValue, otherMember⟩ := (modules.hasKey_iff _).mp known
    exact greatest _ otherMember
      ((binds_iff _ _ _).mpr ⟨other, otherWritten, otherNamed, rfl⟩)
  · rintro ⟨site, written, named, held, greatest⟩
    refine ⟨(site.moduleName, value), (modules.find?_reverse_entries_eq_some_iff _ _).mpr
      ⟨(modules.get?_eq_some_iff _ _).mp held,
        (binds_iff _ _ _).mpr ⟨site, written, named, rfl⟩, ?_⟩, rfl⟩
    intro other otherMember bound
    obtain ⟨otherSite, otherWritten, otherNamed, same⟩ := (binds_iff _ _ _).mp bound
    have known := (modules.hasKey_iff other.1).mpr ⟨other.2, otherMember⟩
    rw [← same] at known ⊢
    exact greatest otherSite otherWritten otherNamed known

/-- A name is bound exactly if a site binds it to a module of the table, and then to the one of
these modules that has the greatest key. -/
theorem bindings_greatest_module (script : Text) (modules : Table α) (name : Text) :
    ((ofScript script modules).bindings.hasKey name = true ↔
      ∃ site ∈ RequireSite.all script, site.binding = name ∧
        modules.hasKey site.moduleName = true) ∧
    ∀ value, (ofScript script modules).bindings.get? name = some value ↔
      ∃ site ∈ RequireSite.all script, site.binding = name ∧
        modules.get? site.moduleName = some value ∧
        ∀ other ∈ RequireSite.all script, other.binding = name →
          modules.hasKey other.moduleName = true → other.moduleName ≤ site.moduleName :=
  ⟨bindings_hasKey_iff script modules name, bindings_get?_eq_some_iff script modules name⟩

/-- What the requires of a script bind if they run one after the other: each site whose module is
in the table binds its name anew. -/
def ranInOrder (modules : Table α) (sites : List RequireSite) : Table α :=
  Table.ofList (sites.filterMap fun site =>
    (modules.get? site.moduleName).map fun value => (site.binding, value))

/-- The last site of a name does not decide: here it binds to a module with a smaller key. -/
theorem bindings_not_in_order :
    ¬∀ (script : Text) (modules : Table Nat) (name : Text),
      (ofScript script modules).bindings.get? name =
        (ranInOrder modules (RequireSite.all script)).get? name := by
  intro inOrder
  have bound := inOrder "let a = require('z')\na = require('b')"
    (Table.ofList [("b", 1), ("z", 2)]) "a"
  exact absurd bound (by decide +kernel)

end BareComponent.ResolvedScript
