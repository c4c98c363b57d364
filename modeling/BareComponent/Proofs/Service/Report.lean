import BareComponent.CommandLine.Report
import BareComponent.Proofs.Component.Modules

/-! # What a report says of the requires

A report has an entry for each require site, in their order, and marks it as resolved where the name
of the site is bound. Several sites may bind one name, and one module in the table is enough for the
name to be bound: an entry is then marked although its own module is not among the listed ones. So
the marks tell which modules are there exactly if the sites of each name agree on that.
-/

namespace BareComponent.CommandLine

def listed (report : Json) (field : Text) : List Json :=
  match report.field? field with
  | some (.array items) => items
  | _ => []

def ListsModule (report : Json) (name : Text) : Prop := .string name ∈ listed report "modules"

/-- Whether the entry for the require at a place is marked as resolved. -/
def MarksResolved (report : Json) (place : Nat) : Prop :=
  ∃ entry ∈ (listed report "requires")[place]?, entry.field? "resolved" = some (.bool true)

/-- The marks of a report tell the truth: an entry is marked exactly if the report lists the module
of its require site. -/
def TellsTruth (component : CompiledComponent) : Prop :=
  ∀ (place : Nat), ∀ site ∈ component.requires[place]?,
    (MarksResolved (report component) place ↔ ListsModule (report component) site.moduleName)

section Entries

variable (component : CompiledComponent)

/-- The report lists the modules of the environment. -/
theorem listed_modules : listed (report component) "modules" =
    component.environment.modules.keys.map .string := rfl

/-- The report lists the sites of the script. -/
theorem listed_requires : listed (report component) "requires" =
    component.requires.map (siteReport component.bindings) := rfl

/-- A report lists the modules that the component can require. -/
theorem listsModule_iff (name : Text) :
    ListsModule (report component) name ↔ component.environment.modules.hasKey name = true := by
  rw [ListsModule, listed_modules, List.mem_map_of_injective fun _ _ => Json.string.inj,
    Table.keys, Table.hasKey_iff]
  simp

/-- An entry is marked exactly if the name of its site is bound. -/
theorem marksResolved_iff_bound {place : Nat} {site : RequireSite}
    (here : component.requires[place]? = some site) :
    MarksResolved (report component) place ↔ component.bindings.hasKey site.binding = true := by
  have entry : (listed (report component) "requires")[place]? =
      some (siteReport component.bindings site) := by
    rw [listed_requires, List.getElem?_map, here]
    rfl
  have mark : (siteReport component.bindings site).field? "resolved" =
      some (.bool (component.bindings.hasKey site.binding)) := rfl
  simp [MarksResolved, entry, mark]

end Entries

variable {compiler : Compiler} {source : Text} {imported : Table Json}
  {registry : Option (Registry Json)} {component : CompiledComponent}

/-- A name is bound exactly if the module of one of its sites is listed. -/
theorem bound_iff_exists_listed
    (success : compiler.compile source imported registry = .ok component) (name : Text) :
    component.bindings.hasKey name = true ↔
      ∃ site ∈ component.requires, site.binding = name ∧
        ListsModule (report component) site.moduleName := by
  obtain ⟨script, -, requires, bindings⟩ := Compiler.exists_sites_of_compile success
  simp only [listsModule_iff]
  rw [bindings, requires]
  exact ResolvedScript.bindings_hasKey_iff script component.environment.modules name

/-- A report has one entry for each require, and marks it exactly if the report lists the module of
some require of the same name; so its marks tell the truth exactly if of the requires of one name
either all modules are listed or none. -/
theorem tellsTruth_iff_names_agree
    (success : compiler.compile source imported registry = .ok component) :
    (listed (report component) "requires").length = component.requires.length ∧
    (∀ (place : Nat), ∀ site ∈ component.requires[place]?,
      (MarksResolved (report component) place ↔ ∃ other ∈ component.requires,
        other.binding = site.binding ∧ ListsModule (report component) other.moduleName)) ∧
    (TellsTruth component ↔
      ∀ site ∈ component.requires, ∀ other ∈ component.requires, other.binding = site.binding →
        (ListsModule (report component) other.moduleName ↔
          ListsModule (report component) site.moduleName)) := by
  have marks (place : Nat) (site : RequireSite) (here : site ∈ component.requires[place]?) :
      MarksResolved (report component) place ↔ ∃ other ∈ component.requires,
        other.binding = site.binding ∧ ListsModule (report component) other.moduleName := by
    rw [marksResolved_iff_bound component here, bound_iff_exists_listed success]
  refine ⟨by rw [listed_requires, List.length_map], marks, ?truth, ?agree⟩
  case truth =>
    have spreads (truth : TellsTruth component) (site other : RequireSite)
        (siteMember : site ∈ component.requires) (otherMember : other ∈ component.requires)
        (same : other.binding = site.binding)
        (otherListed : ListsModule (report component) other.moduleName) :
        ListsModule (report component) site.moduleName := by
      obtain ⟨place, here⟩ := List.mem_iff_getElem?.mp siteMember
      exact (truth place site here).mp
        ((marks place site here).mpr ⟨other, otherMember, same, otherListed⟩)
    intro truth site siteMember other otherMember same
    exact ⟨spreads truth site other siteMember otherMember same,
      spreads truth other site otherMember siteMember same.symm⟩
  case agree =>
    intro agree place site here
    have siteMember := List.mem_of_getElem? here
    rw [marks place site here]
    constructor
    · rintro ⟨other, otherMember, same, otherListed⟩
      exact (agree site siteMember other otherMember same).mp otherListed
    · intro siteListed
      exact ⟨site, siteMember, rfl, siteListed⟩

/-- A script that binds one name twice, and another one to the module of the second binding. -/
private def rebinding : Text := "let a = require('m')\na = require('n')\nconst b = require('n')"

private def rebinder : Compiler := ⟨.precompiled rebinding, "vue", .empty⟩

private def onlyM : Table Json := .ofList [("m", .ofNat 1)]

private theorem exists_rebinding : ∃ component,
    rebinder.compile [] onlyM none = .ok component ∧
      component.requires = [⟨"a", .single, "m", ⟨0, 20⟩⟩, ⟨"a", .single, "n", ⟨21, 37⟩⟩,
        ⟨"b", .single, "n", ⟨38, 60⟩⟩] ∧
      ListsModule (report component) "m" ∧ ¬ListsModule (report component) "n" := by
  refine ⟨_, rfl, by decide +kernel, (listsModule_iff _ _).mpr (by decide +kernel), ?_⟩
  rw [listsModule_iff]
  decide +kernel

/-- The first binding marks the second one too, whose module is not listed; the third require has
the same module and is not marked. -/
theorem tellsTruth_iff_names_agree_rebinding : ∃ component,
    rebinder.compile [] onlyM none = .ok component ∧
      MarksResolved (report component) 0 ∧ ListsModule (report component) "m" ∧
      MarksResolved (report component) 1 ∧ ¬ListsModule (report component) "n" ∧
      ¬MarksResolved (report component) 2 ∧ ¬TellsTruth component := by
  obtain ⟨component, success, requires, listsM, omitsN⟩ := exists_rebinding
  obtain ⟨-, marks, truth⟩ := tellsTruth_iff_names_agree success
  rw [requires] at marks truth
  refine ⟨component, success, (marks 0 _ rfl).mpr ?_, listsM, (marks 1 _ rfl).mpr ?_, omitsN,
    ?third, ?untrue⟩
  · exact ⟨_, List.mem_cons_self, rfl, listsM⟩
  · exact ⟨_, List.mem_cons_self, rfl, listsM⟩
  case third =>
    have otherName : Text.ofString "a" ≠ Text.ofString "b" := by decide
    rw [marks 2 _ rfl]
    simp [otherName, omitsN]
  case untrue =>
    intro told
    have agree := truth.mp told _ (List.mem_cons_of_mem _ List.mem_cons_self) _ List.mem_cons_self
    exact omitsN ((agree rfl).mp listsM)

/-- A require is marked as resolved whose module is nowhere. -/
theorem report_marks_absent_module :
    ¬∀ (source script name : Text) (framework imported : Table Json)
      (component : CompiledComponent),
      Compiler.compile ⟨.precompiled script, name, framework⟩ source imported none =
          .ok component → TellsTruth component := by
  intro fails
  obtain ⟨component, success, requires, listsM, omitsN⟩ := exists_rebinding
  have second : component.requires[1]? = some ⟨"a", .single, "n", ⟨21, 37⟩⟩ := by
    rw [requires]
    rfl
  have bound : component.bindings.hasKey "a" = true :=
    (bound_iff_exists_listed success "a").mpr ⟨_, requires ▸ List.mem_cons_self, rfl, listsM⟩
  have marked := (marksResolved_iff_bound component second).mpr bound
  have truth := fails [] rebinding "vue" .empty onlyM component success
  exact omitsN ((truth 1 _ second).mp marked)

end BareComponent.CommandLine
