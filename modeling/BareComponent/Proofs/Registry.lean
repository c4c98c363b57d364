import BareComponent.Proofs.Table
import BareComponent.Registry

/-! # What a registry holds after a history of changes

A registry changes in two ways: a caller provides a table under a key, and a plugin is installed,
which stores its modules under one fixed key. Both replace what stood under the key, so of all the
tables that a history stored under a key the last one is there. Plugins share one key: of all that
were installed, only the last one is left.
-/

namespace BareComponent.Registry

variable {α : Type}

/-- A change to a registry. -/
inductive Change (α : Type) where
  | provide (key : Text) (modules : Table α)
  | install (addition : Table α)

def Change.apply (registry : Registry α) : Change α → Registry α
  | .provide key modules => registry.provide key modules
  | .install addition => registry.install addition

/-- The registry that a history of changes leaves. -/
def after (changes : List (Change α)) : Registry α := changes.foldl Change.apply .empty

def Change.stored? (key : Text) : Change α → Option (Table α)
  | .provide other modules => if key = other then some modules else none
  | .install addition => if key = additionalModules then some addition else none

/-- The table that a history stored under a key most recently. -/
def lastStored? (key : Text) (changes : List (Change α)) : Option (Table α) :=
  changes.reverse.findSome? (Change.stored? key)

/-- What later changes store comes before what the first one does. -/
theorem lastStored?_cons (key : Text) (change : Change α) (changes : List (Change α)) :
    lastStored? key (change :: changes) = (lastStored? key changes).or (change.stored? key) := by
  rw [lastStored?, lastStored?, List.reverse_cons, List.findSome?_append]
  simp

/-- A change answers for the key under which it stores a table, and for no other. -/
theorem inject?_apply (registry : Registry α) (change : Change α) (key : Text) :
    (change.apply registry).inject? key = (change.stored? key).or (registry.inject? key) := by
  cases change with
  | provide other modules =>
    rw [Change.apply, provide, inject?, Table.get?_insert, Change.stored?]
    split <;> rfl
  | install addition =>
    rw [Change.apply, install, provide, inject?, Table.get?_insert, Change.stored?]
    split <;> rfl

private theorem inject?_foldl (registry : Registry α) (changes : List (Change α)) (key : Text) :
    (changes.foldl Change.apply registry).inject? key =
      (lastStored? key changes).or (registry.inject? key) := by
  induction changes generalizing registry with
  | nil => rfl
  | cons change changes ih =>
    rw [List.foldl_cons, ih, inject?_apply, ← Option.or_assoc, lastStored?_cons]

/-- After any history a key answers with the table that was stored under it most recently. -/
theorem inject?_after (changes : List (Change α)) (key : Text) :
    (after changes).inject? key = lastStored? key changes := by
  rw [after, inject?_foldl]
  exact Option.or_none

/-- The modules of the plugins that a history installs, in this order. -/
def installed : List (Change α) → List (Table α)
  | [] => []
  | .provide _ _ :: changes => installed changes
  | .install addition :: changes => addition :: installed changes

/-- Whether only plugins store tables under the key of the additional modules. -/
def OnlyPlugins (changes : List (Change α)) : Prop :=
  ∀ key modules, Change.provide key modules ∈ changes → key ≠ additionalModules

/-- Where only plugins store tables under their key, the one that was installed last is there. -/
theorem lastStored?_additionalModules {changes : List (Change α)} (only : OnlyPlugins changes) :
    lastStored? additionalModules changes = (installed changes).getLast? := by
  induction changes with
  | nil => rfl
  | cons change changes ih =>
    have others : OnlyPlugins changes := by
      intro key modules member
      exact only key modules (List.mem_cons_of_mem change member)
    rw [lastStored?_cons, ih others]
    cases change with
    | provide key modules =>
      have elsewhere : additionalModules ≠ key := (only key modules List.mem_cons_self).symm
      rw [Change.stored?, if_neg elsewhere, Option.or_none, installed]
    | install addition =>
      rw [Change.stored?, if_pos rfl, installed, List.getLast?_cons]
      cases (installed changes).getLast? <;> rfl

end BareComponent.Registry
