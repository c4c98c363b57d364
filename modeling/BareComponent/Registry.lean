import BareComponent.Table

/-! # Module registries

An application registers tables of modules under keys. A plugin registers its modules under one
fixed key, and every component that is compiled against the registry can require what stands there.
-/

namespace BareComponent

/-- Tables of modules by key. -/
structure Registry (α : Type) where
  provided : Table (Table α)
deriving Repr

namespace Registry

variable {α : Type}

def empty : Registry α := ⟨.empty⟩

/-- The key of the modules that every component can require. -/
def additionalModules : Text := "additionalModules"

/-- The registry with a table under a key, in place of the one that was there. -/
def provide (registry : Registry α) (key : Text) (modules : Table α) : Registry α :=
  ⟨registry.provided.insert key modules⟩

/-- The table under a key. -/
def inject? (registry : Registry α) (key : Text) : Option (Table α) := registry.provided.get? key

def install (registry : Registry α) (addition : Table α) : Registry α :=
  registry.provide additionalModules addition

end Registry

end BareComponent
