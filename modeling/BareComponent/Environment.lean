import BareComponent.ComponentError
import BareComponent.Table

/-! # Environments

What a function body can see when it runs: the modules that it may require, and global names. A free
name is looked up among the globals first and among the modules next.
-/

namespace BareComponent

/-- The modules and the global names that a function body can see. -/
structure Environment (α : Type) where
  modules : Table α
  globals : Table α
deriving Repr

namespace Environment

variable {α : Type}

def ofModules (modules : Table α) : Environment α := ⟨modules, .empty⟩

/-- The environment with every name of a table made global, in place of what it named before. -/
def withGlobals (environment : Environment α) (names : Table α) : Environment α :=
  { environment with globals := environment.globals.merge names }

def require (environment : Environment α) (id : Text) : Except ComponentError α :=
  match environment.modules.get? id with
  | some value => .ok value
  | none => .error (.moduleNotFound id)

/-- The global of a name. -/
def global? (environment : Environment α) (name : Text) : Option α := environment.globals.get? name

def lookup (environment : Environment α) (name : Text) : Except ComponentError α :=
  match environment.global? name with
  | some value => .ok value
  | none => environment.require name

end Environment

end BareComponent
