import BareComponent.BareScript
import BareComponent.Proofs.Checked.LocalNames
import BareComponent.Proofs.Checked.Require
import BareComponent.Proofs.Checked.ReturnFilter

/-! # From a compiled script to a bare function body without faults

Put together, the checked steps compute what the plain ones do, whatever the source and the compiled
script are: brackets need not match, strings need not be closed, and characters may take any number
of bytes.
-/

namespace BareComponent.Checked

open Text

/-- Resolves a compiled script and filters its return objects by the local names of the source that
it was compiled from. -/
def bareScript {α : Type} (source compiled : Text) (modules : Table α) :
    Checked (BareScript α) := do
  let resolution ← resolve compiled modules
  let localNames ← localNames source
  let script ← filter localNames resolution.script
  return { script, bindings := resolution.bindings, requires := resolution.sites, localNames }

/-- No step from a source and a compiled script to the bare script has a fault: every stretch that
is cut out of a text takes whole characters, every byte that is read is there, and no number is
taken below zero. -/
theorem bareScript_eq_ok {α : Type} (source compiled : String) (modules : Table α) :
    bareScript source compiled modules = .ok (BareScript.ofCompiled source compiled modules) := by
  have script : IsString (ResolvedScript.ofScript compiled modules).script :=
    (strip_eq_ok compiled).2
  rw [bareScript, resolve_eq_ok, ok_bind, localNames_eq_ok (isString_ofString source), ok_bind,
    filter_eq_ok _ script]
  rfl

end BareComponent.Checked
