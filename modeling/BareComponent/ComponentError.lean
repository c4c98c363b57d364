import BareComponent.Text.Basic

/-! # What can go wrong

A component may have nothing to compile or be written in a language that is not compiled here; the
execution may ask for a module that is not there; and an evaluator may reject a script.
-/

namespace BareComponent

/-- Why a component cannot be compiled. -/
inductive CompileFault where
  /-- The source has neither a template nor a script. -/
  | noBlock
  /-- A script block declares another language. -/
  | foreignLanguage (language : Text)
deriving DecidableEq, Repr

/-- Why a component cannot be compiled or run. -/
inductive ComponentError where
  /-- The execution asked for a name or a module that is not there. -/
  | moduleNotFound (id : Text)
  /-- The evaluator rejected the script. -/
  | scriptRejected (reason : Text)
  /-- The source could not be turned into a script. -/
  | notCompiled (fault : CompileFault)
deriving DecidableEq, Repr

def CompileFault.message : CompileFault → Text
  | noBlock => "no <template> or <script> block found"
  | foreignLanguage language =>
    Text.ofString "<script lang=\"" ++ language ++ Text.ofString "\"> needs an external compiler"

def ComponentError.message : ComponentError → Text
  | moduleNotFound id => Text.ofString "[CJS] Not found module: " ++ id
  | scriptRejected reason => Text.ofString "Failed to evaluate component script: " ++ reason
  | notCompiled fault => Text.ofString "Failed to compile component: " ++ fault.message

end BareComponent
