import BareComponent.Main
import BareComponent.Probe
import BareComponent.Proofs.Mask.Glyph
import BareComponent.Proofs.Pattern.Encoded
import BareComponent.Proofs.Mask.Lines
import BareComponent.Proofs.Require.Line
import BareComponent.Proofs.Require.Seam
import BareComponent.Proofs.Require.Standalone
import BareComponent.Proofs.Text.Nesting
import BareComponent.Proofs.Text.Depth
import BareComponent.Proofs.ReturnFilter.Literal
import BareComponent.Proofs.ReturnFilter.Cut
import BareComponent.Proofs.ReturnFilter.Exchange
import BareComponent.Proofs.ReturnFilter.Thinned
import BareComponent.Proofs.ReturnFilter.Key
import BareComponent.Proofs.ReturnFilter.Survivors
import BareComponent.Proofs.ReturnFilter.Twice
import BareComponent.Proofs.ReturnFilter.Union
import BareComponent.Proofs.ReturnFilter.Exposed
import BareComponent.Proofs.ReturnFilter.Boundaries
import BareComponent.Proofs.Mask.Layout
import BareComponent.Proofs.Mask.Causal
import BareComponent.Proofs.Require.Torn
import BareComponent.Proofs.Component.Imports
import BareComponent.Proofs.Checked.BareScript
import BareComponent.Proofs.Component.Environment
import BareComponent.Proofs.Component.Ending
import BareComponent.Proofs.Component.Modules
import BareComponent.Proofs.Mask.Automaton
import BareComponent.Proofs.LocalNames.Around
import BareComponent.Proofs.LocalNames.Strings
import BareComponent.Proofs.Service.Daemon
import BareComponent.Proofs.Component.Declared
import BareComponent.Proofs.Component.Listed
import BareComponent.Proofs.Service.CommandLine
import BareComponent.Proofs.Service.Report
import BareComponent.Proofs.Require.Concatenation
import BareComponent.Proofs.FunctionBody.Named
import BareComponent.Proofs.FunctionBody.Shared
import BareComponent.Proofs.LocalNames.Words
import BareComponent.Proofs.Component.Printed
import BareComponent.Proofs.Component.Kept
import BareComponent.Proofs.Component.Language
import BareComponent.Proofs.Component.PrintedBlocks
import BareComponent.Proofs.Component.CallLine
import BareComponent.Proofs.Component.DefaultExport
