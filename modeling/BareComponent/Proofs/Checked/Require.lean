import BareComponent.Proofs.Checked.Cut
import BareComponent.Proofs.Mask.Aligned
import BareComponent.Proofs.Require.Torn
import BareComponent.ResolvedScript

/-! # Resolving requires never cuts a character

The name of a module stands between two quotes that the mask shows, and a require line ends where a
line of the script ends. The sites can therefore be read from the script and the lines be removed
from it at the offsets that were found in the mask.
-/

namespace BareComponent

namespace Checked

open Text Pattern RequireSite

/-- All require sites of a script, from first to last. -/
def sites (script : Text) : Checked (List RequireSite) := do
  let masked ← mask script
  (RequireSite.pattern.search masked).mapM fun found => do
    let (binding, quote, content) := found.value
    let moduleName ← cut script content
    let binding ← cut masked binding
    return { binding, quote, moduleName, span := found.span }

def strip (script : Text) : Checked Text :=
  if script.contains "require(" then do
    let masked ← mask script
    replaceFrom script 0 ((RequireLine.pattern.search masked).map fun found => (found.span, []))
  else return script

/-- Resolves a script against a table of modules. -/
def resolve {α : Type} (script : Text) (modules : Table α) : Checked (ResolvedScript α) := do
  let sites ← sites script
  let script ← strip script
  return { script, bindings := Table.ofList (ResolvedScript.boundNames modules sites), sites }

variable {script : Text}

private theorem isShown_quote (quote : Quote) : Byte.IsShown quote.byte := by
  cases quote <;> exact ⟨by decide, by decide⟩

private theorem isWhole_contentSpan {front content behind : List Char} {quote : Quote}
    (aligned : Aligned script (encode (front ++ quote.character :: content ++
      quote.character :: behind))) :
    script.IsWhole (RequireLine.contentSpan front quote content) := by
  have bytes : encode (front ++ quote.character :: content ++ quote.character :: behind) =
      encode front ++ quote.byte :: (encode content ++ quote.byte :: encode behind) := by
    have byte := quote.byte_eq
    rw [encode_cons, encode_nil, List.append_nil] at byte
    simp [← byte]
  have split : encode front ++ quote.byte :: (encode content ++ quote.byte :: encode behind) =
      encode front ++ quote.byte :: encode content ++ quote.byte :: encode behind := by simp
  have starts := isFirm_append (encode front) (encode content ++ quote.byte :: encode behind)
    (isShown_quote quote)
  have stops := isFirm_append (encode front ++ quote.byte :: encode content) (encode behind)
    (isShown_quote quote)
  rw [bytes] at aligned
  rw [← split] at stops
  have span : RequireLine.contentSpan front quote content =
      ⟨(encode front).length + 1, (encode front ++ quote.byte :: encode content).length⟩ := by
    have byte := congrArg List.length quote.byte_eq
    simp [RequireLine.contentSpan] at byte ⊢
    omega
  rw [span]
  exact (aligned.isWhole starts.2 stops.1 (by simp)).1

private theorem isWhole_of_mem_search {masked : Text} {found : Match (Span × Quote × Span)}
    (aligned : Aligned script masked) (member : found ∈ search RequireSite.pattern masked) :
    masked.IsWhole found.value.1 ∧ script.IsWhole found.value.2.2 := by
  obtain ⟨characters, rfl⟩ := aligned.maskIsString
  obtain ⟨before, rest, form, rfl, -, value⟩ := exists_form_of_mem_search member
  let front := before ++ form.declared
  have named : before ++ form.spelled ++ rest =
      front ++ (form.name ++ (form.assigned ++ form.quote.character :: form.content ++
        form.quote.character :: form.outer ++ ')' :: rest)) := by
    simp [front, Form.spelled, Binding.spelled]
  have quoted : before ++ form.spelled ++ rest =
      front ++ form.name ++ form.assigned ++ form.quote.character :: form.content ++
        form.quote.character :: (form.outer ++ ')' :: rest) := by
    simp [front, Form.spelled, Binding.spelled]
  rw [value]
  constructor
  · rw [named]
    refine (isBoundary_encode front _).isWhole ?_ (by simp [front])
    rw [← List.append_assoc]
    exact isBoundary_encode (front ++ form.name) _
  · rw [quoted] at aligned
    exact isWhole_contentSpan aligned

/-- The search for require sites has no fault. -/
theorem sites_eq_ok (string : IsString script) : sites script = .ok (RequireSite.all script) := by
  rw [sites, mask_eq_ok string, ok_bind]
  refine mapM_eq_ok fun found member => ?_
  obtain ⟨binding, content⟩ := isWhole_of_mem_search string.aligned member
  obtain ⟨span, name, quote, inside⟩ := found
  dsimp only at binding content ⊢
  rw [cut_eq_ok content, ok_bind, cut_eq_ok binding]
  rfl

private theorem steps_requireLine (characters : List Char) :
    Steps characters RequireLine.pattern := by
  rintro before after - value next member
  obtain ⟨-, front, call, rest, rfl, -, -, -, rfl⟩ := RequireLine.mem_pattern.mp member
  exact ⟨trivial, front ++ call.spelled, rest, rfl, rfl⟩

private theorem isWhole_of_mem_spans {script : String} {span : Span}
    (removed : span ∈ RequireLine.spans script) : (ofString script).IsWhole span := by
  obtain ⟨⟨_, text⟩, member, rfl⟩ := List.mem_map.mp (spans_subset removed)
  obtain ⟨front, line, behind, split, -, -, -, rfl⟩ := exists_line member
  rw [ofString_eq, split]
  refine (isBoundary_encode front _).isWhole ?_ (by simp)
  rw [← List.append_assoc]
  exact isBoundary_encode (front ++ line) behind

private theorem pairwise_spans (script : String) :
    (RequireLine.spans script).Pairwise (·.stop ≤ ·.start) := by
  obtain ⟨characters, masked⟩ := (isString_ofString script).aligned.maskIsString
  rw [RequireLine.spans]
  split
  · rw [masked, List.pairwise_map]
    exact (steps_requireLine characters).pairwise_search
  · exact .nil

/-- Stripping a script cuts between its lines. -/
theorem strip_eq_ok (script : String) :
    strip script = .ok (RequireLine.strip script) ∧ IsString (RequireLine.strip script) := by
  have string := isString_ofString script
  have rising : ((RequireLine.spans script).map fun span => (span, ([] : Text))).Pairwise
      (·.1.stop ≤ ·.1.start) := List.pairwise_map.mpr (pairwise_spans script)
  have whole : ∀ edit ∈ (RequireLine.spans script).map fun span => (span, ([] : Text)),
      0 ≤ edit.1.start ∧ (ofString script).IsWhole edit.1 ∧ IsString edit.2 := by
    intro edit member
    obtain ⟨span, removed, rfl⟩ := List.mem_map.mp member
    exact ⟨Nat.zero_le _, isWhole_of_mem_spans removed, [], rfl⟩
  refine ⟨?_, isString_replaceFrom string (isBoundary_zero _) whole rising⟩
  have copied := replaceFrom_eq_ok (isBoundary_zero _)
    (fun edit member => ⟨(whole edit member).1, (whole edit member).2.1⟩) rising
  rw [RequireLine.spans] at copied
  rw [strip, RequireLine.strip, RequireLine.spans]
  split
  · next calls =>
    rw [if_pos calls, List.map_map] at copied
    rw [mask_eq_ok string, ok_bind, List.map_map]
    exact copied
  · rfl

/-- A script is resolved without a fault, whatever the modules are. -/
theorem resolve_eq_ok {α : Type} (script : String) (modules : Table α) :
    resolve script modules = .ok (ResolvedScript.ofScript script modules) := by
  rw [resolve, sites_eq_ok (isString_ofString script), ok_bind, (strip_eq_ok script).1, ok_bind]
  rfl

end Checked

end BareComponent
