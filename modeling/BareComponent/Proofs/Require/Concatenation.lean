import BareComponent.Proofs.Require.Filter
import BareComponent.Proofs.Require.Tail

/-! # Requires of two scripts, one behind the other

Where a script is masked apart from what stands behind it and its mask ends with a semicolon and a
newline, its requires and those of a script behind it do not mix. No line of a site ends in a
semicolon and no site begins with white space, so that none reaches over the place between the two.
What stands in front of that place is no word, so that a search behind it need not look back.
-/

namespace BareComponent.RequireSite

open Cursor Pattern RequireLine Text

variable {front first second : List Char}

/-- What is read of a binding moves with the text in front of it. -/
theorem Binding.read_append (binding : Binding) (front before : List Char) :
    binding.read (front ++ before) = moved (encode front).length (binding.read before) := by
  simp [Binding.read, moved, Span.shift, contentSpan, Nat.add_comm, Nat.add_left_comm]

/-- Behind a front that ends no word a stretch spells the site that it spells alone. -/
theorem takes_append_front (ends : isWord front.getLast? = false) (before passed : List Char)
    (read : Span × Quote × Span) : Takes (front ++ before) passed read ↔
      ∃ other, Takes before passed other ∧ moved (encode front).length other = read := by
  have boundary : isWord (front ++ before).getLast? = isWord before.getLast? := by
    rcases List.eq_nil_or_concat' before with rfl | ⟨others, last, rfl⟩
    · rw [List.append_nil, ends]
      rfl
    · simp
  have same (form : Form) : form.toBinding.read (front ++ before ++ form.declared) =
      moved (encode front).length (form.toBinding.read (before ++ form.declared)) := by
    rw [List.append_assoc, Binding.read_append _ front]
  constructor
  · rintro ⟨form, rfl, alone, rfl⟩
    exact ⟨_, ⟨form, rfl, boundary ▸ alone, rfl⟩, (same form).symm⟩
  · rintro ⟨_, ⟨form, rfl, alone, rfl⟩, rfl⟩
    exact ⟨form, rfl, boundary ▸ alone, (same form).symm⟩

/-- No line of a site ends in a semicolon. -/
theorem Form.not_ends (form : Form) (front behind : List Char) :
    form.spelled ≠ front ++ ';' :: '\n' :: behind := by
  intro split
  obtain ⟨others, c, gap, shape, blank, -, -, other⟩ :=
    form.noneClosed (front ++ [';']) behind (by simpa using split)
  rcases List.eq_nil_or_concat' gap with rfl | ⟨more, last, rfl⟩
  · obtain ⟨-, ending⟩ := List.append_inj' shape rfl
    exact other (List.cons.inj ending).1.symm
  · rw [← List.cons_append, ← List.append_assoc] at shape
    obtain ⟨-, ending⟩ := List.append_inj' shape rfl
    obtain rfl := (List.cons.inj ending).1
    exact absurd (blank ';' (by simp)) (by decide)

/-- A site does not reach over a semicolon at the end of a line. -/
theorem beside_of_ends {found : Match (Span × Quote × Span)}
    (member : found ∈ search RequireSite.pattern (encode (front ++ [';', '\n'] ++ second))) :
    found.Beside (encode (front ++ [';', '\n'])).length := by
  obtain ⟨before, rest, form, split, span, -⟩ := exists_form_of_mem_search member
  by_contra astride
  simp only [Match.Beside, span, not_or, Nat.not_le] at astride
  obtain ⟨reaches, starts⟩ := astride
  rw [List.append_assoc before] at split
  obtain ⟨inside, shape, behind⟩ := exists_append_of_length_le split.symm starts.le
  obtain ⟨more, spelled, -⟩ := exists_append_of_length_le behind.symm <| by
    rw [shape, encode_append, encode_append, List.length_append, List.length_append] at reaches
    omega
  rcases List.eq_nil_or_concat' inside with rfl | ⟨others, last, rfl⟩
  · simp [shape] at starts
  rw [List.append_cons, ← List.append_assoc] at shape
  obtain ⟨statement, ending⟩ := List.append_inj' shape rfl
  obtain rfl := (List.cons.inj ending).1
  rcases List.eq_nil_or_concat' others with rfl | ⟨others, last, rfl⟩
  · have begins := form.wordOrDollar_head? rest '\n' (by simp [spelled])
    exact absurd begins (by decide)
  · rw [← List.append_assoc] at statement
    obtain ⟨-, ending⟩ := List.append_inj' statement rfl
    obtain rfl := (List.cons.inj ending).1
    exact form.not_ends others more (by simpa using spelled)

variable {script : String}

/-- A script whose mask ends with a line end is made of whole lines, and so is its mask. -/
theorem isLines_of_mask_ends {masked : Text}
    (ends : Text.mask script = masked ++ [Byte.newline]) :
    IsLines (ofString script) ∧ IsLines (Text.mask script) := by
  refine ⟨?_, ends ▸ isLines_append_newline masked⟩
  have length : masked.length + 1 = (ofString script).length := by
    rw [← mask_length (ofString script), ends, List.length_append, List.length_singleton]
  have here : (Text.mask script)[masked.length]? = some Byte.newline := by simp [ends]
  rw [getElem?_eq_newline_iff (forall₂_masks_mask (ofString script))] at here
  obtain ⟨front, behind, split, place⟩ := exists_append_of_getElem? here
  obtain rfl : behind = [] := by
    rw [split, List.length_append, List.length_cons, place] at length
    exact List.length_eq_zero_iff.mp (by omega)
  exact split ▸ isLines_append_newline front

/-- Behind a script that is masked apart and ends with a statement and its line, the requires of
another script are found and stripped as they are alone. -/
theorem all_strip_append (closed : (ofString script).LexicallyClosed)
    (ends : ∃ front, Text.mask script = front ++ [Byte.semicolon, Byte.newline]) (tail : String) :
    all (ofString (script ++ tail)) =
        all script ++ (all tail).map (·.shift (ofString script).length) ∧
      strip (ofString (script ++ tail)) = strip script ++ strip tail := by
  obtain ⟨shown, ends⟩ := ends
  have both : ofString (script ++ tail) = ofString script ++ ofString tail := by
    simp [ofString_eq]
  have apart := closed tail
  obtain ⟨characters, masked⟩ := (isString_ofString script).aligned.maskIsString
  obtain ⟨others, tailMasked⟩ := (isString_ofString tail).aligned.maskIsString
  constructor
  · obtain ⟨front, rfl⟩ : ∃ front, characters = front ++ [';', '\n'] := by
      obtain ⟨front, c, rest, rfl, -, spelled, restEq⟩ :=
        encode_eq_append_cons (masked.symm.trans ends) (by decide)
      obtain rfl : c = ';' := encodeChar_injective spelled
      obtain rfl : rest = ['\n'] := encode_injective restEq
      exact ⟨front, rfl⟩
    have length : (ofString script).length = (encode (front ++ [';', '\n'])).length := by
      rw [← masked, mask_length]
    rw [both]
    refine all_append_of_search (isString_ofString script) apart ?_
    rw [masked, tailMasked, length, ← encode_append]
    have wordless : isWord (front ++ [';', '\n']).getLast? = false := by simp +decide [isWord]
    exact reads_pattern.search_append _ (takes_append_front wordless) fun _ => beside_of_ends
  · have whole := isLines_of_mask_ends (ends.trans (List.append_cons ..))
    have places : (Text.lines script).length = (Text.mask script).lines.length := by
      simpa using (congrArg List.length (map_length_lines_mask (ofString script))).symm
    rw [strip_eq_keptByMask, strip_eq_keptByMask, strip_eq_keptByMask, both, apart,
      keptByMask_append whole.1 whole.2 places]

/-- A declaration is found and stripped in front of a site over two lines, of which the second line
is stripped. -/
theorem all_strip_append_declaration :
    all (ofString ("const a = require('x');\n" ++ "b =\n require('y')")) =
        [⟨"a", .single, "x", ⟨0, 22⟩⟩, ⟨"b", .single, "y", ⟨24, 41⟩⟩] ∧
      strip (ofString ("const a = require('x');\n" ++ "b =\n require('y')")) =
        ofString "b =\n" := by
  have whole : IsLines (ofString "const a = require('x');\n") :=
    isLines_append_newline "const a = require('x');"
  have closed := whole.lexicallyClosed (by decide +kernel)
  have ends : ∃ front, Text.mask "const a = require('x');\n" =
      front ++ [Byte.semicolon, Byte.newline] := ⟨"const a = require(' ')", by decide +kernel⟩
  obtain ⟨sites, stripped⟩ := all_strip_append closed ends "b =\n require('y')"
  exact ⟨sites.trans (by decide +kernel), stripped.trans (by decide +kernel)⟩

end BareComponent.RequireSite
