import BareComponent.Proofs.Mask.Layout
import BareComponent.Proofs.Require.Site
import Mathlib.Data.List.Pairwise

/-! # Torn require sites

A require site may run over several lines, for white space of any kind may stand between its parts.
Stripping a script looks at one line at a time, and a line is removed for the call that it ends in.
The line on which a site ends is the only one of its lines that can end in a call, so a site is torn
when it comes from a line farther up and its last line is removed.
-/

namespace BareComponent

/-- Whether two stretches share a byte. -/
def Span.Meets (span other : Span) : Prop := span.start < other.stop ∧ other.start < span.stop

instance (span other : Span) : Decidable (span.Meets other) :=
  inferInstanceAs (Decidable (_ ∧ _))

namespace Text

/-- Some lines, each with where it stands, when the first begins at `start`. -/
def placedFrom (start : Nat) : List Text → List (Span × Text)
  | [] => []
  | line :: lines => (⟨start, start + line.length⟩, line) :: placedFrom (start + line.length) lines

def lineSpans (text : Text) : List Span := (placedFrom 0 text.lines).map Prod.fst

theorem mem_placedFrom {start : Nat} {lines : List Text} {span : Span} {line : Text} :
    (span, line) ∈ placedFrom start lines ↔ ∃ front behind, lines = front ++ line :: behind ∧
      span = ⟨start + front.flatten.length, start + (front.flatten ++ line).length⟩ := by
  induction lines generalizing start with
  | nil => simp [placedFrom]
  | cons first lines ih =>
    rw [placedFrom, List.mem_cons, ih]
    constructor
    · rintro (here | ⟨front, behind, rfl, rfl⟩)
      · obtain ⟨rfl, rfl⟩ := Prod.mk.inj here
        exact ⟨[], lines, rfl, rfl⟩
      · exact ⟨first :: front, behind, rfl, by simp [Nat.add_assoc]⟩
    · rintro ⟨front, behind, split, rfl⟩
      cases front with
      | nil =>
        obtain ⟨rfl, rfl⟩ := List.cons.inj split
        exact .inl rfl
      | cons head front =>
        obtain ⟨rfl, rfl⟩ := List.cons.inj split
        exact .inr ⟨front, behind, rfl, by simp [Nat.add_assoc]⟩

private theorem map_fst_placedFrom (start : Nat) (lines : List ScriptLine) :
    (placedFrom start (lines.map ScriptLine.text)).map Prod.fst =
      (placedFrom start (lines.map ScriptLine.mask)).map Prod.fst := by
  induction lines generalizing start with
  | nil => rfl
  | cons line lines ih =>
    have length : line.mask.length = line.text.length := Scanner.scan_length ..
    simp only [List.map_cons, placedFrom, length, ih]

/-- The lines of a script stand where the lines of its mask stand. -/
theorem lineSpans_mask (script : Text) : lineSpans script.mask = lineSpans script := by
  have texts : (ScriptLine.all script).map ScriptLine.text = script.lines :=
    ScriptLine.map_text_read ..
  rw [lineSpans, lineSpans, ← texts, ← ScriptLine.map_mask_all, map_fst_placedFrom]

private theorem pairwise_placedFrom (start : Nat) (lines : List Text) :
    (placedFrom start lines).Pairwise fun line other => line.1.stop ≤ other.1.start := by
  induction lines generalizing start with
  | nil => exact .nil
  | cons line lines ih =>
    refine .cons (fun other member => ?_) (ih _)
    obtain ⟨front, behind, -, place⟩ := mem_placedFrom.mp member
    rw [place]
    exact Nat.le_add_right ..

/-- Of two lines of a text one stands in front of the other. -/
theorem apart_of_mem_lineSpans {text : Text} {line other : Span} (member : line ∈ lineSpans text)
    (otherMember : other ∈ lineSpans text) (differ : line ≠ other) :
    line.stop ≤ other.start ∨ other.stop ≤ line.start := by
  let Apart (line other : Span) : Prop := line.stop ≤ other.start ∨ other.stop ≤ line.start
  have : Std.Symm Apart := ⟨fun _ _ => Or.symm⟩
  have ordered : (lineSpans text).Pairwise Apart :=
    List.pairwise_map.mpr ((pairwise_placedFrom 0 text.lines).imp Or.inl)
  exact ordered.forall member otherMember differ

/-- The lines of an encoded text stand between its characters. -/
theorem exists_line {characters : List Char} {span : Span} {text : Text}
    (member : (span, text) ∈ placedFrom 0 (lines (encode characters))) :
    ∃ front line behind, characters = front ++ (line ++ behind) ∧ text = encode line ∧
      IsLine '\n' line ∧ ('\n' ∉ line → behind = []) ∧
      span = ⟨(encode front).length, (encode (front ++ line)).length⟩ := by
  obtain ⟨before, after, split, rfl⟩ := mem_placedFrom.mp member
  rw [lines_encode] at split
  obtain ⟨fronts, others, shape, rfl, othersEq⟩ := List.map_eq_append_iff.mp split
  obtain ⟨line, behinds, rfl, rfl, rfl⟩ := List.map_eq_cons_iff.mp othersEq
  have whole := flatten_linesBy '\n' characters
  have ordered : (linesBy '\n' characters).Pairwise fun line _ => '\n' ∈ line :=
    pairwise_linesBy characters
  have inside : line ∈ linesBy '\n' characters := by simp [shape]
  have bytes (pieces : List (List Char)) : (pieces.map encode).flatten = encode pieces.flatten := by
    induction pieces with
    | nil => rfl
    | cons piece pieces ih => simp [ih]
  rw [shape, List.pairwise_append, List.pairwise_cons] at ordered
  refine ⟨fronts.flatten, line, behinds.flatten, by rw [← whole, shape]; simp, rfl,
    isLine_of_mem inside, fun free => ?_, by simp [bytes]⟩
  cases behinds with
  | nil => rfl
  | cons next behinds => exact absurd (ordered.2.1.1 next List.mem_cons_self) free

end Text

namespace RequireSite

open RequireLine Text

private theorem spansFrom_eq (start : Nat) (lines : List Text) : spansFrom start lines =
    ((placedFrom start lines).filter (isRequireLine ·.2)).map Prod.fst := by
  induction lines generalizing start with
  | nil => rfl
  | cons line lines ih =>
    rw [spansFrom, placedFrom, List.filter_cons, ih]
    split <;> rfl

private theorem mem_spans {script : String} {span : Span} : span ∈ spans script ↔
    ∃ line, (span, line) ∈ placedFrom 0 (Text.mask script).lines ∧ isRequireLine line = true := by
  simp [spans_eq, spansFrom_eq]

theorem spans_subset {script : String} : spans script ⊆ lineSpans script := by
  intro span removed
  obtain ⟨line, placed, -⟩ := mem_spans.mp removed
  rw [← lineSpans_mask]
  exact List.mem_map_of_mem placed

/-- Whether stripping a script removes one line of a site and keeps another. -/
def Torn (script : Text) (site : RequireSite) : Prop :=
  ∃ removed ∈ lineSpans script, ∃ kept ∈ lineSpans script,
    (removed.Meets site.span ∧ removed ∈ spans script) ∧
      (kept.Meets site.span ∧ kept ∉ spans script)

instance (script : Text) (site : RequireSite) : Decidable (Torn script site) :=
  inferInstanceAs (Decidable (∃ removed ∈ _, ∃ kept ∈ _, _))

section LineEnds

private theorem not_endsInCall {before rest front line behind : List Char} {form : Form}
    (split : before ++ form.spelled ++ rest = front ++ (line ++ '\n' :: behind))
    (starts : (encode before).length ≤ (encode (front ++ line)).length)
    (stops : (encode (front ++ line)).length < (encode (before ++ form.spelled)).length) :
    ¬EndsInCall (line ++ ['\n']) := by
  rw [List.append_assoc, ← List.append_assoc front] at split
  obtain ⟨first, shape, split⟩ := exists_append_of_length_le split starts
  obtain ⟨second, spelled⟩ : ∃ second, form.spelled = first ++ '\n' :: second := by
    rcases List.append_eq_append_iff.mp split with ⟨more, beyond, -⟩ | ⟨more, spelled, next⟩
    · simp [shape, beyond] at stops
    · cases more with
      | nil => simp [shape, spelled] at stops
      | cons c more =>
        obtain ⟨rfl, -⟩ := List.cons.inj next
        exact ⟨more, spelled⟩
  obtain ⟨lead, c, gap, rfl, blank, solid, noParenthesis, noSemicolon⟩ :=
    form.noneClosed first second spelled
  rintro ⟨other, call, ends, -, -⟩
  have whole : before ++ lead ++ c :: (gap ++ ['\n']) = front ++ other ++ call.spelled := by
    rw [List.append_assoc front, ← ends, ← List.append_assoc front, shape]
    simp
  let Behind (c : Char) : Prop := CharacterClass.blank c.toNat = true ∨ c = ';'
  have closing : ∀ d ∈ call.closing.spelled, Behind d := by
    intro d member
    have := call.closing.mem_spelled d member
    simp only [List.mem_cons, List.not_mem_nil, or_false] at this
    rcases this with rfl | rfl | rfl | rfl | rfl
    all_goals simp +decide [Behind]
  have lineEnd : ∀ d ∈ gap ++ ['\n'], Behind d := by
    intro d member
    rcases List.mem_append.mp member with member | member
    · exact .inl (blank d member)
    · obtain rfl := List.mem_singleton.mp member
      exact .inl (by decide)
  rw [Call.spelled, ← List.append_assoc] at whole
  obtain ⟨-, same, -⟩ := append_cons_inj_of_not Behind whole (by simp [Behind, solid, noSemicolon])
    (by simp +decide [Behind]) lineEnd closing
  exact noParenthesis same

end LineEnds

private theorem encode_line (front inside : List Char) :
    encode (front ++ (inside ++ ['\n'])) = encode (front ++ inside) ++ [Byte.newline] := by
  rw [← List.append_assoc, encode_append _ ['\n']]
  rfl

private theorem length_encode_line (front inside : List Char) :
    (encode (front ++ (inside ++ ['\n']))).length = (encode (front ++ inside)).length + 1 := by
  rw [encode_line, List.length_append, List.length_singleton]

/-- The only line of a site that stripping can remove is the one on which the site ends. -/
theorem stop_le_of_removed {script : String} {site : RequireSite} {line : Span}
    (member : site ∈ all script) (removed : line ∈ spans script) (meets : line.Meets site.span) :
    site.span.stop ≤ line.stop := by
  obtain ⟨before, rest, form, masked, place⟩ := exists_form member
  obtain ⟨text, placed, ends⟩ := mem_spans.mp removed
  rw [masked] at placed
  obtain ⟨front, line, behind, split, rfl, one, closed, rfl⟩ := exists_line placed
  rw [isRequireLine_encode one] at ends
  obtain ⟨-, starts⟩ := meets
  rw [place] at starts ⊢
  dsimp only at starts ⊢
  by_contra short
  have lineEnd : '\n' ∈ line := by
    by_contra unclosed
    have whole := congrArg (fun characters => (encode characters).length) split
    rw [closed unclosed] at whole
    simp at whole short
    omega
  obtain ⟨inside, rfl, -⟩ := one.exists_eq_append lineEnd
  rw [length_encode_line] at starts short
  exact not_endsInCall (by simpa using split) (by omega) (by omega) ends

private theorem exists_line_ending {text front behind : Text}
    (split : text = front ++ Byte.newline :: behind) (start : Nat) :
    ∃ line ∈ (placedFrom start text.lines).map Prod.fst,
      line.start ≤ start + front.length ∧ line.stop = start + front.length + 1 := by
  induction text using linesBy_induction Byte.newline generalizing front start with
  | nil => simp at split
  | last line nonempty free => simp [split] at free
  | line first rest free ih =>
    rw [lines, linesBy_append_cons free, ← lines, placedFrom, List.map_cons]
    rcases List.append_eq_append_iff.mp split with ⟨more, rfl, later⟩ | ⟨more, rfl, later⟩
    · cases more with
      | nil => exact ⟨_, List.mem_cons_self, by simp, by simp [Nat.add_assoc]⟩
      | cons b more =>
        obtain ⟨rfl, rfl⟩ := List.cons.inj later
        obtain ⟨line, member, starts, stops⟩ := ih rfl (start + (first ++ [Byte.newline]).length)
        refine ⟨line, List.mem_cons_of_mem _ member, ?_, ?_⟩
        all_goals
          simp at starts stops ⊢
          omega
    · cases more with
      | nil => exact ⟨_, List.mem_cons_self, by simp, by simp [Nat.add_assoc]⟩
      | cons b more =>
        obtain ⟨rfl, -⟩ := List.cons.inj later
        simp at free

private theorem mem_slice {text : Text} {span : Span} {b : UInt8} :
    b ∈ text.slice span ↔ ∃ i : Nat, span.start ≤ i ∧ i < span.stop ∧ text[i]? = some b := by
  rw [slice, List.mem_iff_getElem?]
  simp only [List.getElem?_drop]
  constructor
  · rintro ⟨i, here⟩
    rw [List.getElem?_take] at here
    split at here
    · exact ⟨span.start + i, by omega, by omega, here⟩
    · contradiction
  · rintro ⟨i, starts, stops, here⟩
    refine ⟨i - span.start, ?_⟩
    rw [Nat.add_sub_cancel' starts, List.getElem?_take, if_pos stops, here]

private theorem exists_newline {characters : List Char} {line : Span}
    (member : line ∈ lineSpans (encode characters))
    (short : line.stop < (encode characters).length) :
    ∃ i, line.stop = i + 1 ∧ (encode characters)[i]? = some Byte.newline := by
  obtain ⟨⟨_, text⟩, placed, rfl⟩ := List.mem_map.mp member
  obtain ⟨front, line, behind, rfl, rfl, one, closed, rfl⟩ := exists_line placed
  have closes : '\n' ∈ line := by
    by_contra unclosed
    rw [closed unclosed, List.append_nil] at short
    exact Nat.lt_irrefl _ short
  obtain ⟨inside, rfl, -⟩ := one.exists_eq_append closes
  refine ⟨(encode (front ++ inside)).length, length_encode_line front inside, ?_⟩
  rw [← List.append_assoc, encode_append, encode_line]
  simp

section Site

variable {script : String} {site : RequireSite} (member : site ∈ all script)
include member

private theorem stop_le_length : site.span.stop ≤ (ofString script).length := by
  obtain ⟨before, rest, form, masked, place⟩ := exists_form member
  rw [← mask_length, masked, place, encode_append _ rest, List.length_append]
  exact Nat.le_add_right ..

private theorem lt_stop_of_newline {i : Nat} (inside : i < site.span.stop)
    (here : (Text.mask script)[i]? = some Byte.newline) : i + 1 < site.span.stop := by
  obtain ⟨before, rest, form, masked, place⟩ := exists_form member
  obtain ⟨called, shape⟩ : ∃ called, form.spelled = called ++ [')'] := ⟨_, by
    rw [Form.spelled, Binding.spelled, ← List.append_assoc]⟩
  have split : encode (before ++ form.spelled) =
      encode (before ++ called) ++ [Byte.closeParen] := by
    rw [shape, ← List.append_assoc, encode_append _ [')']]
    rfl
  rw [place, split, List.length_append, List.length_singleton] at inside ⊢
  dsimp only at inside ⊢
  by_contra last
  obtain rfl : i = (encode (before ++ called)).length := by omega
  rw [masked, encode_append, split, List.append_assoc, List.getElem?_append_right (Nat.le_refl _),
    Nat.sub_self] at here
  exact absurd (Option.some.inj here) (by decide)

private theorem newline_mem_of_kept {removed kept : Span} (gone : removed ∈ spans script)
    (meets : removed.Meets site.span) (isLine : kept ∈ lineSpans script)
    (keptMeets : kept.Meets site.span) (stays : kept ∉ spans script) :
    Byte.newline ∈ (ofString script).slice site.span := by
  have last := stop_le_of_removed member gone meets
  have apart := apart_of_mem_lineSpans isLine (spans_subset gone) fun same => stays (same ▸ gone)
  have length := stop_le_length member
  obtain ⟨starts, -⟩ := meets
  obtain ⟨keptStarts, keptStops⟩ := keptMeets
  obtain ⟨i, closes, here⟩ := exists_newline isLine (by rw [← ofString_eq]; omega)
  exact mem_slice.mpr ⟨i, by omega, by omega, here⟩

private theorem exists_kept {i : Nat} (starts : site.span.start ≤ i) (stops : i < site.span.stop)
    (here : (ofString script)[i]? = some Byte.newline) :
    ∃ kept ∈ lineSpans script, kept.Meets site.span ∧ kept ∉ spans script := by
  rw [← getElem?_eq_newline_iff (forall₂_masks_mask (ofString script))] at here
  have inside := lt_stop_of_newline member stops here
  obtain ⟨front, behind, split, place⟩ := exists_append_of_getElem? here
  obtain ⟨kept, isLine, keptStarts, keptStops⟩ := exists_line_ending split 0
  rw [place] at keptStarts keptStops
  have meets : kept.Meets site.span := ⟨by omega, by omega⟩
  refine ⟨kept, by rwa [← lineSpans_mask], meets, fun removed => ?_⟩
  have := stop_le_of_removed member removed meets
  omega

/-- Lines are torn from a site exactly where it runs over a line end and its last line is removed
for the call that this line ends in. -/
theorem torn_iff :
    Torn script site ↔ Byte.newline ∈ (ofString script).slice site.span ∧
      ∃ line ∈ spans script, line.start < site.span.stop ∧ site.span.stop ≤ line.stop := by
  constructor
  · rintro ⟨removed, -, kept, isLine, ⟨meets, gone⟩, keptMeets, stays⟩
    exact ⟨newline_mem_of_kept member gone meets isLine keptMeets stays, removed, gone, meets.1,
      stop_le_of_removed member gone meets⟩
  · rintro ⟨lineEnd, removed, gone, starts, last⟩
    obtain ⟨i, inside, stops, here⟩ := mem_slice.mp lineEnd
    obtain ⟨kept, isLine, meets, stays⟩ := exists_kept member inside stops here
    exact ⟨removed, spans_subset gone, kept, isLine, ⟨⟨starts, by omega⟩, gone⟩, meets, stays⟩

end Site

/-- A binding is torn when its call stands on the next line. -/
theorem torn_iff_call_below :
    (⟨"x", .single, "y", ⟨0, 22⟩⟩ : RequireSite) ∈ all "const x =\nrequire('y')\nfoo" ∧
      Torn "const x =\nrequire('y')\nfoo" ⟨"x", .single, "y", ⟨0, 22⟩⟩ :=
  ⟨by decide +kernel, (torn_iff (by decide +kernel)).mpr (by decide +kernel)⟩

/-- A call on the line behind its equals sign is removed without the binding. -/
theorem strip_tears_site :
    ¬∀ site ∈ all "const x =\nrequire('y')\nfoo", ¬Torn "const x =\nrequire('y')\nfoo" site := by
  decide +kernel

end RequireSite

end BareComponent
