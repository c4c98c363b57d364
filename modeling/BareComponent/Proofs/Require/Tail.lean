import BareComponent.Proofs.Mask.Aligned
import BareComponent.Proofs.Mask.Front
import BareComponent.Proofs.Require.Site

/-! # What stands behind the requires of a script

A require line and a require site both end in a closing parenthesis. Behind whole lines, a tail
whose mask shows no such parenthesis is therefore kept when the require lines are stripped, and it
neither adds a site nor takes part in one.
-/

namespace BareComponent

open Text

namespace RequireLine

/-- A require line shows the parenthesis that closes its call. -/
theorem closeParen_mem_of_removed {script : String} {line : ScriptLine}
    (removed : line ∈ removedLines script) : Byte.closeParen ∈ line.mask := by
  obtain ⟨-, front, call, shape, -⟩ := mem_removedLines.mp removed
  rw [shape]
  exact (mem_encode_iff (c := ')') rfl (by decide)).mpr (by simp [Call.spelled])

/-- Stripping whole lines leaves whole lines. -/
theorem isLines_strip {script : Text} (string : IsString script) (whole : IsLines script) :
    IsLines (strip script) := by
  obtain ⟨script, rfl⟩ := string.exists_string
  rw [strip_eq, List.flatMap_def]
  refine isLines_flatten fun text member => ?_
  obtain ⟨line, kept, rfl⟩ := List.mem_map.mp member
  have inside := List.mem_map_of_mem (f := ScriptLine.text) (List.mem_of_mem_filter kept)
  rw [ScriptLine.all, ScriptLine.map_text_read] at inside
  exact whole.isLines_of_mem inside

/-- A tail without closing parentheses is kept behind whole lines. -/
theorem strip_append {script tail : Text} (string : IsString script) (tailString : IsString tail)
    (whole : IsLines script) (unclosed : Byte.closeParen ∉
      Scanner.scan (Scanner.after Scanner.start none script) none tail) :
    strip (script ++ tail) = strip script ++ tail := by
  let behind := ScriptLine.read (Scanner.after Scanner.start none script) tail.lines
  have read : ScriptLine.all (script ++ tail) = ScriptLine.all script ++ behind :=
    ScriptLine.read_append whole Scanner.start tail
  obtain ⟨both, same⟩ := (string.append tailString).exists_string
  have stays : ∀ line ∈ behind, isRequireLine line.mask = false := by
    intro line member
    by_contra removed
    rw [Bool.not_eq_false] at removed
    have inside : line ∈ removedLines both := List.mem_filter.mpr
      ⟨by rw [← same, read]; exact List.mem_append_right _ member, removed⟩
    rw [Scanner.scan_eq_flatMap_mask] at unclosed
    exact unclosed (List.mem_flatMap.mpr ⟨line, member, closeParen_mem_of_removed inside⟩)
  have kept : keptLines (script ++ tail) = keptLines script ++ behind := by
    rw [keptLines, read, List.filter_append, ← keptLines]
    exact congrArg _ (List.filter_eq_self.mpr fun line member => by rw [stays line member]; rfl)
  have texts : behind.flatMap ScriptLine.text = tail := by
    rw [List.flatMap_def, ScriptLine.map_text_read, Text.lines, flatten_linesBy]
  obtain ⟨script, rfl⟩ := string.exists_string
  rw [same, strip_eq, ← same, kept, List.flatMap_append, texts, ← strip_eq]

end RequireLine

namespace RequireSite

open Pattern Cursor

variable {tail : List Char}

/-- The last character of a site is the parenthesis that closes its call. -/
theorem Form.exists_spelled_eq (form : Form) : ∃ body, form.spelled = body ++ [')'] :=
  ⟨form.declared ++ (form.name ++ form.assigned ++ form.quote.character :: form.content ++
    form.quote.character :: form.outer), by simp [Form.spelled, Binding.spelled]⟩

/-- The same site seen from a script that has `count` more bytes in front. -/
def shift (site : RequireSite) (count : Nat) : RequireSite :=
  { site with span := site.span.shift count }

/-- What is read of the same site. -/
def moved (count : Nat) : Span × Quote × Span → Span × Quote × Span
  | (binding, quote, content) => (binding.shift count, quote, content.shift count)

/-- Where a script is masked apart from what stands behind it and the search for sites can be cut
there, the sites of both are those of each. -/
theorem all_append_of_search {script behind : Text} (string : IsString script)
    (apart : (script ++ behind).mask = script.mask ++ behind.mask)
    (searched : RequireSite.pattern.search (script.mask ++ behind.mask) =
      RequireSite.pattern.search script.mask ++ (RequireSite.pattern.search behind.mask).map
        fun found => ⟨found.span.shift script.length, moved script.length found.value⟩) :
    all (script ++ behind) = all script ++ (all behind).map (·.shift script.length) := by
  obtain ⟨characters, masked⟩ := string.aligned.maskIsString
  rw [all, apart, searched, List.map_append, List.map_map, all, all, List.map_map]
  congr 1
  · refine List.map_congr_left fun found member => ?_
    rw [masked] at member
    obtain ⟨before, rest, form, split, -, value⟩ := exists_form_of_mem_search member
    have length : script.length = (encode (before ++ form.spelled ++ rest)).length := by
      rw [← split, ← masked, mask_length]
    have binding : found.value.1.stop ≤ script.mask.length := by
      rw [mask_length, length, value]
      simp [Binding.read, Form.spelled, Binding.spelled]
    have content : found.value.2.2.stop ≤ script.length := by
      rw [length, value]
      simp [Binding.read, Form.spelled, Binding.spelled, RequireLine.contentSpan]
    dsimp only
    rw [slice_append_of_le binding, slice_append_of_le content]
  · refine List.map_congr_left fun found _ => ?_
    simp only [Function.comp_apply, moved, shift]
    rw [slice_shift, ← mask_length script, slice_shift]

/-- No site stands in a tail without closing parentheses. -/
theorem searchBehind_unclosed (unclosed : ')' ∉ tail) (before : List Char) :
    searchBehind RequireSite.pattern before tail = [] := by
  have fails (front behind : List Char) (split : tail = front ++ behind) (value cursor) :
      (value, cursor) ∉ RequireSite.pattern (between (before ++ front) (behind ++ [])) := by
    intro member
    obtain ⟨form, more, site, -⟩ := mem_pattern.mp member
    obtain ⟨body, shape⟩ := form.exists_spelled_eq
    rw [List.append_nil] at site
    simp [split, site, shape] at unclosed
  have passed := searchBehind_of_fails fun front behind split _ => fails front behind split
  rwa [List.append_nil, searchBehind_nil] at passed

/-- A site does not reach into a tail without closing parentheses. -/
theorem beside_of_unclosed (unclosed : ')' ∉ tail) {front : List Char}
    {found : Match (Span × Quote × Span)}
    (member : found ∈ search RequireSite.pattern (encode (front ++ tail))) :
    found.Beside (encode front).length := by
  obtain ⟨before, rest, form, split, span, -⟩ := exists_form_of_mem_search member
  left
  by_contra short
  rw [span, Nat.not_le] at short
  obtain ⟨more, reached, rfl⟩ := exists_append_of_length_le split short.le
  obtain ⟨last, c, rfl⟩ : ∃ last c, more = last ++ [c] := by
    refine (List.eq_nil_or_concat' more).resolve_left ?_
    rintro rfl
    rw [reached, List.append_nil] at short
    exact Nat.lt_irrefl _ short
  obtain ⟨body, shape⟩ := form.exists_spelled_eq
  rw [shape, ← List.append_assoc, ← List.append_assoc] at reached
  obtain rfl : ')' = c := by simpa using List.append_inj_right' reached rfl
  simp at unclosed

/-- Where a tail is masked by itself and shows no closing parenthesis, a script has the same sites
with it and without it. -/
theorem all_append {script behind : Text} (string : IsString script)
    (behindString : IsString behind)
    (apart : (script ++ behind).mask = script.mask ++ behind.mask)
    (unclosed : Byte.closeParen ∉ behind.mask) : all (script ++ behind) = all script := by
  obtain ⟨characters, masked⟩ := string.aligned.maskIsString
  obtain ⟨others, behindMasked⟩ := behindString.aligned.maskIsString
  have free : ')' ∉ others := fun inside =>
    unclosed (behindMasked ▸ (mem_encode_iff (c := ')') rfl (by decide)).mpr inside)
  have nothing : RequireSite.pattern.search behind.mask = [] := by
    rw [behindMasked, search_encode, searchBehind_unclosed free]
  have searched : RequireSite.pattern.search (script.mask ++ behind.mask) =
      RequireSite.pattern.search script.mask := by
    rw [masked, behindMasked, ← encode_append,
      reads_pattern.search_cut fun found member => beside_of_unclosed free member,
      searchBehind_unclosed free, List.append_nil]
  rw [all_append_of_search string apart (by rw [searched, nothing]; simp), all, all, nothing]
  simp

end RequireSite

end BareComponent
