import BareComponent.Proofs.FunctionBody.Word
import BareComponent.Proofs.Mask.Words

/-! # The name that a require site binds

A site without a keyword begins at the leftmost character of a word at which a name can begin, since
a longer name would have been found instead. The mask keeps words whole, so the name stands in the
script as it stands in the mask.
-/

namespace BareComponent

open Text Pattern Cursor RequireLine FunctionBody

/-- A place where a name stands in some characters. No name ends in front of it, which would go on
with it, and its word ends with it. -/
structure Occurrence (characters name : List Char) where
  above : List Char
  rest : List Char
  split : characters = above ++ name ++ rest
  named : IsName name
  nameless : Nameless above
  ends : ∀ c ∈ rest.head?, CharacterClass.wordOrDollar c.toNat = false

/-- Of a word, a digit or a character outside ASCII alone can stand where no name ends. -/
theorem FunctionBody.Nameless.digit_or_not_ascii {above : List Char} {c : Char}
    (nameless : Nameless above) (last : c ∈ above.getLast?)
    (inside : CharacterClass.wordOrDollar c.toNat = true) :
    CharacterClass.ofByte Byte.isDigit c.toNat = true ∨ 0x80 ≤ c.toNat := by
  obtain ⟨front, rfl⟩ := List.getLast?_eq_some_iff.mp last
  have noStart : CharacterClass.ofByte Byte.startsIdentifier c.toNat = false := by
    rw [← Bool.not_eq_true]
    exact fun starts => nameless front [c] rfl ⟨starts, by simp⟩
  rcases Nat.lt_or_ge c.toNat 0x80 with ascii | beyond
  · have low : ∀ code < 0x80, CharacterClass.wordOrDollar code = true →
        CharacterClass.ofByte Byte.startsIdentifier code = false →
          CharacterClass.ofByte Byte.isDigit code = true := by decide +kernel
    exact .inl (low c.toNat ascii inside noStart)
  · exact .inr beyond

/-- A name that is shown stands in the text at the same place. -/
theorem Text.KeepsWords.exists_occurrence {characters shown name : List Char}
    (keeps : KeepsWords (encode characters) (encode shown)) (here : Occurrence shown name) :
    ∃ there : Occurrence characters name,
      (encode there.above).length = (encode here.above).length ∧
      ∀ c ∈ there.above.getLast?, CharacterClass.wordOrDollar c.toNat = true →
        c ∈ here.above.getLast? := by
  obtain ⟨above, rest, rfl, named, nameless, ends⟩ := here
  obtain ⟨before, after, rfl, length, inFront, behind⟩ := keeps.exists_around
    (ne_nil_of_name named) (wordOrDollar_of_name named)
  refine ⟨⟨before, after, rfl, named, ?_, ?_⟩, length, ?_⟩
  · intro front word split wordNamed
    obtain ⟨others, rfl⟩ :=
      inFront front word split (wordOrDollar_of_name wordNamed)
    exact nameless others word rfl wordNamed
  · intro c first
    rw [← Bool.not_eq_true]
    intro inside
    rw [ends c (behind c first inside)] at inside
    contradiction
  · intro c last inside
    obtain ⟨front, split⟩ := List.getLast?_eq_some_iff.mp last
    obtain ⟨others, rfl⟩ := inFront front [c] split (by simpa using inside)
    exact List.getLast?_concat

namespace RequireSite

variable {characters : List Char}

private theorem steps_pattern : Steps characters RequireSite.pattern := by
  rintro before after - value next member
  obtain ⟨form, rest, rfl, -, -, rfl⟩ := mem_pattern.mp member
  exact ⟨trivial, form.spelled, rest, rfl, rfl⟩

private theorem Form.exists_closed (form : Form) : ∃ front, form.spelled = front ++ [')'] :=
  ⟨_, (List.append_assoc ..).symm⟩

private theorem passes_name {front word rest : List Char} {found : Match (Span × Quote × Span)}
    (named : IsName word)
    (member : found ∈ search RequireSite.pattern (encode (front ++ word ++ rest)))
    (reaches : (encode front).length < found.span.stop) :
    (encode (front ++ word)).length < found.span.stop := by
  refine Nat.lt_of_not_le fun stops => ?_
  obtain ⟨above, behind, site, shape, span, -⟩ := exists_form_of_mem_search member
  obtain ⟨inner, closed⟩ := site.exists_closed
  rw [congrArg Span.stop span] at reaches stops
  obtain ⟨more, frontEq, -⟩ := exists_append_of_length_le shape.symm stops
  obtain ⟨piece, siteEq, rfl⟩ := exists_append_of_length_le frontEq reaches.le
  rcases List.eq_nil_or_concat' piece with rfl | ⟨piece, c, rfl⟩
  · rw [siteEq, List.append_nil] at reaches
    exact Nat.lt_irrefl _ reaches
  · have last := congrArg List.getLast? siteEq
    rw [closed, ← List.append_assoc, ← List.append_assoc, List.getLast?_concat,
      List.getLast?_concat] at last
    have inside := wordOrDollar_of_name named c (by simp)
    rw [← Option.some.inj last] at inside
    exact absurd inside (by decide)

private theorem nameless_of_mem_search {before rest : List Char} {form : Form}
    {found : Match (Span × Quote × Span)}
    (member : found ∈ search RequireSite.pattern (encode (before ++ form.spelled ++ rest)))
    (span : found.span = ⟨(encode before).length, (encode (before ++ form.spelled)).length⟩) :
    Nameless (before ++ form.declared) := by
  obtain ⟨binding, keyword, valid⟩ := form
  cases keyword with
  | some declaration =>
    obtain ⟨word, gap⟩ := declaration
    obtain ⟨-, blank, nonempty⟩ := valid _ rfl
    refine nameless_of_getLast? fun c last => ?_
    obtain ⟨gap, d, rfl⟩ := (List.eq_nil_or_concat' gap).resolve_left nonempty
    obtain rfl : d = c := by simpa [Form.declared, ← List.append_assoc] using last
    exact CharacterClass.wordOrDollar_of_blank (blank d (by simp))
  | none =>
    rintro front word split wordNamed
    obtain rfl : before = front ++ word := by simpa [Form.declared] using split
    let longer : Form := ⟨{ binding with
      name := word ++ binding.name, named := isName_append wordNamed binding.named }, none,
        by simp⟩
    have spelled : longer.spelled = word ++ binding.spelled := by
      simp [longer, Form.spelled, Form.declared, Binding.spelled, Binding.assigned]
    have whole : front ++ (longer.spelled ++ rest) =
        front ++ word ++ Form.spelled ⟨binding, none, valid⟩ ++ rest := by
      rw [spelled]
      simp [Form.spelled, Form.declared]
    have here : matchAt? RequireSite.pattern (between front (longer.spelled ++ rest)) = some _ :=
      matchAt?_form longer rest fun nonempty => absurd rfl nonempty
    obtain ⟨other, otherMember, begins, ends⟩ := steps_pattern.exists_covering whole here
    have width := List.length_pos_iff.mpr (mt eq_nil_of_encode (ne_nil_of_name wordNamed))
    have place : found.span.start = (encode front).length + (encode word).length := by
      rw [span, ← List.length_append, ← encode_append]
    have reached := steps_pattern.stop_le_start member otherMember (by omega)
    rw [List.append_assoc (front ++ word)] at otherMember
    have passed := passes_name wordNamed otherMember ends
    rw [encode_append, List.length_append] at passed
    omega

/-- Whether the name of a site stands in some characters inside the site, with no character of a word
in front of it but a digit or one outside ASCII. -/
def Stands (characters : List Char) (site : RequireSite) : Prop :=
  ∃ name, site.binding = encode name ∧ ∃ here : Occurrence characters name,
    site.span.start ≤ (encode here.above).length ∧
    (encode (here.above ++ name)).length ≤ site.span.stop ∧
    ∀ c ∈ here.above.getLast?, CharacterClass.wordOrDollar c.toNat = true →
      CharacterClass.ofByte Byte.isDigit c.toNat = true ∨ 0x80 ≤ c.toNat

/-- The name of a site stands in the script. -/
theorem stands_of_mem_all {script : String} {site : RequireSite} (member : site ∈ all script) :
    site.Stands script.toList := by
  obtain ⟨characters, masked⟩ := (isString_ofString script).aligned.maskIsString
  rw [all, masked, List.mem_map] at member
  obtain ⟨found, inside, rfl⟩ := member
  obtain ⟨before, rest, form, rfl, span, value⟩ := exists_form_of_mem_search inside
  obtain ⟨behind, spelled⟩ := form.toBinding.exists_spelled_eq rest
  have whole : before ++ form.spelled ++ rest =
      before ++ form.declared ++ form.name ++ (form.before ++ '=' :: behind) := by
    simp only [Form.spelled, List.append_assoc, spelled]
  let here : Occurrence (before ++ form.spelled ++ rest) form.name :=
    ⟨before ++ form.declared, form.before ++ '=' :: behind, whole, form.named,
      nameless_of_mem_search inside span, wordOrDollar_head?_of_blank form.beforeBlank behind⟩
  have keeps := keepsWords_mask (ofString script)
  rw [masked, ofString_eq] at keeps
  obtain ⟨there, place, -⟩ := keeps.exists_occurrence here
  refine ⟨form.name, ?_, there, ?_, ?_, fun c => there.nameless.digit_or_not_ascii⟩
  · rw [value, whole, encode_append, encode_append]
    exact slice_append _ rfl (by simp [Nat.add_assoc])
  · rw [place, congrArg Span.start span]
    simp [here]
  · rw [congrArg Span.stop span]
    simp only [encode_append, List.length_append, place, here, Form.spelled, Binding.spelled]
    omega

end RequireSite

end BareComponent
