import BareComponent.Proofs.FunctionBody.Laminar
import BareComponent.Proofs.FunctionBody.Methods
import BareComponent.Proofs.SourceOrder
import BareComponent.Text.Identifier

/-! # Which named blocks are found

A named block is an identifier in front of parameters and a block in braces. It is found as a method
by the word that the identifier ends, or as a function by the word `function` in front. The method
search leaves out a name behind any word that ends in `function`, also where the word goes on in
front and so is not the word `function`; such a block is overlooked. So is one whose name is the end
of a word that begins with a digit, which can only be where other characters than ASCII stand in the
word. All others are found.
-/

namespace BareComponent.FunctionBody

open Cursor Pattern Text RequireLine ComponentScript

/-- An identifier in front of parameters and a block in braces. -/
structure NamedBlock (text : String) where
  front : List Char
  name : List Char
  gap : List Char
  rest : List Char
  closing : Nat
  brace : Nat
  last : Nat
  split : text.toList = front ++ (name ++ gap ++ ['('] ++ rest)
  identifier : (encode name).isIdentifier = true
  /-- No byte in front of the name belongs to it. -/
  maximal : (encode front).getLast?.any Byte.continuesIdentifier = false
  plain : encode name ∉ blockOpeners
  gapBlank : Blank gap
  parametersClose : (ofString text).closingOf? (encode (front ++ name ++ gap)).length = some closing
  braceBehind : closing < brace
  blanksBetween : ∀ i, closing < i → i < brace →
    ∃ b, (ofString text)[i]? = some b ∧ Byte.isBlank b = true
  braceOpens : (ofString text)[brace]? = some Byte.openBrace
  blockCloses : (ofString text).closingOf? brace = some last

namespace NamedBlock

variable {text : String} (block : NamedBlock text)

def head : List Char := block.front ++ block.name ++ block.gap

def opening : Nat := (encode block.head).length

/-- The inside of the braces. -/
def body : Span := ⟨block.brace + 1, block.last⟩

/-- Whether the word `function` opens the parameters. -/
def OpenedByWord : Prop :=
  ∃ before passed, block.head ++ ['('] = before ++ passed ∧ OpensFunction before passed

/-- Whether the search for methods leaves the name out, for what stands in front of its word, and no
word `function` opens its parameters. -/
def Overlooked : Prop :=
  (∃ above word, block.front ++ block.name = above ++ word ∧ IsName word ∧ Nameless above ∧
    (EndsInLongerWord above ∨ EndsInDigit above)) ∧ ¬block.OpenedByWord

theorem toList_eq : text.toList = block.head ++ '(' :: block.rest := by
  rw [block.split, head]
  simp

theorem opening_paren : (ofString text)[block.opening]? = some Byte.openParen := by
  rw [ofString_eq, block.toList_eq, encode_append, opening, List.getElem?_append_right le_rfl,
    Nat.sub_self]
  rfl

theorem opening_lt_closing : block.opening < block.closing :=
  (exists_of_closingOf? block.parametersClose).1

theorem is_name : IsName block.name := by
  have low : ∀ b ∈ encode block.name, b.toNat < 0x80 := fun b member =>
    low_of_inTarget (inTarget_of_name block.identifier b member)
  have same : ascii (encode block.name) = block.name := encode_injective (encode_ascii low)
  exact same ▸ isName_ascii block.identifier

/-- The parameters of a named block lead to its body. -/
theorem afterParameters?_eq :
    afterParameters? (ofString text) block.opening = some block.body := by
  have next : (ofString text).skipBlanks (block.closing + 1) = block.brace :=
    skipBlanks_eq block.braceBehind block.blanksBetween block.braceOpens (by decide)
  have noColon : (ofString text)[block.brace]? ≠ some Byte.colon := by
    rw [block.braceOpens]
    decide
  have braced : bracedAt? (ofString text) block.brace = some block.body := by
    rw [bracedAt?, if_pos block.braceOpens, block.blockCloses]
    rfl
  refine Option.bind_eq_some_iff.mpr ⟨block.closing, block.parametersClose, ?_⟩
  rw [next]
  exact (if_neg noColon).trans braced

/-- The body of a block is braced at the brace of the block only. -/
theorem eq_brace {position : Nat} (braced : bracedAt? (ofString text) position = some block.body) :
    position = block.brace :=
  (Nat.succ.inj (delimited_of_bracedAt? braced).2).symm

private theorem opening_le_of_body {position : Nat}
    (braced : afterParameters? (ofString text) position = some block.body) :
    block.opening ≤ position := by
  rw [ofString_eq] at braced
  by_contra earlier
  obtain ⟨closing, brace, closes, behind, opens, clear⟩ := exists_brace_of_afterParameters? braced
  rw [← ofString_eq] at closes opens clear
  obtain rfl := block.eq_brace opens
  obtain ⟨-, b, here, bracket⟩ := exists_of_closingOf? closes
  rcases Nat.lt_or_ge block.opening closing with inside | outside
  · obtain ⟨extent, -⟩ := extent_of_closingOf? closes
    obtain ⟨inner, opened⟩ := extent_of_closingOf? block.parametersClose
    have nested : block.closing < closing :=
      extent.stop_lt_of_opened inner (fun _ => id) opened
        (Nat.succ_lt_succ (Nat.lt_of_not_le earlier)) (Nat.succ_le_of_lt inside)
        (List.getElem?_eq_some_iff.mp here).1
    obtain ⟨c, there, blank⟩ := block.blanksBetween closing nested behind
    rw [isBlank_of_closingOf? closes there] at blank
    contradiction
  · rcases Nat.lt_or_eq_of_le outside with apart | same
    · have := block.opening_lt_closing
      have := block.braceBehind
      exact clear block.opening apart (by omega) block.opening_paren
    · rw [same, block.opening_paren] at here
      obtain rfl := Option.some.inj here
      exact absurd bracket (by decide)

private theorem eq_head_of_body {before head rest : List Char}
    (split : text.toList = before ++ head ++ '(' :: rest) (apart : '(' ∉ head)
    (earlier : (encode before).length < block.opening)
    (braced : afterParameters? (ofString text) (encode (before ++ head)).length =
      some block.body) : before ++ head = block.head := by
  have reached : (encode (before ++ head)).length ≤ block.opening := by
    by_contra inside
    obtain ⟨offset, place⟩ := Nat.exists_eq_add_of_le' earlier.le
    have here := block.opening_paren
    rw [encode_append, List.length_append] at inside
    rw [ofString_eq, split, place, encode_append, encode_append,
      getElem?_around _ _ (by omega)] at here
    exact apart ((mem_encode_iff (c := '(') rfl (by decide)).mp (List.mem_of_getElem? here))
  have place : (encode (before ++ head)).length = (encode block.head).length :=
    Nat.le_antisymm reached (block.opening_le_of_body braced)
  exact append_inj_of_length (split.symm.trans block.toList_eq) place

private theorem not_arrow {function : FunctionBody} (member : function ∈ arrows (ofString text))
    (earlier : function.start < block.opening) : function.body ≠ block.body := by
  intro same
  obtain ⟨found, -, here⟩ := List.mem_filterMap.mp member
  rw [start_of_ofArrow? here] at earlier
  have reached := start_le_of_ofArrow? here
  have start : function.body.start = block.brace + 1 := by
    rw [same]
    rfl
  have := block.opening_lt_closing
  have := block.braceBehind
  have behind : found.span.start + 2 ≤ block.closing := by omega
  have skipped : block.closing < (ofString text).skipBlanks (found.span.start + 2) := by omega
  obtain ⟨b, there, blank⟩ := exists_blank_of_lt_skipBlanks behind skipped
  rw [isBlank_of_closingOf? block.parametersClose there] at blank
  contradiction

private theorem exists_function (opened : block.OpenedByWord) :
    ∃ function ∈ functions (ofString text), function.start < block.opening ∧
      function.body = block.body := by
  obtain ⟨before, passed, split, opens⟩ := opened
  have whole : text.toList = before ++ (passed ++ block.rest) := by
    rw [← List.append_assoc, ← split, block.toList_eq]
    simp
  obtain ⟨found, inside, stop⟩ := exists_mem_search_functionHead opens block.rest
  rw [← whole, ← ofString_eq] at inside
  rw [← split, encode_append, List.length_append] at stop
  have stop : found.span.stop = block.opening + 1 := stop
  have earlier : found.span.start + 1 < found.span.stop := by
    obtain ⟨front, taken, -, -, -, other, span⟩ :=
      reads_functionHead.exists_of_mem_search (ofString_eq text ▸ inside)
    have := other.one_lt_length
    rw [span, encode_append, List.length_append]
    dsimp only
    omega
  have braced : afterParameters? (ofString text) (found.span.stop - 1) = some block.body := by
    rw [stop, Nat.add_sub_cancel, block.afterParameters?_eq]
  exact ⟨⟨.function, found.span.start, block.body⟩,
    List.mem_filterMap.mpr ⟨found, inside, by rw [braced, Option.map_some]⟩, by dsimp only; omega,
    rfl⟩

private theorem not_mem_blockOpeners {above more : List Char}
    (frontEq : block.front = above ++ more) : encode (more ++ block.name) ∉ blockOpeners := by
  intro member
  rcases List.eq_nil_or_concat' (encode more) with nothing | ⟨bytes, b, shape⟩
  · rw [encode_append, nothing] at member
    exact block.plain member
  · have identifiers : ∀ word ∈ blockOpeners, word.isIdentifier = true := by decide
    have continues : Byte.continuesIdentifier b = true :=
      continuesIdentifier_of_name (identifiers _ member) b (by simp [shape])
    have edge := block.maximal
    rw [frontEq, encode_append, shape, ← List.append_assoc, List.getLast?_concat,
      Option.any_some, continues] at edge
    contradiction

private theorem exists_method {above more : List Char} (frontEq : block.front = above ++ more)
    (named : IsName (more ++ block.name)) (nameless : Nameless above)
    (noDigit : ¬EndsInDigit above) (noWord : ¬EndsInFunction above) :
    ∃ function ∈ methods (ofString text), function.start < block.opening ∧
      function.body = block.body := by
  have headEq : block.head = above ++ (more ++ block.name ++ block.gap) := by
    rw [head, frontEq]
    simp
  have whole : text.toList = above ++ (more ++ block.name ++ block.gap ++ ['('] ++ block.rest) := by
    rw [block.toList_eq, headEq]
    simp
  have earlier : (encode above).length < block.opening := by
    have positive : 0 < (encode block.name).length := by
      rw [List.length_pos_iff]
      intro nothing
      have identifier := block.identifier
      rw [nothing] at identifier
      contradiction
    rw [opening, headEq]
    simp only [encode_append, List.length_append]
    omega
  have braced := block.afterParameters?_eq
  rw [opening, headEq, ofString_eq] at braced
  rw [ofString_eq]
  exact ⟨⟨.method, (encode above).length, block.body⟩, mem_methods_iff.mpr
    ⟨above, more ++ block.name, block.gap, block.rest, block.body, whole, named, block.gapBlank,
      nameless, block.not_mem_blockOpeners frontEq, noDigit, noWord, braced, rfl⟩, earlier, rfl⟩

private theorem not_overlooked_of_mem {function : FunctionBody}
    (member : function ∈ all (ofString text)) (earlier : function.start < block.opening)
    (same : function.body = block.body) : ¬block.Overlooked := by
  rintro ⟨⟨above, word, split, named, nameless, inFront⟩, noWord⟩
  rcases List.mem_append.mp (SourceOrder.mem_of_mem_sort member) with found | method
  · rcases List.mem_append.mp found with function | arrow
    · obtain ⟨before, head, rest, shape, apart, opens, start, braced⟩ :=
        exists_opensFunction_of_mem_functions (ofString_eq text ▸ function)
      have whole := block.eq_head_of_body shape apart (start ▸ earlier) (same ▸ braced)
      exact noWord ⟨before, head ++ ['('], by rw [← whole, List.append_assoc], opens⟩
    · exact block.not_arrow arrow earlier same
  · obtain ⟨front, name, gap, rest, body, shape, isName, blank, otherNameless, -, noDigit,
      noFunction, braced, rfl⟩ := mem_methods_iff.mp (ofString_eq text ▸ method)
    obtain rfl := same
    have whole := block.eq_head_of_body (by simpa using shape)
      (not_mem_of_opening isName blank) earlier braced
    rw [← List.append_assoc, head] at whole
    obtain ⟨words, -⟩ := eq_of_append_blank whole blank block.gapBlank
      (dark_getLast?_of_name isName front) (dark_getLast?_of_name block.is_name block.front)
    obtain ⟨rfl, -⟩ := word_unique (split.symm.trans words.symm) named isName nameless
      otherNameless
    exact inFront.elim (fun ends => noFunction ends.endsInFunction) noDigit

private theorem exists_method_of_not_overlooked (notOverlooked : ¬block.Overlooked)
    (noWord : ¬block.OpenedByWord) : ∃ function ∈ methods (ofString text),
      function.start < block.opening ∧ function.body = block.body := by
  obtain ⟨above, more, frontEq, named, nameless⟩ := exists_word block.is_name block.front
  have nothingInFront : ¬(EndsInLongerWord above ∨ EndsInDigit above) := fun inFront =>
    notOverlooked ⟨⟨above, more ++ block.name, by rw [frontEq, List.append_assoc], named,
      nameless, inFront⟩, noWord⟩
  obtain ⟨own, noDigit⟩ := not_or.mp nothingInFront
  have noFunction : ¬EndsInFunction above := by
    intro ends
    obtain ⟨before, passed, split, opens⟩ := ends.opensFunction nameless own named block.gapBlank
    exact noWord ⟨before, passed, by rw [← split, head, frontEq]; simp, opens⟩
  exact block.exists_method frontEq named nameless noDigit noFunction

/-- A named block is found, by something that begins in front of its parameters, unless it is
overlooked. -/
theorem found_iff_not_overlooked : (∃ function ∈ all (ofString text),
    function.start < block.opening ∧ function.body = block.body) ↔ ¬block.Overlooked := by
  constructor
  · rintro ⟨function, member, earlier, same⟩
    exact block.not_overlooked_of_mem member earlier same
  · intro notOverlooked
    by_cases opened : block.OpenedByWord
    · obtain ⟨function, member, found⟩ := block.exists_function opened
      exact ⟨function, SourceOrder.mem_sort_of_mem
        (List.mem_append_left _ (List.mem_append_left _ member)), found⟩
    · obtain ⟨function, member, found⟩ :=
        block.exists_method_of_not_overlooked notOverlooked opened
      exact ⟨function, SourceOrder.mem_sort_of_mem (List.mem_append_right _ member), found⟩

/-- A method behind a field whose name ends in `function`. -/
def behindField : NamedBlock "class A \x7b isfunction\nfoo() { x = 1 } \x7d" where
  front := "class A \x7b isfunction\n".toList
  name := "foo".toList
  gap := []
  rest := ") { x = 1 } \x7d".toList
  closing := 25
  brace := 27
  last := 35
  split := by decide +kernel
  identifier := by decide +kernel
  maximal := by decide +kernel
  plain := by decide +kernel
  gapBlank := blank_nil
  parametersClose := by decide +kernel
  braceBehind := by decide
  blanksBetween i _ _ := by
    obtain rfl : i = 26 := by omega
    exact ⟨Byte.space, by decide +kernel, by decide⟩
  braceOpens := by decide +kernel
  blockCloses := by decide +kernel

/-- A generator behind such a field. -/
def generatorBehindField : NamedBlock "isfunction\nfunction* foo(a) { b }" where
  front := "isfunction\nfunction* ".toList
  name := "foo".toList
  gap := []
  rest := "a) { b }".toList
  closing := 26
  brace := 28
  last := 32
  split := by decide +kernel
  identifier := by decide +kernel
  maximal := by decide +kernel
  plain := by decide +kernel
  gapBlank := blank_nil
  parametersClose := by decide +kernel
  braceBehind := by decide
  blanksBetween i _ _ := by
    obtain rfl : i = 27 := by omega
    exact ⟨Byte.space, by decide +kernel, by decide⟩
  braceOpens := by decide +kernel
  blockCloses := by decide +kernel

/-- The method is overlooked and the generator is not. -/
theorem found_iff_not_overlooked_behind_field :
    behindField.Overlooked ∧ ¬generatorBehindField.Overlooked := by
  constructor
  · by_contra found
    obtain ⟨function, member, -⟩ := (found_iff_not_overlooked behindField).mpr found
    have nothing : all (ofString "class A \x7b isfunction\nfoo() { x = 1 } \x7d") = [] := by
      decide +kernel
    rw [nothing] at member
    contradiction
  · refine (found_iff_not_overlooked generatorBehindField).mp ?_
    decide +kernel

/-- The method is not found, in a text that has no other function. -/
theorem not_found_behind_field : ∃ block : NamedBlock "class A \x7b isfunction\nfoo() { x = 1 } \x7d",
    ∀ function ∈ all (ofString "class A \x7b isfunction\nfoo() { x = 1 } \x7d"),
      function.body ≠ block.body :=
  ⟨behindField, by decide +kernel⟩

end NamedBlock

end BareComponent.FunctionBody
