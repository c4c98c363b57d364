import BareComponent.Proofs.Component.ImportLine
import BareComponent.Proofs.FunctionBody.Word

/-! # What is found as a function and as a method

A function is found where the word `function` opens its parameters. A method is found by a name that
is as long as it can be, unless the name is a keyword or a digit stands in front of it, or a word that
ends in `function`: that word need not be `function` itself.
-/

namespace BareComponent.FunctionBody

open Cursor Pattern Text RequireLine ComponentScript

section MethodNames

variable {above rest : List Char}

/-- The last byte of some characters continues an identifier if their last character does. -/
theorem getLast?_encode_any (characters : List Char) :
    (encode characters).getLast?.any Byte.continuesIdentifier =
      characters.getLast?.any fun c => CharacterClass.ofByte Byte.continuesIdentifier c.toNat := by
  rcases List.eq_nil_or_concat' characters with rfl | ⟨front, c, rfl⟩
  · rfl
  · have nonempty : String.utf8EncodeChar c ≠ [] := String.utf8EncodeChar_ne_nil
    rw [encode_append, encode_cons, encode_nil, List.append_nil,
      List.getLast?_append_of_ne_nil _ nonempty, List.getLast?_concat, Option.any_some,
      CharacterClass.ofByte]
    by_cases ascii : c.toNat < 0x80
    · simp [encodeChar_of_ascii ascii, ascii]
    · rw [decide_eq_false ascii, Bool.false_and, Option.any_eq_false]
      intro b last
      by_contra continues
      rw [Bool.not_eq_false] at continues
      have low : b.toNat < 0x80 := low_of_inTarget (by simp [inTarget, continues])
      have code := (encodeChar_eq_singleton (List.mem_of_getLast? last) low).2
      omega

def EndsInDigit (characters : List Char) : Prop :=
  ∃ c ∈ characters.getLast?, CharacterClass.ofByte Byte.isDigit c.toNat = true

/-- Whether some characters end with a word that ends in `function` and is longer, blanks allowed
behind it. -/
def EndsInLongerWord (characters : List Char) : Prop :=
  ∃ front blanks, characters = front ++ "function".toList ++ blanks ∧ Blank blanks ∧
    isWord front.getLast? = true

theorem EndsInLongerWord.endsInFunction (ends : EndsInLongerWord above) : EndsInFunction above := by
  obtain ⟨front, blanks, split, blank, -⟩ := ends
  exact ⟨front, blanks, split, blank⟩

/-- The word `function` in front of a name opens the parameters behind the name. -/
theorem EndsInFunction.opensFunction {name gap : List Char} (ends : EndsInFunction above)
    (nameless : Nameless above) (own : ¬EndsInLongerWord above) (named : IsName name)
    (blank : Blank gap) : ∃ before passed, above ++ (name ++ gap) ++ ['('] = before ++ passed ∧
      OpensFunction before passed := by
  obtain ⟨before, blanks, rfl, blanksBlank⟩ := ends
  have edge : isWord before.getLast? = false := by
    rw [← Bool.not_eq_true]
    exact fun inside => own ⟨before, blanks, rfl, blanksBlank, inside⟩
  have wordNamed : IsName "function".toList :=
    ⟨by decide, forall_mem_of_all (by decide)⟩
  cases blanks with
  | nil => exact absurd wordNamed (nameless before _ (List.append_nil _))
  | cons c blanks =>
    have endsWord : isWord (c :: blanks ++ [] ++ (name ++ gap)).head? = false :=
      CharacterClass.word_of_blank (blanksBlank c List.mem_cons_self)
    let opening : FunctionOpening := ⟨c :: blanks, [], name ++ gap, blanksBlank, .inl rfl,
      .inr ⟨name, gap, rfl, named, blank⟩, endsWord⟩
    exact ⟨before, "function".toList ++ opening.spelled ++ ['('],
      by simp [opening, FunctionOpening.spelled], edge, opening, rfl⟩

/-- Where no name ends, only a digit can continue an identifier. -/
theorem continues_iff_endsInDigit (nameless : Nameless above) :
    (encode above).getLast?.any Byte.continuesIdentifier = true ↔ EndsInDigit above := by
  rw [getLast?_encode_any, Option.any_eq_true]
  refine exists_congr fun c => and_congr_right fun last => ?_
  obtain ⟨front, rfl⟩ := List.getLast?_eq_some_iff.mp last
  have noStart : CharacterClass.ofByte Byte.startsIdentifier c.toNat ≠ true := fun starts =>
    nameless front [c] rfl ⟨starts, by simp⟩
  simp only [CharacterClass.ofByte, Byte.continuesIdentifier, ne_eq, Bool.and_eq_true,
    Bool.or_eq_true, decide_eq_true_eq] at noStart ⊢
  tauto

/-- A name can be that of a method if it is no keyword, and if neither a digit nor a word that ends in
`function` stands in front of its word. -/
theorem isMethodName_iff {name : Text} (nameless : Nameless above) :
    isMethodName (encode (above ++ rest)) name (encode above).length = true ↔
      name ∉ blockOpeners ∧ ¬EndsInDigit above ∧ ¬EndsInFunction above := by
  rw [isMethodName, encode_append, List.take_left]
  simp only [Bool.and_eq_true, Bool.not_eq_true', ← Bool.not_eq_true, trimEnd_endsWith_iff,
    continues_iff_endsInDigit nameless, List.contains_iff_mem, and_assoc]

end MethodNames

section Found

variable {characters : List Char} {function : FunctionBody}

private theorem length_pred_of_head (before head : List Char) :
    (encode (before ++ (head ++ ['(']))).length - 1 = (encode (before ++ head)).length := by
  rw [← List.append_assoc, encode_append _ ['('], List.length_append]
  rfl

/-- The methods of a text are the names in front of parameters and a body, each as long as it can
be, that can be those of methods. -/
theorem mem_methods_iff : function ∈ methods (encode characters) ↔ ∃ above name gap rest body,
    characters = above ++ (name ++ gap ++ ['('] ++ rest) ∧ IsName name ∧ Blank gap ∧
      Nameless above ∧ encode name ∉ blockOpeners ∧ ¬EndsInDigit above ∧ ¬EndsInFunction above ∧
      afterParameters? (encode characters) (encode (above ++ (name ++ gap))).length = some body ∧
      function = ⟨.method, (encode above).length, body⟩ := by
  have read (above name gap rest : List Char) :
      (encode (above ++ (name ++ gap ++ ['('] ++ rest))).slice
        ⟨(encode above).length, (encode (above ++ name)).length⟩ = encode name := by
    have regrouped : above ++ (name ++ gap ++ ['('] ++ rest) =
        above ++ name ++ (gap ++ ['('] ++ rest) := by simp
    rw [regrouped, encode_append, encode_append]
    exact slice_append _ rfl (List.length_append ..).symm
  constructor
  · intro member
    obtain ⟨found, inside, here⟩ := List.mem_filterMap.mp member
    obtain ⟨above, name, gap, rest, rfl, named, blank, nameless, rfl⟩ :=
      mem_search_methodHead_iff.mp inside
    split at here
    · next isMethod =>
      obtain ⟨body, braced, rfl⟩ := Option.map_eq_some_iff.mp here
      rw [read, isMethodName_iff nameless] at isMethod
      obtain ⟨plain, digit, word⟩ := isMethod
      exact ⟨above, name, gap, rest, body, rfl, named, blank, nameless, plain, digit, word,
        length_pred_of_head above (name ++ gap) ▸ braced, rfl⟩
    · contradiction
  · rintro ⟨above, name, gap, rest, body, rfl, named, blank, nameless, plain, digit, word, braced,
      rfl⟩
    refine List.mem_filterMap.mpr ⟨_, mem_search_methodHead_iff.mpr
      ⟨above, name, gap, rest, rfl, named, blank, nameless, rfl⟩, ?_⟩
    rw [read, if_pos ((isMethodName_iff nameless).mpr ⟨plain, digit, word⟩), length_pred_of_head,
      braced, Option.map_some]

/-- A function stands where the word `function` opens its parameters. -/
theorem exists_opensFunction_of_mem_functions (member : function ∈ functions (encode characters)) :
    ∃ before head rest, characters = before ++ head ++ '(' :: rest ∧ '(' ∉ head ∧
      OpensFunction before (head ++ ['(']) ∧ function.start = (encode before).length ∧
      afterParameters? (encode characters) (encode (before ++ head)).length =
        some function.body := by
  obtain ⟨found, inside, here⟩ := List.mem_filterMap.mp member
  obtain ⟨body, braced, rfl⟩ := Option.map_eq_some_iff.mp here
  obtain ⟨before, _, rest, rfl, -, opens, span⟩ := reads_functionHead.exists_of_mem_search inside
  obtain ⟨edge, opening, rfl⟩ := opens
  refine ⟨before, "function".toList ++ opening.spelled, rest, by simp, opening.not_mem_paren,
    ⟨edge, opening, rfl⟩, by rw [span], ?_⟩
  rwa [span, length_pred_of_head] at braced

end Found

end BareComponent.FunctionBody
