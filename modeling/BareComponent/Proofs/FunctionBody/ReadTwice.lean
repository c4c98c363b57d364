import BareComponent.Proofs.FunctionBody.Laminar
import BareComponent.Proofs.FunctionBody.Methods

/-! # What is read as a function and as a method

Parameters open for at most one function and for at most one method. They open for both if they are
those of a named generator: the search for methods sees the asterisk in front of its name and not
the word `function`. They also do if the word stands beside a dollar sign, which ends it for one
search and goes on in a name for the other. No others do.
-/

namespace BareComponent.FunctionBody

open Text Pattern RequireLine

section Parameters

variable {text : Text} {characters : List Char} {function other : FunctionBody} {opening : Nat}

/-- Whether the parameters of a function or a method open at a position, which is the first
parenthesis from where it begins. -/
structure OpensAt (text : Text) (function : FunctionBody) (opening : Nat) : Prop where
  form : function.form = .function ∨ function.form = .method
  behind : function.start < opening
  paren : text[opening]? = some Byte.openParen
  clear : ∀ i, function.start ≤ i → i < opening → text[i]? ≠ some Byte.openParen

/-- A function opens its parameters at one place. -/
theorem OpensAt.unique {position : Nat} (opens : OpensAt text function opening)
    (again : OpensAt text function position) : opening = position := by
  rcases Nat.lt_trichotomy opening position with earlier | same | later
  · exact absurd opens.paren (again.clear opening opens.behind.le earlier)
  · exact same
  · exact absurd again.paren (opens.clear position again.behind.le later)

theorem opensAt_of_head {before head : List Char}
    (form : function.form = .function ∨ function.form = .method)
    (start : function.start = (encode before).length) (nonempty : head ≠ []) (apart : '(' ∉ head)
    (rest : List Char) :
    OpensAt (encode (before ++ head ++ '(' :: rest)) function (encode (before ++ head)).length := by
  have positive : 0 < (encode head).length :=
    List.length_pos_iff.mpr (mt eq_nil_of_encode nonempty)
  refine ⟨form, ?_, ?_, fun i starts stops => ?_⟩
  · rw [start, encode_append, List.length_append]
    omega
  · rw [encode_append, List.getElem?_append_right le_rfl, Nat.sub_self]
    rfl
  · rw [start] at starts
    obtain ⟨offset, rfl⟩ := Nat.exists_eq_add_of_le' starts
    rw [encode_append, List.length_append] at stops
    rw [encode_append, encode_append, getElem?_around _ _ (by omega)]
    exact fun paren =>
      apart ((mem_encode_iff (c := '(') rfl (by decide)).mp (List.mem_of_getElem? paren))

private theorem opensAt_of_name {name gap : List Char} (named : IsName name) (blank : Blank gap)
    (above rest : List Char) (body : Span) :
    OpensAt (encode (above ++ (name ++ gap) ++ '(' :: rest)) ⟨.method, (encode above).length, body⟩
      (encode (above ++ (name ++ gap))).length :=
  opensAt_of_head (.inr rfl) rfl (List.append_ne_nil_of_left_ne_nil (ne_nil_of_name named) gap)
    (not_mem_of_opening named blank) rest

private theorem opensAt_of_mem_search {found : Match Unit}
    (inside : found ∈ functionHead.search (encode characters)) (form : function.form = .function)
    (start : function.start = found.span.start) :
    OpensAt (encode characters) function (found.span.stop - 1) ∧ found.span.stop ≠ 0 := by
  obtain ⟨before, _, rest, rfl, -, ⟨-, opening, rfl⟩, span⟩ :=
    reads_functionHead.exists_of_mem_search inside
  have stop : found.span.stop = (encode (before ++ ("function".toList ++ opening.spelled))).length +
      1 := by
    rw [span, ← List.append_assoc, encode_append _ ['('], List.length_append]
    rfl
  have shape : before ++ ("function".toList ++ opening.spelled ++ ['(']) ++ rest =
      before ++ ("function".toList ++ opening.spelled) ++ '(' :: rest := by simp
  refine ⟨?_, by omega⟩
  rw [stop, Nat.add_sub_cancel, shape]
  exact opensAt_of_head (.inl form) (start.trans (congrArg Span.start span))
    (List.append_ne_nil_of_left_ne_nil (by decide) _) opening.not_mem_paren rest

theorem form_of_mem_functions (member : function ∈ functions text) :
    function.form = .function := by
  obtain ⟨found, -, here⟩ := List.mem_filterMap.mp member
  obtain ⟨body, -, rfl⟩ := Option.map_eq_some_iff.mp here
  rfl

/-- The parameters of what begins with the word `function` lead to its body. -/
theorem exists_opensAt_of_mem_functions (member : function ∈ functions (encode characters)) :
    ∃ opening, OpensAt (encode characters) function opening ∧
      afterParameters? (encode characters) opening = some function.body := by
  obtain ⟨found, inside, here⟩ := List.mem_filterMap.mp member
  obtain ⟨body, leads, rfl⟩ := Option.map_eq_some_iff.mp here
  exact ⟨_, (opensAt_of_mem_search inside rfl rfl).1, leads⟩

/-- A method begins with a name in front of its parameters, and these lead to its body. -/
theorem exists_name_of_mem_methods (member : function ∈ methods (encode characters)) :
    ∃ above name gap rest body, characters = above ++ (name ++ gap) ++ '(' :: rest ∧ IsName name ∧
      Blank gap ∧ Nameless above ∧ encode name ∉ blockOpeners ∧ ¬EndsInFunction above ∧
      afterParameters? (encode characters) (encode (above ++ (name ++ gap))).length = some body ∧
      function = ⟨.method, (encode above).length, body⟩ := by
  obtain ⟨above, name, gap, rest, body, rfl, named, blank, nameless, plain, -, apart, leads, rfl⟩ :=
    mem_methods_iff.mp member
  exact ⟨above, name, gap, rest, body, by simp, named, blank, nameless, plain, apart, leads, rfl⟩

/-- Every method that is found opens its parameters somewhere, and its body is what stands behind
them. -/
theorem exists_opensAt_of_mem_methods (member : function ∈ methods (encode characters)) :
    ∃ opening, OpensAt (encode characters) function opening ∧
      afterParameters? (encode characters) opening = some function.body := by
  obtain ⟨above, name, gap, rest, body, rfl, named, blank, -, -, -, leads, rfl⟩ :=
    exists_name_of_mem_methods member
  exact ⟨_, opensAt_of_name named blank above rest body, leads⟩

/-- Parameters open for one function. -/
theorem eq_of_mem_functions (member : function ∈ functions (encode characters))
    (otherMember : other ∈ functions (encode characters))
    (opens : OpensAt (encode characters) function opening)
    (otherOpens : OpensAt (encode characters) other opening) : function = other := by
  obtain ⟨found, inside, here⟩ := List.mem_filterMap.mp member
  obtain ⟨again, there, here'⟩ := List.mem_filterMap.mp otherMember
  obtain ⟨body, -, rfl⟩ := Option.map_eq_some_iff.mp here
  obtain ⟨otherBody, -, rfl⟩ := Option.map_eq_some_iff.mp here'
  obtain ⟨first, _⟩ : OpensAt _ ⟨.function, found.span.start, body⟩ _ ∧ _ :=
    opensAt_of_mem_search inside rfl rfl
  obtain ⟨second, _⟩ : OpensAt _ ⟨.function, again.span.start, otherBody⟩ _ ∧ _ :=
    opensAt_of_mem_search there rfl rfl
  have stops : found.span.stop = again.span.stop := by
    have := first.unique opens
    have := second.unique otherOpens
    omega
  obtain rfl := Checked.steps_functionHead.eq_of_stop inside there stops
  exact Option.some.inj (here.symm.trans here')

/-- Parameters open for one method. -/
theorem eq_of_mem_methods (member : function ∈ methods (encode characters))
    (otherMember : other ∈ methods (encode characters))
    (opens : OpensAt (encode characters) function opening)
    (otherOpens : OpensAt (encode characters) other opening) : function = other := by
  obtain ⟨above, name, gap, rest, body, rfl, named, blank, nameless, -, -, leads, rfl⟩ :=
    exists_name_of_mem_methods member
  obtain ⟨front, word, space, behind, otherBody, shape, wordNamed, spaceBlank, otherNameless,
    -, -, otherLeads, rfl⟩ := exists_name_of_mem_methods otherMember
  have first := (opensAt_of_name named blank above rest body).unique opens
  have second := opensAt_of_name wordNamed spaceBlank front behind otherBody
  rw [← shape] at second
  have heads := append_inj_of_length shape (first.trans (otherOpens.unique second))
  rw [← heads, leads] at otherLeads
  obtain rfl := Option.some.inj otherLeads
  rw [← List.append_assoc, ← List.append_assoc] at heads
  obtain ⟨words, -⟩ := eq_of_append_blank heads blank spaceBlank
    (dark_getLast?_of_name named above) (dark_getLast?_of_name wordNamed front)
  obtain ⟨rfl, -⟩ := word_unique words named wordNamed nameless otherNameless
  rfl

end Parameters

section Twice

variable {above before gap more name blanks tail : List Char}

private theorem nameless_concat {c : Char} (dark : CharacterClass.wordOrDollar c.toNat = false) :
    Nameless (above ++ [c]) := by
  refine nameless_of_getLast? fun d last => ?_
  rw [List.getLast?_concat] at last
  obtain rfl := Option.some.inj last
  exact dark

private theorem nameless_append_blank {space : List Char} (nameless : Nameless above)
    (blank : Blank space) : Nameless (above ++ space) := by
  rcases List.eq_nil_or_concat' space with rfl | ⟨space, c, rfl⟩
  · rwa [List.append_nil]
  · rw [← List.append_assoc]
    exact nameless_concat (CharacterClass.wordOrDollar_of_blank (blank c (by simp)))

/-- Only a dollar sign goes on in a name and in no word. -/
theorem eq_dollar {c : Char} (inside : CharacterClass.wordOrDollar c.toNat = true)
    (edge : CharacterClass.word c.toNat = false) : c = '$' := by
  simp only [CharacterClass.wordOrDollar, CharacterClass.or, edge, Bool.false_or,
    CharacterClass.ofByte, Bool.and_eq_true, decide_eq_true_eq, beq_iff_eq] at inside
  obtain ⟨ascii, code⟩ := inside
  have code := congrArg UInt8.toNat code
  rw [Nat.toUInt8_eq, UInt8.toNat_ofNat', Nat.mod_eq_of_lt (by omega)] at code
  exact Char.toNat_inj.mp code

/-- Whether the word `function` stands in a name beside a dollar sign, with what stands of the name
in front of the word and behind it. -/
structure BesideDollar (name more tail : List Char) : Prop where
  split : name = more ++ "function".toList ++ tail
  dollar : more.getLast? = some '$' ∨ tail.head? = some '$'

private theorem besideDollar_of_append
    (same : before ++ ("function".toList ++ tail) = above ++ name)
    (edge : isWord before.getLast? = false) (ends : isWord tail.head? = false)
    (through : IsName ("function".toList ++ tail)) (named : IsName name) (nameless : Nameless above)
    (plain : encode name ∉ blockOpeners) :
    ∃ more, before = above ++ more ∧ BesideDollar name more tail := by
  obtain ⟨front, more, rfl, longer, frontNameless⟩ := exists_word through before
  have regrouped : front ++ (more ++ ("function".toList ++ tail)) = above ++ name := by
    rw [← same, List.append_assoc]
  obtain ⟨rfl, rfl⟩ := word_unique regrouped longer named frontNameless nameless
  refine ⟨more, rfl, (List.append_assoc ..).symm, ?_⟩
  rcases List.eq_nil_or_concat' more with rfl | ⟨more, c, rfl⟩
  · cases tail with
    | nil => exact absurd (by decide) plain
    | cons c tail =>
      right
      rw [List.head?_cons, eq_dollar (wordOrDollar_of_name named c (by simp)) (by
        simpa [isWord] using ends)]
  · left
    rw [List.getLast?_concat, eq_dollar (wordOrDollar_of_name named c (by simp)) (by
      simpa [isWord] using edge)]

private theorem isName_function : IsName "function".toList :=
  ⟨by decide, forall_mem_of_all (by decide)⟩

private theorem besideDollar_of_anonymous (opening : FunctionOpening) (nothing : opening.named = [])
    (same : before ++ ("function".toList ++ opening.spelled) = above ++ name ++ gap)
    (edge : isWord before.getLast? = false) (named : IsName name) (blank : Blank gap)
    (nameless : Nameless above) (plain : encode name ∉ blockOpeners) :
    ∃ more, before = above ++ more ∧ BesideDollar name more [] := by
  have dark := dark_getLast?_of_name named above
  rcases opening.asteriskValid with no_asterisk | ⟨blanks, asteriskEq, blanksBlank⟩
  · have spelled : opening.spelled = opening.gap := by
      simp [FunctionOpening.spelled, nothing, no_asterisk]
    rw [spelled, ← List.append_assoc] at same
    obtain ⟨words, -⟩ := eq_of_append_blank same opening.gapBlank blank
      (dark_getLast?_of_name isName_function before) dark
    rw [← List.append_nil "function".toList] at words
    exact besideDollar_of_append words edge rfl (by simpa using isName_function) named nameless
      plain
  · have whole : before ++ "function".toList ++ opening.gap ++ ['*'] ++ blanks =
        above ++ name ++ gap := by
      rw [← same]
      simp [FunctionOpening.spelled, nothing, asteriskEq]
    obtain ⟨words, -⟩ := eq_of_append_blank whole blanksBlank blank
      (fun c last => by
        rw [List.getLast?_concat] at last
        obtain rfl := Option.some.inj last
        decide) dark
    exact absurd named (nameless_concat (by decide) above name words)

private theorem name_of_named (opening : FunctionOpening) {word space : List Char}
    (namedEq : opening.named = word ++ space) (wordNamed : IsName word)
    (spaceBlank : Blank space)
    (same : before ++ ("function".toList ++ opening.spelled) = above ++ name ++ gap)
    (edge : isWord before.getLast? = false) (named : IsName name) (blank : Blank gap)
    (nameless : Nameless above) (plain : encode name ∉ blockOpeners)
    (apart : ¬EndsInFunction above) :
    (∃ blanks, Blank blanks ∧
      above = before ++ "function".toList ++ opening.gap ++ ['*'] ++ blanks) ∨
    ∃ more, before = above ++ more ∧ BesideDollar name more word := by
  have whole : before ++ "function".toList ++ opening.gap ++ opening.asterisk ++ word ++ space =
      above ++ name ++ gap := by
    rw [← same]
    simp [FunctionOpening.spelled, namedEq]
  obtain ⟨words, -⟩ := eq_of_append_blank whole spaceBlank blank
    (dark_getLast?_of_name wordNamed _) (dark_getLast?_of_name named above)
  rcases opening.asteriskValid with no_asterisk | ⟨blanks, asteriskEq, blanksBlank⟩
  · right
    rw [no_asterisk, List.append_nil] at words
    rcases List.eq_nil_or_concat' opening.gap with no_gap | ⟨front, c, gapEq⟩
    · rw [no_gap, List.append_nil, List.append_assoc] at words
      have ends := opening.endsWord
      have first : (word ++ space).head? = word.head? := by
        cases word with
        | nil => exact wordNamed.elim
        | cons c word => rfl
      rw [no_gap, no_asterisk, namedEq, List.nil_append, List.nil_append, first] at ends
      exact besideDollar_of_append words edge ends (isName_append isName_function wordNamed) named
        nameless plain
    · have cBlank := opening.gapBlank c (by simp [gapEq])
      have inFront : Nameless (before ++ "function".toList ++ opening.gap) := by
        rw [gapEq, ← List.append_assoc]
        exact nameless_concat (CharacterClass.wordOrDollar_of_blank cBlank)
      obtain ⟨rfl, -⟩ := word_unique words wordNamed named inFront nameless
      exact absurd ⟨before, opening.gap, rfl, opening.gapBlank⟩ apart
  · left
    rw [asteriskEq, ← List.singleton_append, ← List.append_assoc] at words
    have inFront : Nameless (before ++ "function".toList ++ opening.gap ++ ['*'] ++ blanks) :=
      nameless_append_blank (nameless_concat (by decide)) blanksBlank
    exact ⟨blanks, blanksBlank, (word_unique words wordNamed named inFront nameless).1.symm⟩

/-- Whether a generator begins at one position of some characters and its name at another. -/
def GeneratorAt (characters : List Char) (start nameStart : Nat) : Prop :=
  ∃ before gap blanks name space rest, characters =
      before ++ "function".toList ++ gap ++ ['*'] ++ blanks ++ (name ++ space) ++ '(' :: rest ∧
    Blank gap ∧ Blank blanks ∧ IsName name ∧ Blank space ∧ start = (encode before).length ∧
    nameStart = (encode (before ++ "function".toList ++ gap ++ ['*'] ++ blanks)).length

/-- Whether the word `function` begins at one position of some characters, beside a dollar sign, and
the name that goes through it at another. -/
def DollarAt (characters : List Char) (start nameStart : Nat) : Prop :=
  ∃ above more tail name space rest, characters = above ++ (name ++ space) ++ '(' :: rest ∧
    BesideDollar name more tail ∧ IsName name ∧ Blank space ∧
    start = (encode (above ++ more)).length ∧ nameStart = (encode above).length

/-- Whether a function and a method are read from one construct. -/
structure ReadTwice (characters : List Char) (function method : FunctionBody) : Prop where
  isFunction : function.form = .function
  isMethod : method.form = .method
  read : GeneratorAt characters function.start method.start ∨
    DollarAt characters function.start method.start

variable {characters : List Char} {function method : FunctionBody} {opening : Nat}

/-- What is read from one construct has the same parameters. -/
theorem ReadTwice.exists_opensAt (read : ReadTwice characters function method) :
    ∃ opening, OpensAt (encode characters) function opening ∧
      OpensAt (encode characters) method opening := by
  obtain ⟨isFunction, isMethod, generator | dollar⟩ := read
  · obtain ⟨before, gap, blanks, name, space, rest, rfl, gapBlank, blanksBlank, named,
      spaceBlank, start, nameStart⟩ := generator
    have someName := List.append_ne_nil_of_left_ne_nil (ne_nil_of_name named) space
    have whole : before ++ "function".toList ++ gap ++ ['*'] ++ blanks ++ (name ++ space) =
        before ++ ("function".toList ++ gap ++ ['*'] ++ blanks ++ (name ++ space)) := by simp
    refine ⟨_, ?_, opensAt_of_head (.inr isMethod) nameStart someName
      (not_mem_of_opening named spaceBlank) rest⟩
    rw [whole]
    refine opensAt_of_head (.inl isFunction) start
      (List.append_ne_nil_of_right_ne_nil _ someName) ?_ rest
    simp [not_mem_of_blank gapBlank, not_mem_of_blank blanksBlank, not_mem_of_name named,
      not_mem_of_blank spaceBlank]
  · obtain ⟨above, more, tail, name, space, rest, rfl, ⟨split, -⟩, named, spaceBlank, start,
      nameStart⟩ := dollar
    have someName := List.append_ne_nil_of_left_ne_nil (ne_nil_of_name named) space
    have inName := not_mem_of_opening named spaceBlank
    refine ⟨_, ?_, opensAt_of_head (.inr isMethod) nameStart someName inName rest⟩
    have whole : above ++ (name ++ space) =
        above ++ more ++ ("function".toList ++ tail ++ space) := by
      simp [split]
    have inRest : '(' ∉ "function".toList ++ tail ++ space := by
      simp only [split, List.append_assoc, List.mem_append, not_or] at inName
      simp only [List.append_assoc, List.mem_append, not_or]
      exact inName.2
    rw [whole]
    exact opensAt_of_head (.inl isFunction) start (by simp) inRest rest

/-- A function and a method with the same parameters are read from one construct. -/
theorem readTwice_of_opensAt (member : function ∈ functions (encode characters))
    (methodMember : method ∈ methods (encode characters))
    (opens : OpensAt (encode characters) function opening)
    (methodOpens : OpensAt (encode characters) method opening) :
    ReadTwice characters function method := by
  obtain ⟨before, head, rest, rfl, apart, ⟨edge, word, headEq⟩, start, -⟩ :=
    exists_opensFunction_of_mem_functions member
  obtain ⟨above, name, gap, behind, body, whole, named, blank, nameless, plain, noWord, -, rfl⟩ :=
    exists_name_of_mem_methods methodMember
  obtain ⟨rfl, -⟩ := List.append_inj' headEq rfl
  have isFunction := form_of_mem_functions member
  have first := opensAt_of_head (.inl isFunction) start (by simp) apart rest
  have second := opensAt_of_name named blank above behind body
  rw [← whole] at second
  have same : before ++ ("function".toList ++ word.spelled) = above ++ (name ++ gap) :=
    append_inj_of_length whole ((first.unique opens).trans (methodOpens.unique second))
  refine ⟨isFunction, rfl, ?_⟩
  rw [← List.append_assoc above] at same
  rcases word.namedValid with nothing | ⟨inner, space, namedEq, innerNamed, spaceBlank⟩
  · right
    obtain ⟨more, rfl, beside⟩ :=
      besideDollar_of_anonymous word nothing same edge named blank nameless plain
    exact ⟨above, more, [], name, gap, behind, whole, beside, named, blank, start, rfl⟩
  · rcases name_of_named word namedEq innerNamed spaceBlank same edge named blank nameless plain
      noWord with ⟨blanks, blanksBlank, rfl⟩ | ⟨more, rfl, beside⟩
    · exact .inl ⟨before, word.gap, blanks, name, gap, behind, whole, word.gapBlank, blanksBlank,
        named, blank, start, rfl⟩
    · exact .inr ⟨above, more, inner, name, gap, behind, whole, beside, named, blank, start, rfl⟩

end Twice

end BareComponent.FunctionBody
