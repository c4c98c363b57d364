import BareComponent.Proofs.Require.Site
import BareComponent.Scope.FunctionBody

/-! # How functions and methods begin

The word `function` opens the parameters behind it if nothing but blanks, an asterisk and a name
stands in between, and a method opens them with its name. Both are told by the stretch that they take
through the parenthesis.
-/

namespace BareComponent.FunctionBody

open Cursor Pattern Text RequireLine

variable {before after : List Char} {cursor : Cursor}

/-- What may stand between the word `function` and the parameters behind it. -/
structure FunctionOpening where
  gap : List Char
  /-- The asterisk of a generator and the blanks behind it. -/
  asterisk : List Char
  /-- A name and the blanks behind it. -/
  named : List Char
  gapBlank : Blank gap
  asteriskValid : asterisk = [] ∨ ∃ blanks, asterisk = '*' :: blanks ∧ Blank blanks
  namedValid : named = [] ∨ ∃ name blanks, named = name ++ blanks ∧ IsName name ∧ Blank blanks
  endsWord : isWord (gap ++ asterisk ++ named).head? = false

/-- The characters between the word `function` and the parameters. -/
def FunctionOpening.spelled (opening : FunctionOpening) : List Char :=
  opening.gap ++ opening.asterisk ++ opening.named

/-- Whether some characters are the word `function` through the parenthesis of its parameters, and
the word does not continue a longer one in front. -/
def OpensFunction (before passed : List Char) : Prop :=
  isWord before.getLast? = false ∧
    ∃ opening : FunctionOpening, passed = "function".toList ++ opening.spelled ++ ['(']

section Parts

variable {part : Pattern Unit} {spells stops : List Char → Prop}

private theorem mem_optional_blanks
    (reads : ∀ before after cursor, ((), cursor) ∈ part (between before after) ↔
      ∃ passed rest, after = passed ++ rest ∧ spells passed ∧ stops rest ∧
        cursor = between (before ++ passed) rest)
    (dark : ∀ c ∈ after.head?, CharacterClass.blank c.toNat = false) :
    (∃ value middle, (value, middle) ∈ optional part (between before after) ∧
        ∃ read, (read, cursor) ∈ blanks middle) ↔
      ∃ passed rest, after = passed ++ rest ∧
        (passed = [] ∨ ∃ word gap, passed = word ++ gap ∧ spells word ∧ Blank gap ∧
          stops (gap ++ rest)) ∧
        (∀ c ∈ rest.head?, CharacterClass.blank c.toNat = false) ∧
        cursor = between (before ++ passed) rest := by
  constructor
  · rintro ⟨value, middle, optionalRead, read, blanksRead⟩
    rcases mem_optional.mp optionalRead with ⟨found, rfl, here⟩ | ⟨-, rfl⟩
    · obtain ⟨word, behind, rfl, spelled, stop, rfl⟩ := (reads _ _ _).mp here
      obtain ⟨gap, rest, rfl, blank, darkRest, rfl⟩ := mem_run.mp blanksRead
      exact ⟨word ++ gap, rest, by simp, .inr ⟨word, gap, rfl, spelled, blank, stop⟩, darkRest,
        by simp⟩
    · obtain ⟨gap, rest, rfl, blank, darkRest, rfl⟩ := mem_run.mp blanksRead
      cases gap with
      | nil => exact ⟨[], rest, rfl, .inl rfl, darkRest, by simp⟩
      | cons c gap =>
        have light := blank c List.mem_cons_self
        rw [dark c rfl] at light
        contradiction
  · rintro ⟨_, rest, rfl, rfl | ⟨word, gap, rfl, spelled, blank, stop⟩, darkRest, rfl⟩
    · exact ⟨none, _, mem_optional.mpr (.inr ⟨rfl, rfl⟩), (),
        mem_run.mpr ⟨[], rest, rfl, by simp, darkRest, by simp⟩⟩
    · refine ⟨some (), between (before ++ word) (gap ++ rest),
        mem_optional.mpr (.inl ⟨(), rfl, ?_⟩), (),
        mem_run.mpr ⟨gap, rest, rfl, blank, darkRest, by simp⟩⟩
      exact (reads _ _ _).mpr ⟨word, gap ++ rest, by simp, spelled, stop, rfl⟩

private theorem mem_asterisk (before after : List Char) (cursor : Cursor) :
    ((), cursor) ∈ Pattern.literal "*" (between before after) ↔
      ∃ passed rest, after = passed ++ rest ∧ passed = ['*'] ∧ True ∧
        cursor = between (before ++ passed) rest := by
  have spelled : ("*" : Text) = encode ['*'] := rfl
  rw [spelled, mem_literal]
  simp

private theorem mem_name (before after : List Char) (cursor : Cursor) :
    ((), cursor) ∈ Pattern.name (between before after) ↔
      ∃ passed rest, after = passed ++ rest ∧ IsName passed ∧
        (∀ c ∈ rest.head?, CharacterClass.wordOrDollar c.toNat = false) ∧
        cursor = between (before ++ passed) rest := RequireSite.mem_name

private theorem head?_append_cons {members : CharacterClass} {part : List Char} {c : Char}
    (outside : members c.toNat = false) (head : ∀ c ∈ part.head?, members c.toNat = false)
    (rest : List Char) : ∀ d ∈ (part ++ c :: rest).head?, members d.toNat = false := by
  intro d first
  cases part with
  | nil =>
    obtain rfl := Option.some.inj first
    exact outside
  | cons e part => exact head d first

private theorem wordOrDollar_head?_of_blank {gap : List Char} (blank : Blank gap) :
    ∀ c ∈ gap.head?, CharacterClass.wordOrDollar c.toNat = false := fun c first =>
  CharacterClass.wordOrDollar_of_blank (blank c (List.mem_of_mem_head? first))

private theorem isWord_append_paren {part : List Char} (rest : List Char) :
    isWord (part ++ '(' :: rest).head? = isWord part.head? := by
  cases part with
  | nil => rfl
  | cons c part => rfl

end Parts

namespace FunctionOpening

variable (opening : FunctionOpening)

private theorem dark_named : ∀ c ∈ opening.named.head?, CharacterClass.blank c.toNat = false := by
  intro c first
  rcases opening.namedValid with nothing | ⟨name, blanks, split, named, -⟩
  · simp [nothing] at first
  · rw [split] at first
    have continues := RequireSite.wordOrDollar_head?_of_name named blanks c first
    by_contra light
    rw [Bool.not_eq_false] at light
    rw [CharacterClass.wordOrDollar_of_blank light] at continues
    contradiction

private theorem dark_asterisk : ∀ c ∈ (opening.asterisk ++ opening.named).head?,
    CharacterClass.blank c.toNat = false := by
  rcases opening.asteriskValid with nothing | ⟨blanks, split, -⟩
  · rw [nothing]
    exact opening.dark_named
  · rw [split]
    rintro c first
    obtain rfl := Option.some.inj first
    decide

private theorem asterisk_spelled : opening.asterisk = [] ∨ ∃ word gap,
    opening.asterisk = word ++ gap ∧ word = ['*'] ∧ Blank gap ∧ True := by
  rcases opening.asteriskValid with nothing | ⟨blanks, split, blank⟩
  · exact .inl nothing
  · exact .inr ⟨['*'], blanks, split, rfl, blank, trivial⟩

private theorem name_spelled (rest : List Char) : opening.named = [] ∨ ∃ word gap,
    opening.named = word ++ gap ∧ IsName word ∧ Blank gap ∧
      ∀ c ∈ (gap ++ '(' :: rest).head?, CharacterClass.wordOrDollar c.toNat = false := by
  rcases opening.namedValid with nothing | ⟨name, blanks, split, named, blank⟩
  · exact .inl nothing
  · exact .inr ⟨name, blanks, split, named, blank,
      head?_append_cons (by decide) (wordOrDollar_head?_of_blank blank) rest⟩

end FunctionOpening

private theorem isWord_append_function (before : List Char) :
    isWord (before ++ "function".toList).getLast? = true := by
  rw [List.getLast?_append]
  rfl

private theorem exists_opensFunction {value : Unit}
    (member : (value, cursor) ∈ functionHead (between before after)) :
    ∃ passed rest, after = passed ++ rest ∧ OpensFunction before passed ∧
      cursor = between (before ++ passed) rest := by
  obtain ⟨_, _, boundary, member⟩ := mem_bind.mp member
  obtain ⟨edge, rfl⟩ := mem_wordBoundary.mp boundary
  obtain ⟨_, _, word, member⟩ := mem_bind.mp member
  obtain ⟨after, rfl, rfl⟩ := mem_literal.mp (word : _ ∈ literal (encode "function".toList) _)
  obtain ⟨_, _, boundary, member⟩ := mem_bind.mp member
  obtain ⟨ends, rfl⟩ := mem_wordBoundary.mp boundary
  obtain ⟨_, _, gapRead, member⟩ := mem_bind.mp member
  obtain ⟨gap, after, rfl, gapBlank, dark, rfl⟩ := mem_run.mp gapRead
  obtain ⟨_, _, star, member⟩ := mem_bind.mp member
  obtain ⟨_, _, blanksRead, member⟩ := mem_bind.mp member
  obtain ⟨asterisk, after, rfl, asteriskValid, dark, rfl⟩ :=
    (mem_optional_blanks mem_asterisk dark).mp ⟨_, _, star, _, blanksRead⟩
  obtain ⟨_, _, nameRead, member⟩ := mem_bind.mp member
  obtain ⟨_, _, blanksRead, member⟩ := mem_bind.mp member
  obtain ⟨named, after, rfl, namedValid, dark, rfl⟩ :=
    (mem_optional_blanks mem_name dark).mp ⟨_, _, nameRead, _, blanksRead⟩
  obtain ⟨rest, rfl, rfl⟩ := exists_of_mem_literal (c := '(') rfl member
  have boundary : isWord before.getLast? = false := by
    rw [← Bool.not_eq_true]
    exact edge
  have endsWord : isWord (gap ++ asterisk ++ named).head? = false := by
    rw [isWord_append_function, ← List.append_assoc, ← List.append_assoc, isWord_append_paren]
      at ends
    simpa using ends.symm
  refine ⟨"function".toList ++ (gap ++ asterisk ++ named) ++ ['('], rest, by simp,
    ⟨boundary, ⟨gap, asterisk, named, gapBlank, ?_, ?_, endsWord⟩, rfl⟩, by simp⟩
  · rcases asteriskValid with nothing | ⟨_, blanks, split, rfl, blank, -⟩
    · exact .inl nothing
    · exact .inr ⟨blanks, split, blank⟩
  · rcases namedValid with nothing | ⟨name, blanks, split, isName, blank, -⟩
    · exact .inl nothing
    · exact .inr ⟨name, blanks, split, isName, blank⟩

private theorem functionHead_mem {rest : List Char} (boundary : isWord before.getLast? = false)
    (opening : FunctionOpening) :
    ((), between (before ++ ("function".toList ++ opening.spelled ++ ['('])) rest) ∈
      functionHead (between before ("function".toList ++ opening.spelled ++ ['('] ++ rest)) := by
  let parameters := '(' :: rest
  have edge : isWord before.getLast? ≠
      isWord ("function".toList ++ (opening.gap ++ (opening.asterisk ++
        (opening.named ++ parameters)))).head? := by
    rw [boundary]
    exact Bool.false_ne_true
  have ends : isWord (before ++ "function".toList).getLast? ≠
      isWord (opening.gap ++ (opening.asterisk ++ (opening.named ++ parameters))).head? := by
    rw [isWord_append_function, ← List.append_assoc, ← List.append_assoc, isWord_append_paren,
      opening.endsWord]
    exact nofun
  have dark : CharacterClass.blank '('.toNat = false := by decide
  have darkParen : ∀ c ∈ parameters.head?, CharacterClass.blank c.toNat = false := by
    intro c first
    obtain rfl := Option.some.inj first
    exact dark
  have darkNamed := head?_append_cons dark opening.dark_named rest
  have darkAsterisk := head?_append_cons dark opening.dark_asterisk rest
  rw [List.append_assoc] at darkAsterisk
  have regrouped (front word : List Char) : front ++ (word ++ (opening.gap ++ opening.asterisk ++
      opening.named) ++ ['(']) = front ++ word ++ opening.gap ++ opening.asterisk ++
        opening.named ++ ['('] := by simp
  have whole (word : List Char) : word ++ (opening.gap ++ opening.asterisk ++ opening.named) ++
      ['('] ++ rest = word ++ (opening.gap ++ (opening.asterisk ++ (opening.named ++
        parameters))) := by simp [parameters]
  rw [FunctionOpening.spelled, whole "function".toList, regrouped before "function".toList]
  refine mem_bind.mpr ⟨(), _, mem_wordBoundary.mpr ⟨edge, rfl⟩, ?_⟩
  refine mem_bind.mpr ⟨(), _, literal_mem before "function".toList _, ?_⟩
  refine mem_bind.mpr ⟨(), _, mem_wordBoundary.mpr ⟨ends, rfl⟩, ?_⟩
  refine mem_bind.mpr ⟨(), _, mem_run.mpr ⟨opening.gap, _, rfl, opening.gapBlank,
    darkAsterisk, rfl⟩, ?_⟩
  obtain ⟨_, _, star, _, blanksRead⟩ := (mem_optional_blanks mem_asterisk darkAsterisk).mpr
    ⟨opening.asterisk, opening.named ++ parameters, rfl, opening.asterisk_spelled, darkNamed,
      rfl⟩
  refine mem_bind.mpr ⟨_, _, star, mem_bind.mpr ⟨_, _, blanksRead, ?_⟩⟩
  obtain ⟨_, _, nameRead, _, blanksRead⟩ := (mem_optional_blanks mem_name darkNamed).mpr
    ⟨opening.named, parameters, rfl, opening.name_spelled rest, darkParen, rfl⟩
  refine mem_bind.mpr ⟨_, _, nameRead, mem_bind.mpr ⟨_, _, blanksRead, ?_⟩⟩
  exact literal_mem _ ['('] rest

/-- A function's head takes exactly what opens a function. -/
theorem mem_functionHead {value : Unit} :
    (value, cursor) ∈ functionHead (between before after) ↔
      ∃ passed rest, after = passed ++ rest ∧ OpensFunction before passed ∧
        cursor = between (before ++ passed) rest := by
  constructor
  · exact exists_opensFunction
  · rintro ⟨_, rest, rfl, ⟨boundary, opening, rfl⟩, rfl⟩
    exact functionHead_mem boundary opening

private theorem not_mem_of_class {members : CharacterClass} {part : List Char} {c : Char}
    (outside : members c.toNat = false) (inside : ∀ d ∈ part, members d.toNat = true) :
    c ∉ part := by
  intro member
  rw [inside c member] at outside
  contradiction

theorem not_mem_of_blank {gap : List Char} (blank : Blank gap) : '(' ∉ gap :=
  not_mem_of_class (by decide) blank

theorem not_mem_of_name {name : List Char} (named : IsName name) : '(' ∉ name :=
  not_mem_of_class (by decide) (wordOrDollar_of_name named)

/-- The characters of an opening have no parenthesis. -/
theorem FunctionOpening.not_mem_paren (opening : FunctionOpening) :
    '(' ∉ "function".toList ++ opening.spelled := by
  have asterisk : '(' ∉ opening.asterisk := by
    rcases opening.asteriskValid with nothing | ⟨blanks, split, blank⟩
    · simp [nothing]
    · simp [split, not_mem_of_blank blank]
  have named : '(' ∉ opening.named := by
    rcases opening.namedValid with nothing | ⟨name, blanks, split, named, blank⟩
    · simp [nothing]
    · simp [split, not_mem_of_name named, not_mem_of_blank blank]
  have spelled : '(' ∉ opening.spelled := by
    simp [spelled, not_mem_of_blank opening.gapBlank, asterisk, named]
  exact fun member => (List.mem_append.mp member).elim (by decide) spelled

/-- A function does not begin with the parenthesis of its parameters. -/
theorem OpensFunction.one_lt_length {passed : List Char} (opens : OpensFunction before passed) :
    1 < (encode passed).length := by
  obtain ⟨-, opening, rfl⟩ := opens
  have word : (encode "function".toList).length = 8 := rfl
  simp only [encode_append, List.length_append, word]
  omega

private theorem eq_of_append_singleton {first second rest behind : List Char} {c : Char}
    (same : first ++ [c] ++ rest = second ++ [c] ++ behind) (firstApart : c ∉ first)
    (secondApart : c ∉ second) : first = second := by
  simp only [List.append_assoc, List.singleton_append] at same
  exact (append_cons_inj_of_front (· ≠ c) same (by simp) (by simp)
    (fun d inside => by rintro rfl; exact firstApart inside)
    (fun d inside => by rintro rfl; exact secondApart inside)).1

/-- A beginning of a function is told by what it takes. -/
theorem reads_functionHead :
    Reads functionHead fun before passed _ => OpensFunction before passed := by
  refine reads_of_mem (fun _ _ _ _ => mem_functionHead) ?_ ?_
  · rintro _ _ _ ⟨-, opening, rfl⟩
    exact List.append_ne_nil_of_right_ne_nil _ (List.cons_ne_nil _ _)
  · rintro _ _ _ rest behind _ _ ⟨-, opening, rfl⟩ ⟨-, other, rfl⟩ same
    have spelled := eq_of_append_singleton same opening.not_mem_paren other.not_mem_paren
    exact ⟨by rw [spelled], rfl⟩

/-- Whether some characters are a name through the parenthesis of the parameters behind it, with
where the name stands. -/
def OpensMethod (before passed : List Char) (value : Span) : Prop :=
  ∃ name gap, passed = name ++ gap ++ ['('] ∧ IsName name ∧ Blank gap ∧
    value = ⟨(encode before).length, (encode (before ++ name)).length⟩

theorem not_mem_of_opening {name gap : List Char} (named : IsName name) (blank : Blank gap) :
    '(' ∉ name ++ gap := fun member =>
  (List.mem_append.mp member).elim (not_mem_of_name named) (not_mem_of_blank blank)

/-- Reads a name up to a character; answers where the name stands. -/
def nameUpTo (c : Char) : Pattern Span := do
  let name ← Pattern.spanned Pattern.name
  Pattern.blanks
  Pattern.literal (encode [c])
  pure name

/-- Whether some characters are a name through a character behind it, with where the name stands. -/
def NameUpTo (c : Char) (before passed : List Char) (value : Span) : Prop :=
  ∃ name gap, passed = name ++ gap ++ [c] ∧ IsName name ∧ Blank gap ∧
    value = ⟨(encode before).length, (encode (before ++ name)).length⟩

section NameUpTo

variable {c : Char} (outside : CharacterClass.wordOrDollar c.toNat = false)
  (dark : CharacterClass.blank c.toNat = false)
include outside dark

/-- A name that is read up to a character ends with every name in front of it. -/
theorem eq_of_append_nameUpTo {front name gap rest word blanks behind : List Char}
    (same : front ++ (name ++ gap ++ [c] ++ rest) = word ++ blanks ++ [c] ++ behind)
    (apart : c ∉ front) (named : IsName name) (blank : Blank gap) (wordNamed : IsName word)
    (blanksBlank : Blank blanks) : front ++ name = word ∧ gap = blanks := by
  have regrouped : front ++ name ++ gap ++ [c] ++ rest = word ++ blanks ++ [c] ++ behind := by
    simpa using same
  have inName {name : List Char} (named : IsName name) : c ∉ name :=
    not_mem_of_class outside (wordOrDollar_of_name named)
  have inGap {gap : List Char} (blank : Blank gap) : c ∉ gap := not_mem_of_class dark blank
  have firstApart : c ∉ front ++ name ++ gap := by simp [apart, inName named, inGap blank]
  have secondApart : c ∉ word ++ blanks := by simp [inName wordNamed, inGap blanksBlank]
  exact eq_of_append_blank (eq_of_append_singleton regrouped firstApart secondApart)
    blank blanksBlank (dark_getLast?_of_name named front) (dark_getLast?_of_name wordNamed [])

/-- A name up to a character takes exactly a name and the blanks behind it. -/
theorem mem_nameUpTo {value : Span} :
    (value, cursor) ∈ nameUpTo c (between before after) ↔
      ∃ passed rest, after = passed ++ rest ∧ NameUpTo c before passed value ∧
        cursor = between (before ++ passed) rest := by
  constructor
  · intro member
    obtain ⟨_, _, nameRead, member⟩ := mem_bind.mp member
    obtain ⟨here, rfl⟩ := mem_spanned.mp nameRead
    obtain ⟨name, after, rfl, named, -, rfl⟩ := (mem_name _ _ _).mp here
    obtain ⟨_, _, blanksRead, member⟩ := mem_bind.mp member
    obtain ⟨gap, after, rfl, blank, -, rfl⟩ := mem_run.mp blanksRead
    obtain ⟨_, _, closing, member⟩ := mem_bind.mp member
    obtain ⟨rest, rfl, rfl⟩ := mem_literal.mp closing
    obtain ⟨rfl, rfl⟩ := mem_pure.mp member
    exact ⟨name ++ gap ++ [c], rest, by simp, ⟨name, gap, rfl, named, blank, by simp⟩, by simp⟩
  · rintro ⟨_, rest, rfl, ⟨name, gap, rfl, named, blank, rfl⟩, rfl⟩
    have complete := head?_append_cons outside (wordOrDollar_head?_of_blank blank) rest
    have stops : ∀ d ∈ (c :: rest).head?, CharacterClass.blank d.toNat = false := by
      intro d first
      obtain rfl := Option.some.inj first
      exact dark
    have whole : name ++ gap ++ [c] ++ rest = name ++ (gap ++ c :: rest) := by simp
    have place : before ++ (name ++ gap ++ [c]) = before ++ name ++ gap ++ [c] := by simp
    rw [whole, place]
    refine mem_bind.mpr ⟨_, between (before ++ name) (gap ++ c :: rest), mem_spanned.mpr
      ⟨(mem_name _ _ _).mpr ⟨name, _, rfl, named, complete, rfl⟩, rfl⟩, ?_⟩
    refine mem_bind.mpr ⟨(), _, mem_run.mpr ⟨gap, c :: rest, rfl, blank, stops, rfl⟩, ?_⟩
    refine mem_bind.mpr ⟨(), _, literal_mem _ [c] rest, mem_pure.mpr ⟨?_, rfl⟩⟩
    rw [position_between, position_between]

/-- A name up to a character is told by what it takes. -/
theorem reads_nameUpTo : Reads (nameUpTo c) (NameUpTo c) := by
  refine reads_of_mem (fun _ _ _ _ => mem_nameUpTo outside dark) ?_ ?_
  · rintro _ _ _ ⟨name, gap, rfl, -⟩
    simp
  · rintro before _ _ rest behind _ _ ⟨name, gap, rfl, named, blank, rfl⟩
      ⟨other, space, rfl, otherNamed, spaceBlank, rfl⟩ same
    obtain ⟨rfl, rfl⟩ := eq_of_append_nameUpTo outside dark same List.not_mem_nil named blank
      otherNamed spaceBlank
    exact ⟨rfl, rfl⟩

end NameUpTo

/-- A beginning of a method is told by what it takes. -/
theorem reads_methodHead : Reads methodHead OpensMethod := reads_nameUpTo (by decide) (by decide)

end BareComponent.FunctionBody
