import BareComponent.Proofs.Pattern.Parts
import BareComponent.Proofs.Require.Standalone

/-! # How a require site is spelled

A require site is a name, behind a declaring keyword or not, an equals sign and a call of `require`
with one quoted name, and white space of any kind may stand between any two of these. The characters
behind a place spell at most one site there, so the search for sites has no choice.
-/

namespace BareComponent

namespace RequireSite

open Cursor Pattern RequireLine Text

/-- The words that declare a name. -/
def keywords : List String := ["var", "const", "let"]

/-- The parts of a require site behind its keyword. -/
structure Binding where
  name : List Char
  before : List Char
  behind : List Char
  inner : List Char
  quote : Quote
  content : List Char
  outer : List Char
  named : IsName name
  beforeBlank : Blank before
  behindBlank : Blank behind
  innerBlank : Blank inner
  contentValid : quote.character ∉ content ∧ '\n' ∉ content
  outerBlank : Blank outer

namespace Binding

/-- The characters between the name and the quoted name of the module. -/
def assigned (binding : Binding) : List Char :=
  binding.before ++ '=' :: (binding.behind ++ Call.opening ++ binding.inner)

def spelled (binding : Binding) : List Char :=
  binding.name ++ binding.assigned ++ binding.quote.character :: binding.content ++
    binding.quote.character :: binding.outer ++ [')']

/-- What is read where these characters stand behind others. -/
def read (binding : Binding) (front : List Char) : Span × Quote × Span :=
  (⟨(encode front).length, (encode (front ++ binding.name)).length⟩, binding.quote,
    contentSpan (front ++ binding.name ++ binding.assigned) binding.quote binding.content)

end Binding

/-- The parts of a require site. -/
structure Form extends Binding where
  /-- The declaring keyword and the white space behind it. -/
  keyword : Option (String × List Char)
  keywordValid : ∀ word ∈ keyword, word.1 ∈ keywords ∧ Blank word.2 ∧ word.2 ≠ []

namespace Form

def declared (form : Form) : List Char := form.keyword.elim [] fun (word, gap) => word.toList ++ gap

def spelled (form : Form) : List Char := form.declared ++ form.toBinding.spelled

end Form

section Parts

variable {before after : List Char} {cursor : Cursor} {value : Unit}

/-- What is read as a name is one, and nothing is left of its word. -/
theorem mem_name : (value, cursor) ∈ Pattern.name (between before after) ↔
    ∃ name rest, after = name ++ rest ∧ IsName name ∧
      (∀ c ∈ rest.head?, CharacterClass.wordOrDollar c.toNat = false) ∧
      cursor = between (before ++ name) rest := by
  simp only [Pattern.name, mem_bind, mem_character]
  constructor
  · rintro ⟨_, _, ⟨c, _, rfl, starts, rfl⟩, continued⟩
    obtain ⟨others, rest, rfl, continues, stops, rfl⟩ := mem_run.mp continued
    exact ⟨c :: others, rest, rfl, ⟨starts, continues⟩, stops, by simp⟩
  · rintro ⟨name, rest, rfl, named, stops, rfl⟩
    cases name with
    | nil => exact named.elim
    | cons c others =>
      exact ⟨(), _, ⟨c, others ++ rest, rfl, named.1, rfl⟩,
        mem_run.mpr ⟨others, rest, rfl, named.2, stops, by simp⟩⟩

private def keywordPattern : Pattern Unit := do
  Pattern.wordBoundary
  Pattern.oneOf ["var", "const", "let"]
  Pattern.blanks1

private theorem mem_keyword {word : String} (member : word ∈ keywords) (text : List Char) :
    isWord (word.toList ++ text).head? = true := by
  simp only [keywords, List.mem_cons, List.not_mem_nil, or_false] at member
  rcases member with rfl | rfl | rfl
  all_goals rfl

private theorem mem_keywordPattern : (value, cursor) ∈ keywordPattern (between before after) ↔
    ∃ (word : String) (gap rest : List Char), after = word.toList ++ gap ++ rest ∧
      (word ∈ keywords ∧ Blank gap ∧ gap ≠ []) ∧ isWord before.getLast? = false ∧
      (∀ c ∈ rest.head?, CharacterClass.blank c.toNat = false) ∧
      cursor = between (before ++ word.toList ++ gap) rest := by
  have words (text : Text) : text ∈ ([("var" : Text), ("const" : Text), ("let" : Text)]) ↔
      ∃ word ∈ keywords, text = encode word.toList := by
    simp [keywords, ← ofString_eq]
  simp only [keywordPattern, mem_bind, mem_wordBoundary, mem_oneOf, blanks1, words]
  constructor
  · rintro ⟨_, _, ⟨boundary, rfl⟩, _, _, ⟨_, ⟨word, member, rfl⟩, named⟩, spaced⟩
    obtain ⟨_, rfl, rfl⟩ := mem_literal.mp named
    obtain ⟨gap, rest, rfl, nonempty, blank, stops, rfl⟩ := mem_run1.mp spaced
    rw [mem_keyword member, ne_eq, Bool.not_eq_true] at boundary
    exact ⟨word, gap, rest, by simp, ⟨member, blank, nonempty⟩, boundary, stops, rfl⟩
  · rintro ⟨word, gap, rest, rfl, ⟨member, blank, nonempty⟩, boundary, stops, rfl⟩
    rw [List.append_assoc]
    refine ⟨(), _, ⟨?_, rfl⟩, (), _, ⟨_, ⟨word, member, rfl⟩, literal_mem ..⟩,
      mem_run1.mpr ⟨gap, rest, rfl, nonempty, blank, stops, rfl⟩⟩
    rw [mem_keyword member, boundary]
    decide

private theorem mem_blanks :
    (value, cursor) ∈ blanks (between before after) ↔
      ∃ gap rest, after = gap ++ rest ∧ Blank gap ∧
        (∀ c ∈ rest.head?, CharacterClass.blank c.toNat = false) ∧
        cursor = between (before ++ gap) rest := mem_run

private theorem blanks_mem (before : List Char) {gap rest : List Char} (blank : Blank gap)
    (stops : ∀ c ∈ rest.head?, CharacterClass.blank c.toNat = false) :
    ((), between (before ++ gap) rest) ∈ blanks (between before (gap ++ rest)) :=
  mem_blanks.mpr ⟨gap, rest, rfl, blank, stops, rfl⟩

theorem wordOrDollar_head?_of_name {name : List Char} (named : IsName name)
    (rest : List Char) :
    ∀ c ∈ (name ++ rest).head?, CharacterClass.wordOrDollar c.toNat = true := by
  intro c first
  cases name with
  | nil => exact named.elim
  | cons d others =>
    obtain rfl : d = c := Option.some.inj first
    exact wordOrDollar_of_name named d List.mem_cons_self

/-- White space ends a name, and so does the equals sign behind it. -/
theorem wordOrDollar_head?_of_blank {gap : List Char} (blank : Blank gap)
    (rest : List Char) :
    ∀ c ∈ (gap ++ '=' :: rest).head?, CharacterClass.wordOrDollar c.toNat = false := by
  intro c first
  cases gap with
  | nil =>
    obtain rfl : '=' = c := Option.some.inj first
    decide
  | cons d gap =>
    obtain rfl : d = c := Option.some.inj first
    exact CharacterClass.wordOrDollar_of_blank (blank d List.mem_cons_self)

private def bindingPattern : Pattern (Span × Quote × Span) := do
  let binding ← Pattern.spanned Pattern.name
  Pattern.blanks
  Pattern.literal "="
  Pattern.blanks
  Pattern.literal "require("
  Pattern.blanks
  let (quote, content) ← quoted
  Pattern.blanks
  Pattern.literal ")"
  pure (binding, quote, content)

private theorem opening_eq : Call.opening = 'r' :: "equire(".toList := rfl

private theorem equals_eq : ("=" : Text) = encode ['='] := rfl

private theorem called_eq : ("require(" : Text) = encode Call.opening := ofString_eq _

private theorem closing_eq : (")" : Text) = encode [')'] := rfl

private theorem exists_binding {read : Span × Quote × Span}
    (member : (read, cursor) ∈ bindingPattern (between before after)) :
    ∃ (binding : Binding) (rest : List Char), after = binding.spelled ++ rest ∧
      read = binding.read before ∧ cursor = between (before ++ binding.spelled) rest := by
  simp only [bindingPattern, mem_bind, mem_spanned, mem_pure, equals_eq, called_eq, closing_eq]
    at member
  obtain ⟨_, _, ⟨bound, rfl⟩, _, _, first, _, _, assigned, _, _, second, _, _, called, _, _,
    third, read, _, quoted, _, _, fourth, _, _, closed, rfl, rfl⟩ := member
  obtain ⟨name, _, rfl, named, -, rfl⟩ := mem_name.mp bound
  obtain ⟨gap, _, rfl, gapBlank, -, rfl⟩ := mem_blanks.mp first
  obtain ⟨_, rfl, rfl⟩ := mem_literal.mp assigned
  obtain ⟨behind, _, rfl, behindBlank, -, rfl⟩ := mem_blanks.mp second
  obtain ⟨_, rfl, rfl⟩ := mem_literal.mp called
  obtain ⟨inner, _, rfl, innerBlank, -, rfl⟩ := mem_blanks.mp third
  obtain ⟨quote, content, _, rfl, contentValid, rfl, rfl⟩ := mem_quoted.mp quoted
  obtain ⟨outer, _, rfl, outerBlank, -, rfl⟩ := mem_blanks.mp fourth
  obtain ⟨rest, rfl, rfl⟩ := mem_literal.mp closed
  exact ⟨⟨name, gap, behind, inner, quote, content, outer, named, gapBlank, behindBlank,
    innerBlank, contentValid, outerBlank⟩, rest, by simp [Binding.spelled, Binding.assigned],
    by simp [Binding.read, Binding.assigned, position_between],
    by simp [Binding.spelled, Binding.assigned]⟩

private theorem binding_mem (before : List Char) (binding : Binding) (rest : List Char) :
    (binding.read before, between (before ++ binding.spelled) rest) ∈
      bindingPattern (between before (binding.spelled ++ rest)) := by
  simp only [bindingPattern, mem_bind, mem_spanned, mem_pure, equals_eq, called_eq, closing_eq]
  obtain ⟨name, gap, behind, inner, quote, content, outer, named, gapBlank, behindBlank,
    innerBlank, contentValid, outerBlank⟩ := binding
  let closedBehind := [')'] ++ rest
  let quotedBehind := quote.character :: content ++ quote.character :: (outer ++ closedBehind)
  let calledBehind := Call.opening ++ (inner ++ quotedBehind)
  let assignedBehind := ['='] ++ (behind ++ calledBehind)
  let place := before ++ name ++ gap ++ ['='] ++ behind ++ Call.opening ++ inner
  let last := place ++ quote.character :: content ++ [quote.character]
  have stopsQuote : ∀ c ∈ quotedBehind.head?, CharacterClass.blank c.toNat = false := by
    cases quote <;> simp +decide [quotedBehind, Quote.character]
  have stopsCall : ∀ c ∈ calledBehind.head?, CharacterClass.blank c.toNat = false := by
    simp +decide [calledBehind, opening_eq]
  have stopsEquals : ∀ c ∈ assignedBehind.head?, CharacterClass.blank c.toNat = false := by
    simp +decide [assignedBehind]
  have stopsParenthesis : ∀ c ∈ closedBehind.head?, CharacterClass.blank c.toNat = false := by
    simp +decide [closedBehind]
  have bound := (@mem_name before _ _ ()).mpr ⟨name, gap ++ assignedBehind, rfl, named,
    wordOrDollar_head?_of_blank gapBlank _, rfl⟩
  have first := blanks_mem (before ++ name) gapBlank stopsEquals
  have assigned := literal_mem (before ++ name ++ gap) ['='] (behind ++ calledBehind)
  have second := blanks_mem (before ++ name ++ gap ++ ['=']) behindBlank stopsCall
  have called := literal_mem (before ++ name ++ gap ++ ['='] ++ behind) Call.opening
    (inner ++ quotedBehind)
  have third := blanks_mem (before ++ name ++ gap ++ ['='] ++ behind ++ Call.opening) innerBlank
    stopsQuote
  have quoted := (@mem_quoted place _ _ _).mpr
    ⟨quote, content, outer ++ closedBehind, rfl, contentValid, rfl, rfl⟩
  have fourth := blanks_mem last outerBlank stopsParenthesis
  have closed := literal_mem (last ++ outer) [')'] rest
  refine ⟨_, _, ⟨?_, rfl⟩, (), _, first, (), _, assigned, (), _, second, (), _, called, (), _,
    third, _, _, quoted, (), _, fourth, (), _, closed, ?_, ?_⟩
  · simpa [Binding.spelled, Binding.assigned, assignedBehind, calledBehind, quotedBehind,
      closedBehind] using bound
  · simp [Binding.read, Binding.assigned, place]
  · simp [Binding.spelled, Binding.assigned, last, place]

private theorem mem_bindingPattern {read : Span × Quote × Span} :
    (read, cursor) ∈ bindingPattern (between before after) ↔
      ∃ (binding : Binding) (rest : List Char), after = binding.spelled ++ rest ∧
        read = binding.read before ∧ cursor = between (before ++ binding.spelled) rest := by
  refine ⟨exists_binding, ?_⟩
  rintro ⟨binding, rest, rfl, rfl, rfl⟩
  exact binding_mem before binding rest

theorem Binding.exists_spelled_eq (binding : Binding) (rest : List Char) :
    ∃ behind, binding.spelled ++ rest = binding.name ++ (binding.before ++ '=' :: behind) :=
  ⟨binding.behind ++ Call.opening ++ binding.inner ++ binding.quote.character :: binding.content ++
    binding.quote.character :: binding.outer ++ ')' :: rest,
    by simp [Binding.spelled, Binding.assigned]⟩

private theorem blank_of_wordOrDollar {c : Char}
    (continues : CharacterClass.wordOrDollar c.toNat = true) :
    CharacterClass.blank c.toNat = false := by
  rw [← Bool.not_eq_true]
  intro blank
  rw [CharacterClass.wordOrDollar_of_blank blank] at continues
  exact Bool.false_ne_true continues

private theorem Binding.wordOrDollar_head? (binding : Binding) (rest : List Char) :
    ∀ c ∈ (binding.spelled ++ rest).head?, CharacterClass.wordOrDollar c.toNat = true := by
  obtain ⟨behind, shape⟩ := binding.exists_spelled_eq rest
  rw [shape]
  exact wordOrDollar_head?_of_name binding.named _

/-- What the pattern of a site takes, in terms of its form. -/
theorem mem_pattern {read : Span × Quote × Span} :
    (read, cursor) ∈ RequireSite.pattern (between before after) ↔
      ∃ (form : Form) (rest : List Char), after = form.spelled ++ rest ∧
        (form.keyword ≠ none → isWord before.getLast? = false) ∧
        read = form.toBinding.read (before ++ form.declared) ∧
        cursor = between (before ++ form.spelled) rest := by
  have unfolded : RequireSite.pattern = (do
      let _ ← Pattern.optional keywordPattern
      bindingPattern) := rfl
  simp only [unfolded, mem_bind, mem_optional]
  constructor
  · rintro ⟨_, _, ⟨_, -, declared⟩ | ⟨-, rfl⟩, bound⟩
    · obtain ⟨word, gap, _, rfl, valid, boundary, -, rfl⟩ := mem_keywordPattern.mp declared
      obtain ⟨binding, rest, rfl, rfl, rfl⟩ := mem_bindingPattern.mp bound
      exact ⟨⟨binding, some (word, gap), by simpa using valid⟩, rest,
        by simp [Form.spelled, Form.declared], fun _ => boundary, by simp [Form.declared],
        by simp [Form.spelled, Form.declared]⟩
    · obtain ⟨binding, rest, rfl, rfl, rfl⟩ := mem_bindingPattern.mp bound
      exact ⟨⟨binding, none, by simp⟩, rest, by simp [Form.spelled, Form.declared], by simp,
        by simp [Form.declared], by simp [Form.spelled, Form.declared]⟩
  · rintro ⟨⟨binding, keyword, valid⟩, rest, rfl, boundary, rfl, rfl⟩
    cases keyword with
    | none =>
      refine ⟨none, _, .inr ⟨rfl, rfl⟩, mem_bindingPattern.mpr ⟨binding, rest, ?_, ?_, ?_⟩⟩ <;>
        simp [Form.spelled, Form.declared]
    | some declaration =>
      obtain ⟨word, gap⟩ := declaration
      have declared : ((), between (before ++ word.toList ++ gap) (binding.spelled ++ rest)) ∈
          keywordPattern (between before (word.toList ++ gap ++ (binding.spelled ++ rest))) :=
        mem_keywordPattern.mpr ⟨word, gap, binding.spelled ++ rest, rfl, valid _ rfl,
          boundary (by simp),
          fun c first => blank_of_wordOrDollar (binding.wordOrDollar_head? rest c first), rfl⟩
      refine ⟨some (), between (before ++ word.toList ++ gap) (binding.spelled ++ rest),
        .inl ⟨(), rfl, ?_⟩, mem_bindingPattern.mpr ⟨binding, rest, rfl, ?_, ?_⟩⟩
      · simpa [Form.spelled, Form.declared] using declared
      · simp [Form.declared]
      · simp [Form.spelled, Form.declared]

end Parts

section Unique

private theorem blank_quote (quote : Quote) :
    CharacterClass.blank quote.character.toNat = false := by
  cases quote <;> decide

private theorem character_injective : Function.Injective Quote.character := by
  intro first second same
  cases first <;> cases second <;> first | rfl | exact absurd same (by decide)

/-- The characters behind a keyword tell all parts of a site. -/
theorem Binding.unique {first second : Binding} {rest other : List Char}
    (same : first.spelled ++ rest = second.spelled ++ other) : first = second ∧ rest = other := by
  let isBlank (c : Char) : Bool := CharacterClass.blank c.toNat
  let continues (c : Char) : Bool := CharacterClass.wordOrDollar c.toNat
  let closed (binding : Binding) (rest : List Char) : List Char := binding.outer ++ ')' :: rest
  let quoted (binding : Binding) (rest : List Char) : List Char :=
    binding.content ++ binding.quote.character :: closed binding rest
  let called (binding : Binding) (rest : List Char) : List Char :=
    binding.inner ++ binding.quote.character :: quoted binding rest
  let assigned (binding : Binding) (rest : List Char) : List Char :=
    binding.before ++ '=' :: (binding.behind ++ 'r' :: ("equire(".toList ++ called binding rest))
  have shape (binding : Binding) (rest : List Char) :
      binding.spelled ++ rest = binding.name ++ assigned binding rest := by
    simp [Binding.spelled, Binding.assigned, assigned, called, quoted, closed, opening_eq]
  have endsName (binding : Binding) (rest : List Char) :
      ∀ c ∈ (assigned binding rest).head?, continues c = false :=
    wordOrDollar_head?_of_blank binding.beforeBlank _
  rw [shape, shape] at same
  obtain ⟨names, same⟩ := append_inj_of_run continues same (wordOrDollar_of_name first.named)
    (wordOrDollar_of_name second.named) (endsName first rest) (endsName second other)
  obtain ⟨befores, same⟩ := append_inj_of_run isBlank same first.beforeBlank second.beforeBlank
    (head?_outside (by decide) _) (head?_outside (by decide) _)
  obtain ⟨behinds, same⟩ := append_inj_of_run isBlank (List.cons.inj same).2 first.behindBlank
    second.behindBlank (head?_outside (by decide) _) (head?_outside (by decide) _)
  obtain ⟨inners, same⟩ := append_inj_of_run isBlank
    (List.append_cancel_left (List.cons.inj same).2) first.innerBlank second.innerBlank
    (head?_outside (blank_quote _) _) (head?_outside (blank_quote _) _)
  obtain ⟨quotes, same⟩ := List.cons.inj same
  obtain ⟨contents, -, same⟩ := append_cons_inj_of_front (· ≠ first.quote.character) same (by simp)
    (by simp [quotes]) (fun c inside => by rintro rfl; exact first.contentValid.1 inside)
    (fun c inside => by rw [quotes]; rintro rfl; exact second.contentValid.1 inside)
  obtain ⟨outers, same⟩ := append_inj_of_run isBlank same first.outerBlank second.outerBlank
    (head?_outside (by decide) _) (head?_outside (by decide) _)
  refine ⟨?_, (List.cons.inj same).2⟩
  cases first
  cases second
  simp_all [character_injective.eq_iff]

private theorem word_head?_of_blank {gap : List Char} (blank : Blank gap) (nonempty : gap ≠ [])
    (rest : List Char) :
    ∀ c ∈ (gap ++ rest).head?, CharacterClass.wordOrDollar c.toNat = false := by
  intro c member
  obtain ⟨d, gap, rfl⟩ := List.exists_cons_of_ne_nil nonempty
  obtain rfl : d = c := Option.some.inj member
  exact CharacterClass.wordOrDollar_of_blank (blank d List.mem_cons_self)

private theorem Binding.not_apart {binding : Binding} {word gap rest behind : List Char}
    (inside : ∀ c ∈ word, CharacterClass.wordOrDollar c.toNat = true) (blank : Blank gap)
    (nonempty : gap ≠ [])
    (begins : ∀ c ∈ behind.head?, CharacterClass.wordOrDollar c.toNat = true) :
    binding.spelled ++ rest ≠ word ++ gap ++ behind := by
  intro same
  let isBlank (c : Char) : Bool := CharacterClass.blank c.toNat
  let continues (c : Char) : Bool := CharacterClass.wordOrDollar c.toNat
  obtain ⟨assigned, shape⟩ := binding.exists_spelled_eq rest
  have endsName : ∀ c ∈ (binding.before ++ '=' :: assigned).head?, continues c = false :=
    wordOrDollar_head?_of_blank binding.beforeBlank _
  rw [shape, List.append_assoc] at same
  obtain ⟨-, same⟩ := append_inj_of_run continues same (wordOrDollar_of_name binding.named) inside
    endsName (word_head?_of_blank blank nonempty _)
  obtain ⟨-, same⟩ := append_inj_of_run isBlank same binding.beforeBlank blank
    (head?_outside (by decide) _) fun c first => blank_of_wordOrDollar (begins c first)
  have equals : CharacterClass.wordOrDollar '='.toNat = true := begins '=' (by simp [← same])
  exact absurd equals (by decide)

private theorem wordOrDollar_of_keyword {word : String} (member : word ∈ keywords) :
    ∀ c ∈ word.toList, CharacterClass.wordOrDollar c.toNat = true := by
  simp only [keywords, List.mem_cons, List.not_mem_nil, or_false] at member
  rcases member with rfl | rfl | rfl
  all_goals exact forall_mem_of_all (by decide)

/-- The characters behind a place spell at most one site. -/
theorem Form.unique {first second : Form} {rest other : List Char}
    (same : first.spelled ++ rest = second.spelled ++ other) : first = second ∧ rest = other := by
  obtain ⟨binding, keyword, valid⟩ := first
  obtain ⟨binding', keyword', valid'⟩ := second
  have shape (word : String) (gap : List Char) (binding : Binding) (rest : List Char) :
      word.toList ++ gap ++ binding.spelled ++ rest =
        word.toList ++ gap ++ (binding.spelled ++ rest) := List.append_assoc ..
  rcases keyword with _ | ⟨word, gap⟩ <;> rcases keyword' with _ | ⟨word', gap'⟩ <;>
    simp only [Form.spelled, Form.declared, Option.elim, List.nil_append, shape] at same
  case none.none =>
    obtain ⟨rfl, restEq⟩ := Binding.unique same
    exact ⟨rfl, restEq⟩
  case none.some =>
    obtain ⟨member, blank, nonempty⟩ := valid' _ rfl
    exact absurd same (Binding.not_apart (wordOrDollar_of_keyword member) blank nonempty
      (binding'.wordOrDollar_head? other))
  case some.none =>
    obtain ⟨member, blank, nonempty⟩ := valid _ rfl
    exact absurd same.symm (Binding.not_apart (wordOrDollar_of_keyword member) blank nonempty
      (binding.wordOrDollar_head? rest))
  case some.some =>
    obtain ⟨member, blank, nonempty⟩ := valid _ rfl
    obtain ⟨member', blank', nonempty'⟩ := valid' _ rfl
    let isBlank (c : Char) : Bool := CharacterClass.blank c.toNat
    let continues (c : Char) : Bool := CharacterClass.wordOrDollar c.toNat
    rw [List.append_assoc, List.append_assoc] at same
    obtain ⟨words, same⟩ := append_inj_of_run continues same (wordOrDollar_of_keyword member)
      (wordOrDollar_of_keyword member') (word_head?_of_blank blank nonempty _)
      (word_head?_of_blank blank' nonempty' _)
    obtain ⟨gaps, same⟩ := append_inj_of_run isBlank same blank blank'
      (fun c first => blank_of_wordOrDollar (binding.wordOrDollar_head? rest c first))
      (fun c first => blank_of_wordOrDollar (binding'.wordOrDollar_head? other c first))
    obtain ⟨rfl, restEq⟩ := Binding.unique same
    obtain rfl : word = word' := String.toList_injective words
    obtain rfl := gaps
    exact ⟨rfl, restEq⟩

/-- A site begins with a word. -/
theorem Form.wordOrDollar_head? (form : Form) (rest : List Char) :
    ∀ c ∈ (form.spelled ++ rest).head?, CharacterClass.wordOrDollar c.toNat = true := by
  obtain ⟨binding, _ | ⟨word, gap⟩, valid⟩ := form
  · exact binding.wordOrDollar_head? rest
  · intro c first
    obtain ⟨member, -, -⟩ := valid _ rfl
    have nonempty : word.toList ≠ [] := by
      simp only [keywords, List.mem_cons, List.not_mem_nil, or_false] at member
      rcases member with rfl | rfl | rfl
      all_goals decide
    have shape : Form.spelled ⟨binding, some (word, gap), valid⟩ ++ rest =
        word.toList ++ (gap ++ binding.spelled ++ rest) := by simp [Form.spelled, Form.declared]
    rw [shape, List.head?_append_of_ne_nil _ nonempty] at first
    exact wordOrDollar_of_keyword member c (List.mem_of_mem_head? first)

/-- In front of its equals sign a site has words and white space, and behind it the call. -/
theorem Form.exists_assigned (form : Form) (rest : List Char) : ∃ front gap called,
    form.spelled ++ rest = front ++ '=' :: (gap ++ 'r' :: called) ∧ Blank gap ∧
      ∀ c ∈ front, CharacterClass.wordOrDollar c.toNat = true ∨
        CharacterClass.blank c.toNat = true := by
  obtain ⟨binding, keyword, valid⟩ := form
  have bound : ∀ c ∈ binding.name ++ binding.before, CharacterClass.wordOrDollar c.toNat = true ∨
      CharacterClass.blank c.toNat = true := fun c member =>
    (List.mem_append.mp member).imp (wordOrDollar_of_name binding.named c) (binding.beforeBlank c)
  have declared : ∀ c ∈ keyword.elim [] fun (word, gap) => word.toList ++ gap,
      CharacterClass.wordOrDollar c.toNat = true ∨ CharacterClass.blank c.toNat = true := by
    intro c member
    obtain _ | ⟨word, gap⟩ := keyword
    · exact absurd member List.not_mem_nil
    · obtain ⟨isKeyword, blank, -⟩ := valid _ rfl
      exact (List.mem_append.mp member).imp (wordOrDollar_of_keyword isKeyword c) (blank c)
  refine ⟨(keyword.elim [] fun (word, gap) => word.toList ++ gap) ++ (binding.name ++
    binding.before), binding.behind, "equire(".toList ++ binding.inner ++
    binding.quote.character :: binding.content ++ binding.quote.character :: binding.outer ++
    ')' :: rest, ?_, binding.behindBlank, fun c member =>
      (List.mem_append.mp member).elim (declared c) (bound c)⟩
  simp [Form.spelled, Form.declared, Binding.spelled, Binding.assigned, opening_eq]

/-- Where another word follows a word, only a keyword begins a site. -/
theorem Form.not_apart {form : Form} {word gap rest behind : List Char}
    (inside : ∀ c ∈ word, CharacterClass.wordOrDollar c.toNat = true)
    (other : ∀ keyword ∈ keywords, word ≠ keyword.toList) (blank : Blank gap) (nonempty : gap ≠ [])
    (begins : ∀ c ∈ behind.head?, CharacterClass.wordOrDollar c.toNat = true) :
    form.spelled ++ rest ≠ word ++ gap ++ behind := by
  obtain ⟨binding, _ | ⟨keyword, space⟩, valid⟩ := form
  · exact Binding.not_apart inside blank nonempty begins
  · intro same
    obtain ⟨member, spaceBlank, someSpace⟩ := valid _ rfl
    have shape : Form.spelled ⟨binding, some (keyword, space), valid⟩ ++ rest =
        keyword.toList ++ (space ++ (binding.spelled ++ rest)) := by
      simp [Form.spelled, Form.declared]
    rw [shape, List.append_assoc] at same
    obtain ⟨words, -⟩ := append_inj_of_run (fun c : Char => CharacterClass.wordOrDollar c.toNat)
      same (wordOrDollar_of_keyword member) inside (word_head?_of_blank spaceBlank someSpace _)
      (word_head?_of_blank blank nonempty _)
    exact other keyword member words.symm

end Unique

section LineEnds

/-- Whether what stands in front of each line end of a text ends in white space behind a character
that no call ends in. -/
def NoneClosed (text : List Char) : Prop :=
  ∀ first second, text = first ++ '\n' :: second → ∃ (front : List Char) (c : Char)
    (gap : List Char), first = front ++ c :: gap ∧ Blank gap ∧
      CharacterClass.blank c.toNat = false ∧ c ≠ ')' ∧ c ≠ ';'

private theorem noneClosed_of_open {text : List Char} (free : '\n' ∉ text) : NoneClosed text := by
  rintro first second rfl
  simp at free

private theorem NoneClosed.append {front gap rest : List Char} {c : Char} (free : '\n' ∉ front)
    (plain : CharacterClass.blank c.toNat = false ∧ c ≠ ')' ∧ c ≠ ';') (blank : Blank gap)
    (closed : NoneClosed rest) : NoneClosed (front ++ c :: gap ++ rest) := by
  intro first second split
  have chunk : '\n' ∉ front ++ [c] := by
    have lineEnd : c ≠ '\n' := by
      rintro rfl
      exact absurd plain.1 (by decide)
    simp [free, Ne.symm lineEnd]
  rw [List.append_cons, List.append_assoc] at split
  rcases List.append_eq_append_iff.mp split with ⟨more, rfl, behind⟩ | ⟨more, short, lineEnd⟩
  · rcases List.append_eq_append_iff.mp behind with ⟨others, rfl, later⟩ | ⟨others, inside, -⟩
    · obtain ⟨other, d, space, rfl, valid⟩ := closed others second later
      exact ⟨front ++ [c] ++ gap ++ other, d, space, by simp, valid⟩
    · refine ⟨front, c, more, by simp, fun d member => blank d ?_, plain⟩
      rw [inside]
      exact List.mem_append_left _ member
  · cases more with
    | nil =>
      rw [List.append_nil] at short
      exact ⟨front, c, [], short.symm, blank_nil, plain⟩
    | cons d more =>
      obtain ⟨rfl, -⟩ := List.cons.inj lineEnd
      exact absurd (short ▸ by simp) chunk

private theorem plain_of_name {c : Char} (inside : CharacterClass.wordOrDollar c.toNat = true) :
    CharacterClass.blank c.toNat = false ∧ c ≠ ')' ∧ c ≠ ';' := by
  refine ⟨?_, ?_, ?_⟩
  · rw [← Bool.not_eq_true]
    intro blank
    rw [CharacterClass.wordOrDollar_of_blank blank] at inside
    contradiction
  all_goals
    rintro rfl
    exact absurd inside (by decide)

private theorem Binding.noneClosed (binding : Binding) : NoneClosed binding.spelled := by
  have lineEnd : '\n' ∉ binding.name := fun member =>
    absurd (wordOrDollar_of_name binding.named _ member) (by decide)
  have quote : '\n' ≠ binding.quote.character := by cases binding.quote <;> decide
  have quoted : CharacterClass.blank binding.quote.character.toNat = false ∧
      binding.quote.character ≠ ')' ∧ binding.quote.character ≠ ';' := by
    cases binding.quote <;> decide
  have content : '\n' ∉ binding.quote.character :: binding.content := by
    simp [quote, binding.contentValid.2]
  rcases List.eq_nil_or_concat' binding.name with nothing | ⟨front, last, shape⟩
  · exact absurd binding.named (by simp [nothing, IsName])
  have named := plain_of_name (wordOrDollar_of_name binding.named last (by simp [shape]))
  have frontOpen : '\n' ∉ front := fun member => lineEnd (by simp [shape, member])
  have closed := (noneClosed_of_open (by decide : '\n' ∉ [')'])).append content quoted
    binding.outerBlank
  have called := closed.append (by decide : '\n' ∉ "require".toList)
    (by decide : CharacterClass.blank '('.toNat = false ∧ '(' ≠ ')' ∧ '(' ≠ ';')
    binding.innerBlank
  have assigned := called.append (by decide : '\n' ∉ [])
    (by decide : CharacterClass.blank '='.toNat = false ∧ '=' ≠ ')' ∧ '=' ≠ ';')
    binding.behindBlank
  have bound := assigned.append frontOpen named binding.beforeBlank
  have opening : Call.opening = "require".toList ++ ['('] := rfl
  simpa [Binding.spelled, Binding.assigned, shape, opening] using bound

theorem Form.noneClosed (form : Form) : NoneClosed form.spelled := by
  cases shape : form.keyword with
  | none => simpa [Form.spelled, Form.declared, shape] using form.toBinding.noneClosed
  | some declaration =>
    obtain ⟨word, gap⟩ := declaration
    obtain ⟨member, blank, -⟩ := form.keywordValid _ shape
    obtain ⟨front, last, spelled, free, plain⟩ : ∃ (front : List Char) (last : Char),
        word.toList = front ++ [last] ∧ '\n' ∉ front ∧
          (CharacterClass.blank last.toNat = false ∧ last ≠ ')' ∧ last ≠ ';') := by
      simp only [keywords, List.mem_cons, List.not_mem_nil, or_false] at member
      rcases member with rfl | rfl | rfl
      · exact ⟨"va".toList, 'r', rfl, by decide, by decide⟩
      · exact ⟨"cons".toList, 't', rfl, by decide, by decide⟩
      · exact ⟨"le".toList, 't', rfl, by decide, by decide⟩
    have declared := form.toBinding.noneClosed.append free plain blank
    simpa [Form.spelled, Form.declared, shape, spelled] using declared

end LineEnds

/-- Whether a site is spelled by a stretch behind some characters, with what is read of it. -/
def Takes (before passed : List Char) (read : Span × Quote × Span) : Prop :=
  ∃ form : Form, passed = form.spelled ∧
    (form.keyword ≠ none → isWord before.getLast? = false) ∧
    read = form.toBinding.read (before ++ form.declared)

theorem Form.spelled_ne_nil (form : Form) : form.spelled ≠ [] := by
  simp [Form.spelled, Binding.spelled]

theorem reads_pattern : Reads RequireSite.pattern Takes := by
  refine reads_of_mem (fun before after read cursor => ?_) ?_ ?_
  · rw [mem_pattern]
    constructor
    · rintro ⟨form, rest, rfl, boundary, value, rfl⟩
      exact ⟨form.spelled, rest, rfl, ⟨form, rfl, boundary, value⟩, rfl⟩
    · rintro ⟨_, rest, rfl, ⟨form, rfl, boundary, value⟩, rfl⟩
      exact ⟨form, rest, rfl, boundary, value, rfl⟩
  · rintro _ _ _ ⟨form, rfl, -, -⟩
    exact form.spelled_ne_nil
  · rintro _ _ _ _ _ _ _ ⟨form, rfl, -, rfl⟩ ⟨other, rfl, -, rfl⟩ same
    obtain ⟨rfl, -⟩ := Form.unique same
    exact ⟨rfl, rfl⟩

/-- Where a site is spelled, the pattern matches it. -/
theorem matchAt?_form {before : List Char} (form : Form) (rest : List Char)
    (boundary : form.keyword ≠ none → isWord before.getLast? = false) :
    matchAt? RequireSite.pattern (between before (form.spelled ++ rest)) =
      some ⟨⟨(encode before).length, (encode (before ++ form.spelled)).length⟩,
        form.toBinding.read (before ++ form.declared)⟩ :=
  reads_pattern.matchAt?_eq_some form.spelled_ne_nil ⟨form, rfl, boundary, rfl⟩ rest

/-- What the search for sites finds is spelled there with all its parts. -/
theorem exists_form_of_mem_search {characters : List Char} {found : Match (Span × Quote × Span)}
    (member : found ∈ search RequireSite.pattern (encode characters)) :
    ∃ (before rest : List Char) (form : Form), characters = before ++ form.spelled ++ rest ∧
      found.span = ⟨(encode before).length, (encode (before ++ form.spelled)).length⟩ ∧
      found.value = form.toBinding.read (before ++ form.declared) := by
  obtain ⟨before, _, rest, split, -, ⟨form, rfl, -, value⟩, span⟩ :=
    reads_pattern.exists_of_mem_search member
  exact ⟨before, rest, form, split, span, value⟩

/-- Each site of a script stands in its mask with all its parts. -/
theorem exists_form {script : String} {site : RequireSite} (member : site ∈ all script) :
    ∃ (before rest : List Char) (form : Form),
      Text.mask script = encode (before ++ form.spelled ++ rest) ∧
      site.span = ⟨(encode before).length, (encode (before ++ form.spelled)).length⟩ := by
  obtain ⟨glyphs, -, masked⟩ := Text.exists_glyphs script.toList
  rw [← Text.ofString_eq, Glyph.mask_eq_encode] at masked
  rw [all, masked, List.mem_map] at member
  obtain ⟨found, inside, rfl⟩ := member
  obtain ⟨before, rest, form, split, span, -⟩ := exists_form_of_mem_search inside
  exact ⟨before, rest, form, by rw [masked, split], span⟩

end RequireSite

end BareComponent
