import BareComponent.Proofs.Component.Declared

/-! # Statements that are read as declarations

A statement that begins with a declaring keyword is read where it stands, because what is read in
front of it does not reach into it. There is one exception: a keyword directly in front takes the
keyword of the statement for its name. A destructuring declaration is read with all its entries.
-/

namespace BareComponent

open Text Pattern Cursor

namespace Declaration

/-- The keywords behind which a name is read. -/
def keywords : List (List Char) := "class".toList :: "function".toList :: variableKeywords

/-- What may stand between a keyword and the name. -/
def separates (c : Char) : Bool := CharacterClass.blank c.toNat || c == '*'

/-- The last word of some characters, of which white space and asterisks at the end are left out. -/
def lastWord (characters : List Char) : List Char :=
  (characters.rdropWhile separates).rtakeWhile fun c => CharacterClass.word c.toNat

/-- The parts of a destructuring declaration, through its equals sign. No braces stand inside its
braces. -/
structure Destructuring where
  keyword : List Char
  gap : List Char
  content : List Char
  more : List Char
  isVariable : keyword ∈ variableKeywords
  gapBlank : Blank gap
  braceless : ∀ c ∈ content, c ≠ '{' ∧ c ≠ '}'
  moreBlank : Blank more

namespace Destructuring

def opening (parts : Destructuring) : List Char := parts.keyword ++ parts.gap ++ ['{']

/-- The characters of a destructuring declaration, through its equals sign. -/
def spelled (parts : Destructuring) : List Char :=
  parts.opening ++ (parts.content ++ (['}'] ++ parts.more ++ ['=']))

/-- What stands between the commas inside the braces. -/
def entries (parts : Destructuring) : List (List Char) := parts.content.splitOn ','

/-- Where the inside of the braces stands behind some characters. -/
def inside (parts : Destructuring) (before : List Char) : Span :=
  ⟨(encode (before ++ parts.opening)).length,
    (encode (before ++ parts.opening ++ parts.content)).length⟩

end Destructuring

section Words

private theorem word_of_keyword {keyword : List Char} (spelled : keyword ∈ keywords) :
    keyword ≠ [] ∧ ∀ c ∈ keyword, CharacterClass.word c.toNat = true := by
  have all : ∀ keyword ∈ keywords, keyword ≠ [] ∧
      keyword.all (fun c => CharacterClass.word c.toNat) = true := by decide
  exact (all keyword spelled).imp_right List.all_eq_true.mp

private theorem wordOrDollar_of_word {c : Char} (word : CharacterClass.word c.toNat = true) :
    CharacterClass.wordOrDollar c.toNat = true := by
  simp [CharacterClass.wordOrDollar, CharacterClass.or, word]

private theorem wordOrDollar_of_mem_keywords {keyword : List Char} (spelled : keyword ∈ keywords) :
    ∀ c ∈ keyword, CharacterClass.wordOrDollar c.toNat = true :=
  fun c member => wordOrDollar_of_word ((word_of_keyword spelled).2 c member)

private theorem wordOrDollar_of_separates {c : Char} (separator : separates c = true) :
    CharacterClass.wordOrDollar c.toNat = false := by
  rcases Bool.or_eq_true _ _ |>.mp separator with blank | star
  · exact CharacterClass.wordOrDollar_of_blank blank
  · rw [beq_iff_eq.mp star]
    decide

private theorem separates_of_wordOrDollar {c : Char}
    (word : CharacterClass.wordOrDollar c.toNat = true) : separates c = false := by
  by_contra separator
  rw [Bool.not_eq_false] at separator
  rw [wordOrDollar_of_separates separator] at word
  contradiction

private theorem Head.exists_keyword {head : List Char} (heads : Head head) :
    ∃ keyword ∈ keywords, ∃ gap, head = keyword ++ gap ∧ gap ≠ [] ∧
      ∀ c ∈ gap, separates c = true := by
  have separated {gap : List Char} (blank : Blank gap) : ∀ c ∈ gap, separates c = true :=
    fun c member => by simp [separates, blank c member]
  cases heads with
  | @blanks keyword gap spelled nonempty blank =>
    have listed : keyword ∈ keywords := by
      rcases List.mem_cons.mp spelled with rfl | isVariable
      · exact List.mem_cons_self
      · exact List.mem_cons_of_mem _ (List.mem_cons_of_mem _ isVariable)
    exact ⟨keyword, listed, gap, rfl, nonempty, separated blank⟩
  | @function gap star more nonempty blank starred moreBlank =>
    have starSeparated : ∀ c ∈ star, separates c = true := by
      rcases starred with rfl | rfl
      all_goals exact forall_mem_of_all (by decide)
    refine ⟨"function".toList, by decide, gap ++ star ++ more, rfl, nonempty, ?_⟩
    exact List.forall_mem_append.mpr ⟨List.forall_mem_append.mpr ⟨separated blank, starSeparated⟩,
      separated moreBlank⟩

private theorem exists_keyword {head : List Char} (heads : Head head ∨ head = "function".toList) :
    ∃ keyword ∈ keywords, ∃ gap, head = keyword ++ gap ∧ ∀ c ∈ gap, separates c = true := by
  rcases heads with heads | rfl
  · obtain ⟨keyword, spelled, gap, rfl, -, separated⟩ := heads.exists_keyword
    exact ⟨keyword, spelled, gap, rfl, separated⟩
  · exact ⟨"function".toList, by decide, [], rfl, by simp⟩

private theorem lastWord_keyword {front keyword gap : List Char} (spelled : keyword ∈ keywords)
    (word : isWord front.getLast? = false) (separated : ∀ c ∈ gap, separates c = true) :
    lastWord (front ++ (keyword ++ gap)) = keyword := by
  obtain ⟨nonempty, inside⟩ := word_of_keyword spelled
  have dropped : (front ++ (keyword ++ gap)).rdropWhile separates = front ++ keyword := by
    obtain ⟨others, c, rfl⟩ := (List.eq_nil_or_concat' keyword).resolve_left nonempty
    have other : separates c = false :=
      separates_of_wordOrDollar (wordOrDollar_of_word (inside c (by simp)))
    rw [List.rdropWhile, ← List.append_assoc, List.reverse_append,
      List.dropWhile_append_of_pos (by simpa using separated)]
    simp [other]
  have starts : front.reverse.takeWhile (fun c => CharacterClass.word c.toNat) = [] := by
    rcases List.eq_nil_or_concat' front with rfl | ⟨others, c, rfl⟩
    · rfl
    · have outside : CharacterClass.word c.toNat = false := by simpa [isWord] using word
      simp [outside]
  rw [lastWord, dropped, List.rtakeWhile, List.reverse_append,
    List.takeWhile_append_of_pos (by simpa using inside), starts, List.append_nil,
    List.reverse_reverse]

private theorem exists_letter {keyword : List Char} (spelled : keyword ∈ keywords)
    (rest : List Char) :
    ∃ c ∈ (keyword ++ rest).head?, CharacterClass.wordOrDollar c.toNat = true := by
  obtain ⟨nonempty, inside⟩ := word_of_keyword spelled
  obtain ⟨c, others, rfl⟩ := List.exists_cons_of_ne_nil nonempty
  exact ⟨c, rfl, wordOrDollar_of_word (inside c List.mem_cons_self)⟩

end Words

section Edges

variable {part front behind text : List Char}

private theorem exists_edge (nonempty : front ≠ [])
    (edge : ∀ c ∈ (part ++ front).getLast?, CharacterClass.wordOrDollar c.toNat = false) :
    ∃ c ∈ front.getLast?, CharacterClass.wordOrDollar c.toNat = false := by
  rw [List.getLast?_append_of_ne_nil _ nonempty] at edge
  exact ⟨front.getLast nonempty, List.getLast?_eq_some_getLast nonempty,
    edge _ (List.getLast?_eq_some_getLast nonempty)⟩

private theorem exists_of_letters
    (inside : ∀ c ∈ part, CharacterClass.wordOrDollar c.toNat = true)
    (edge : ∃ c ∈ front.getLast?, CharacterClass.wordOrDollar c.toNat = false)
    (same : part ++ behind = front ++ text) :
    ∃ more, front = part ++ more ∧ behind = more ++ text := by
  rcases List.append_eq_append_iff.mp same with ⟨more, frontEq, behindEq⟩ | ⟨tail, partEq, -⟩
  · exact ⟨more, frontEq, behindEq⟩
  · obtain ⟨c, last, dark⟩ := edge
    rw [inside c (by simp [partEq, List.mem_of_mem_getLast? last])] at dark
    contradiction

private theorem exists_of_dark
    (outside : ∀ c ∈ part, CharacterClass.wordOrDollar c.toNat = false)
    (letter : ∃ c ∈ text.head?, CharacterClass.wordOrDollar c.toNat = true)
    (same : part ++ behind = front ++ text) :
    ∃ more, front = part ++ more ∧ behind = more ++ text := by
  rcases List.append_eq_append_iff.mp same with ⟨more, frontEq, behindEq⟩ |
    ⟨tail, partEq, text_eq⟩
  · exact ⟨more, frontEq, behindEq⟩
  · cases tail with
    | nil => exact ⟨[], by simpa using partEq.symm, by simpa using text_eq.symm⟩
    | cons c tail =>
      obtain ⟨d, first, inside⟩ := letter
      rw [text_eq] at first
      obtain rfl : c = d := Option.some.inj first
      rw [outside c (by simp [partEq])] at inside
      contradiction

end Edges

section Singles

variable {head name after : List Char}

private theorem stop_le_of_single {first second : List Char} {other : Match Span}
    (nonempty : second ≠ [])
    (edge : ∀ c ∈ (first ++ second).getLast?, CharacterClass.wordOrDollar c.toNat = false)
    (clear : lastWord (first ++ second) ∉ keywords) (heads : Head head)
    (here : matchAt? single (between first (second ++ (head ++ (name ++ after)))) = some other) :
    other.span.stop ≤ (encode (first ++ second)).length := by
  obtain ⟨next, matched, span, -⟩ := exists_of_matchAt? here
  obtain ⟨read, word, rest, split, reads, boundary, named, -, -, rfl⟩ :=
    exists_of_mem_single matched
  obtain ⟨keyword, spelled, gap, rfl, separated⟩ := exists_keyword reads
  obtain ⟨statement, begins, space, rfl, -⟩ := exists_keyword (.inl heads)
  have letter := exists_letter begins (space ++ (name ++ after))
  have shape : keyword ++ (gap ++ (word ++ rest)) =
      second ++ (statement ++ (space ++ (name ++ after))) := by
    rw [← List.append_assoc statement, split, List.append_assoc]
  obtain ⟨tail, rfl, behind⟩ :=
    exists_of_letters (wordOrDollar_of_mem_keywords spelled) (exists_edge nonempty edge) shape
  obtain ⟨tail, rfl, inside⟩ :=
    exists_of_dark (fun c member => wordOrDollar_of_separates (separated c member)) letter behind
  by_cases directly : tail = []
  · rw [directly, List.append_nil, lastWord_keyword spelled boundary separated] at clear
    exact absurd spelled clear
  · rw [← List.append_assoc keyword, ← List.append_assoc first] at edge
    obtain ⟨more, rfl, -⟩ := exists_of_letters (RequireLine.wordOrDollar_of_name named)
      (exists_edge directly edge) inside
    rw [span, position_between, position_between]
    simp only [encode_append, List.length_append]
    omega

private theorem wordOrDollar_head?_of_separates {gap : List Char} (nonempty : gap ≠ [])
    (separated : ∀ c ∈ gap, separates c = true) (behind : List Char) :
    ∀ c ∈ (gap ++ behind).head?, CharacterClass.wordOrDollar c.toNat = false := by
  intro c first
  rw [List.head?_append_of_ne_nil _ nonempty] at first
  exact wordOrDollar_of_separates (separated c (List.mem_of_mem_head? first))

private theorem separates_head?_of_name (named : RequireLine.IsName name) :
    ∀ c ∈ (name ++ after).head?, separates c = false := fun c first =>
  separates_of_wordOrDollar (RequireSite.wordOrDollar_head?_of_name named after c first)

private theorem keyword_ne {keyword : List Char} (spelled : keyword ∈ keywords)
    (named : RequireLine.IsName name) : keyword ≠ "function".toList ++ name := by
  intro same
  have short : ∀ keyword ∈ keywords, keyword.length ≤ "function".toList.length := by decide
  have length := short keyword spelled
  rw [same, List.length_append] at length
  obtain rfl : name = [] := List.length_eq_zero_iff.mp (by omega)
  exact named

private theorem single_unique {other word rest : List Char} (heads : Head head)
    (others : Head other ∨ other = "function".toList) (named : RequireLine.IsName name)
    (wordNamed : RequireLine.IsName word)
    (complete : ∀ c ∈ after.head?, CharacterClass.wordOrDollar c.toNat = false)
    (wordComplete : ∀ c ∈ rest.head?, CharacterClass.wordOrDollar c.toNat = false)
    (same : head ++ (name ++ after) = other ++ (word ++ rest)) :
    head = other ∧ name = word ∧ after = rest := by
  let continues (c : Char) : Bool := CharacterClass.wordOrDollar c.toNat
  obtain ⟨keyword, spelled, gap, rfl, nonempty, separated⟩ := heads.exists_keyword
  have keywordInside := wordOrDollar_of_mem_keywords spelled
  have keywordStops := wordOrDollar_head?_of_separates nonempty separated (name ++ after)
  rw [List.append_assoc] at same
  rcases others with others | rfl
  · obtain ⟨other, otherSpelled, space, rfl, someSpace, otherSeparated⟩ := others.exists_keyword
    rw [List.append_assoc] at same
    obtain ⟨words, behind⟩ := append_inj_of_run continues same keywordInside
      (wordOrDollar_of_mem_keywords otherSpelled) keywordStops
      (wordOrDollar_head?_of_separates someSpace otherSeparated _)
    obtain ⟨spaces, behind⟩ := append_inj_of_run separates behind separated otherSeparated
      (separates_head?_of_name named) (separates_head?_of_name wordNamed)
    obtain ⟨names, behind⟩ := append_inj_of_run continues behind
      (RequireLine.wordOrDollar_of_name named) (RequireLine.wordOrDollar_of_name wordNamed)
      complete wordComplete
    exact ⟨by rw [words, spaces], names, behind⟩
  · have whole : ∀ c ∈ "function".toList ++ word, continues c = true :=
      List.forall_mem_append.mpr
        ⟨forall_mem_of_all (by decide), RequireLine.wordOrDollar_of_name wordNamed⟩
    rw [← List.append_assoc _ word] at same
    obtain ⟨keywordEq, -⟩ := append_inj_of_run continues same keywordInside whole keywordStops
      wordComplete
    exact absurd keywordEq (keyword_ne spelled wordNamed)

private theorem isWord_of_edge {before : List Char}
    (edge : ∀ c ∈ before.getLast?, CharacterClass.wordOrDollar c.toNat = false) :
    isWord before.getLast? = false := by
  cases last : before.getLast? with
  | none => rfl
  | some c =>
    by_contra word
    have letter := wordOrDollar_of_word (Bool.not_eq_false _ ▸ word)
    rw [edge c last] at letter
    contradiction

theorem steps_single (characters : List Char) : Steps characters single := by
  rintro before after - value next member
  obtain ⟨head, name, rest, rfl, -, -, -, -, -, rfl⟩ := exists_of_mem_single member
  exact ⟨trivial, head ++ name, rest, by rw [List.append_assoc], by rw [List.append_assoc]⟩

/-- A single declaration at the beginning of a statement is found. -/
theorem single_mem_search {before : List Char} (heads : Head head)
    (edge : ∀ c ∈ before.getLast?, CharacterClass.wordOrDollar c.toNat = false)
    (clear : lastWord before ∉ keywords) (named : RequireLine.IsName name)
    (complete : ∀ c ∈ after.head?, CharacterClass.wordOrDollar c.toNat = false) :
    (⟨⟨(encode before).length, (encode (before ++ (head ++ name))).length⟩,
      ⟨(encode (before ++ head)).length, (encode (before ++ head ++ name)).length⟩⟩ : Match Span) ∈
        single.search (encode (before ++ (head ++ (name ++ after)))) := by
  have wordNonempty : head ++ name ≠ [] := by
    intro nothing
    rw [List.append_eq_nil_iff.mp nothing |>.2] at named
    exact named
  have here := single_mem heads (isWord_of_edge edge) named complete
  have unique : ∀ value next,
      (value, next) ∈ single (between before (head ++ (name ++ after))) →
        value = ⟨(encode (before ++ head)).length, (encode (before ++ head ++ name)).length⟩ ∧
          next = between (before ++ (head ++ name)) after := by
    intro value next member
    obtain ⟨other, word, rest, split, others, -, wordNamed, wordComplete, rfl, rfl⟩ :=
      exists_of_mem_single member
    obtain ⟨rfl, rfl, rfl⟩ :=
      single_unique heads others named wordNamed complete wordComplete split
    exact ⟨rfl, by rw [List.append_assoc]⟩
  rw [List.append_assoc before head name] at here
  rw [← List.append_assoc head name] at here unique
  have matched := matchAt?_of_unique wordNonempty here (by simpa using unique)
  refine (steps_single _).mem_search rfl ?_ ?_
  · simpa using matched
  · rintro first second other rfl nonempty reads
    exact stop_le_of_single nonempty edge clear heads reads

end Singles

section Several

variable {before after rest : List Char}

private theorem exists_destructuring {value : Span} {next : Cursor}
    (member : (value, next) ∈ destructuring (between before after)) :
    ∃ (parts : Destructuring) (rest : List Char), after = parts.spelled ++ rest ∧
      value = parts.inside before ∧ next = between (before ++ parts.spelled) rest := by
  obtain ⟨keyword, gap, content, more, rest, rfl, -, spelled, gapBlank, moreBlank, braceless,
    place, rfl⟩ := exists_of_mem_destructuring member
  refine ⟨⟨keyword, gap, content, more, spelled, gapBlank, braceless, moreBlank⟩, rest, ?_, ?_,
    ?_⟩
  · simp [Destructuring.spelled, Destructuring.opening]
  · exact place
  · simp [Destructuring.spelled, Destructuring.opening]

namespace Destructuring

private theorem mem (parts : Destructuring) (word : isWord before.getLast? = false) :
    (parts.inside before, between (before ++ parts.spelled) rest) ∈
      destructuring (between before (parts.spelled ++ rest)) := by
  have read := @destructuring_mem before parts.keyword parts.gap parts.content parts.more rest
    word parts.isVariable parts.gapBlank parts.moreBlank parts.braceless
  simpa [inside, spelled, opening] using read

private theorem spelled_append (parts : Destructuring) (after : List Char) :
    parts.spelled ++ after = parts.keyword ++ (parts.gap ++ '{' ::
      (parts.content ++ (['}'] ++ parts.more ++ ['=']) ++ after)) := by
  simp [spelled, opening]

private theorem wordOrDollar_head? {gap : List Char} {c : Char} (blank : Blank gap)
    (dark : CharacterClass.wordOrDollar c.toNat = false) (behind : List Char) :
    ∀ d ∈ (gap ++ c :: behind).head?, CharacterClass.wordOrDollar d.toNat = false := by
  intro d first
  cases gap with
  | nil =>
    obtain rfl : c = d := Option.some.inj first
    exact dark
  | cons e gap =>
    obtain rfl : e = d := Option.some.inj first
    exact CharacterClass.wordOrDollar_of_blank (blank e List.mem_cons_self)

private theorem keyword_mem_keywords (parts : Destructuring) : parts.keyword ∈ keywords :=
  List.mem_cons_of_mem _ (List.mem_cons_of_mem _ parts.isVariable)

private theorem wordOrDollar_keyword (parts : Destructuring) :
    ∀ c ∈ parts.keyword, CharacterClass.wordOrDollar c.toNat = true :=
  wordOrDollar_of_mem_keywords parts.keyword_mem_keywords

/-- The characters behind a place spell at most one destructuring declaration. -/
theorem unique {first second : Destructuring} {other : List Char}
    (same : first.spelled ++ rest = second.spelled ++ other) : first = second ∧ rest = other := by
  let isBlank (c : Char) : Bool := CharacterClass.blank c.toNat
  have stops {c : Char} (dark : CharacterClass.blank c.toNat = false) (behind : List Char) :
      ∀ d ∈ (c :: behind).head?, isBlank d = false := by
    rintro d head
    obtain rfl : c = d := Option.some.inj head
    exact dark
  have braces (parts : Destructuring) : ∀ c ∈ parts.content, c ≠ '}' := fun c member =>
    (parts.braceless c member).2
  simp only [spelled, opening, List.append_assoc, List.cons_append, List.nil_append] at same
  obtain ⟨words, same⟩ := append_inj_of_run (fun c : Char => CharacterClass.wordOrDollar c.toNat)
    same first.wordOrDollar_keyword second.wordOrDollar_keyword
    (wordOrDollar_head? first.gapBlank (by decide) _)
    (wordOrDollar_head? second.gapBlank (by decide) _)
  obtain ⟨gaps, same⟩ := append_inj_of_run isBlank same first.gapBlank second.gapBlank
    (stops (by decide) _) (stops (by decide) _)
  obtain ⟨contents, -, same⟩ := append_cons_inj_of_front (· ≠ '}') (List.cons.inj same).2
    (by simp) (by simp) (braces first) (braces second)
  obtain ⟨mores, same⟩ := append_inj_of_run isBlank same first.moreBlank second.moreBlank
    (stops (by decide) _) (stops (by decide) _)
  refine ⟨?_, (List.cons.inj same).2⟩
  obtain ⟨_, _, _, _, _, _, _, _⟩ := first
  obtain ⟨_, _, _, _, _, _, _, _⟩ := second
  obtain rfl := words
  obtain rfl := gaps
  obtain rfl := contents
  obtain rfl := mores
  rfl

/-- Where a destructuring declaration is spelled, no single one is. -/
theorem not_single {head name : List Char} (parts : Destructuring)
    (heads : Head head ∨ head = "function".toList) (named : RequireLine.IsName name)
    (complete : ∀ c ∈ rest.head?, CharacterClass.wordOrDollar c.toNat = false) :
    head ++ (name ++ rest) ≠ parts.spelled ++ after := by
  intro same
  let continues (c : Char) : Bool := CharacterClass.wordOrDollar c.toNat
  have stops := wordOrDollar_head? (c := '{') parts.gapBlank (by decide)
    (parts.content ++ (['}'] ++ parts.more ++ ['=']) ++ after)
  rw [parts.spelled_append] at same
  rcases heads with heads | rfl
  · obtain ⟨keyword, spelled, gap, rfl, nonempty, separated⟩ := heads.exists_keyword
    have gapSeparated : ∀ c ∈ parts.gap, separates c = true := fun c member => by
      simp [separates, parts.gapBlank c member]
    rw [List.append_assoc] at same
    obtain ⟨-, behind⟩ := append_inj_of_run continues same (wordOrDollar_of_mem_keywords spelled)
      parts.wordOrDollar_keyword (wordOrDollar_head?_of_separates nonempty separated _) stops
    obtain ⟨-, behind⟩ := append_inj_of_run separates behind separated gapSeparated
      (separates_head?_of_name named) (by simp [separates]; decide)
    have letter := RequireSite.wordOrDollar_head?_of_name named rest '{' (by simp [behind])
    exact absurd letter (by decide)
  · have whole : ∀ c ∈ "function".toList ++ name, continues c = true :=
      List.forall_mem_append.mpr
        ⟨forall_mem_of_all (by decide), RequireLine.wordOrDollar_of_name named⟩
    rw [← List.append_assoc _ name] at same
    obtain ⟨keyword, -⟩ := append_inj_of_run continues same whole parts.wordOrDollar_keyword
      complete stops
    exact absurd keyword.symm (keyword_ne parts.keyword_mem_keywords named)

private theorem braceless_front (parts : Destructuring) :
    ∀ c ∈ parts.keyword ++ parts.gap, c ≠ '{' ∧ c ≠ '}' := by
  have apart {c : Char} : CharacterClass.wordOrDollar c.toNat = true ∨
      CharacterClass.blank c.toNat = true → c ≠ '{' ∧ c ≠ '}' := by
    intro inside
    constructor
    · rintro rfl
      exact absurd inside (by decide)
    · rintro rfl
      exact absurd inside (by decide)
  intro c member
  rcases List.mem_append.mp member with inside | inside
  · exact apart (.inl (parts.wordOrDollar_keyword c inside))
  · exact apart (.inr (parts.gapBlank c inside))

private theorem exists_of_append {parts other : Destructuring} {front : List Char}
    (edge : ∃ c ∈ front.getLast?, CharacterClass.wordOrDollar c.toNat = false)
    (same : other.spelled ++ rest = front ++ (parts.spelled ++ after)) :
    ∃ more, front = other.spelled ++ more := by
  have letter : ∃ c ∈ (parts.spelled ++ after).head?,
      CharacterClass.wordOrDollar c.toNat = true := by
    rw [parts.spelled_append]
    exact exists_letter parts.keyword_mem_keywords _
  have shape : other.keyword ++ (other.gap ++ ['{'] ++ (other.content ++
      (['}'] ++ other.more ++ ['='] ++ rest))) = front ++ (parts.spelled ++ after) := by
    rw [← same]
    simp [spelled, opening]
  have blankDark {gap : List Char} (blank : Blank gap) :
      ∀ c ∈ gap, CharacterClass.wordOrDollar c.toNat = false := fun c member =>
    CharacterClass.wordOrDollar_of_blank (blank c member)
  have gapDark : ∀ c ∈ other.gap ++ ['{'], CharacterClass.wordOrDollar c.toNat = false :=
    List.forall_mem_append.mpr ⟨blankDark other.gapBlank, forall_mem_of_all (by decide)⟩
  have closeDark : ∀ c ∈ ['}'] ++ other.more ++ ['='],
      CharacterClass.wordOrDollar c.toNat = false :=
    List.forall_mem_append.mpr
      ⟨List.forall_mem_append.mpr ⟨forall_mem_of_all (by decide), blankDark other.moreBlank⟩,
        forall_mem_of_all (by decide)⟩
  obtain ⟨tail, rfl, behind⟩ := exists_of_letters other.wordOrDollar_keyword edge shape
  obtain ⟨tail, rfl, inside⟩ := exists_of_dark gapDark letter behind
  rcases List.append_eq_append_iff.mp inside with ⟨tail, rfl, closed⟩ | ⟨tail, content, text⟩
  · obtain ⟨tail, rfl, -⟩ := exists_of_dark closeDark letter closed
    exact ⟨tail, by simp [spelled, opening]⟩
  · have tailBraceless : ∀ c ∈ tail, c ≠ '{' ∧ c ≠ '}' := fun c member =>
      other.braceless c (by simp [content, member])
    have braces : (parts.keyword ++ parts.gap) ++ '{' ::
        (parts.content ++ (['}'] ++ parts.more ++ ['=']) ++ after) =
          tail ++ '}' :: (other.more ++ ['='] ++ rest) := by
      simpa [spelled, opening] using text
    obtain ⟨-, brace, -⟩ := append_cons_inj_of_front (fun c => c ≠ '{' ∧ c ≠ '}') braces
      (by simp) (by simp) parts.braceless_front tailBraceless
    exact absurd brace (by decide)

end Destructuring

theorem steps_destructuring (characters : List Char) : Steps characters destructuring := by
  rintro before after - value next member
  obtain ⟨parts, rest, rfl, -, rfl⟩ := exists_destructuring member
  exact ⟨trivial, parts.spelled, rest, rfl, rfl⟩

/-- A destructuring declaration at the beginning of a statement is found. -/
theorem Destructuring.mem_search (parts : Destructuring)
    (edge : ∀ c ∈ before.getLast?, CharacterClass.wordOrDollar c.toNat = false) :
    (⟨⟨(encode before).length, (encode (before ++ parts.spelled)).length⟩, parts.inside before⟩ :
        Match Span) ∈ destructuring.search (encode (before ++ (parts.spelled ++ after))) := by
  have spelledNonempty : parts.spelled ≠ [] := by simp [spelled, opening]
  refine (steps_destructuring _).mem_search rfl ?_ ?_
  · refine matchAt?_of_unique spelledNonempty (parts.mem (isWord_of_edge edge))
      fun value next member => ?_
    obtain ⟨other, rest, split, rfl, rfl⟩ := exists_destructuring member
    obtain ⟨rfl, rfl⟩ := Destructuring.unique split
    exact ⟨rfl, rfl⟩
  · rintro first second found rfl nonempty reads
    obtain ⟨next, matched, span, -⟩ := exists_of_matchAt? reads
    obtain ⟨other, rest, split, -, rfl⟩ := exists_destructuring matched
    obtain ⟨more, rfl⟩ := Destructuring.exists_of_append (exists_edge nonempty edge) split.symm
    rw [span, position_between, position_between]
    simp only [encode_append, List.length_append]
    omega

/-- Every destructuring declaration that is found is spelled by its parts. -/
theorem exists_of_mem_search_destructuring {masked : List Char} {found : Match Span}
    (member : found ∈ destructuring.search (encode masked)) :
    ∃ (before : List Char) (parts : Destructuring) (after : List Char),
      masked = before ++ (parts.spelled ++ after) ∧ found.span.start = (encode before).length ∧
        found.value = parts.inside before := by
  obtain ⟨before, after, rfl, reads⟩ := exists_of_mem_search member
  obtain ⟨_, matched, span, -⟩ := exists_of_matchAt? reads
  obtain ⟨parts, rest, rfl, value, -⟩ := exists_destructuring matched
  rw [position_between] at span
  exact ⟨before, parts, rest, rfl, congrArg Span.start span, value⟩

/-- What is read inside the braces are the entries. -/
theorem Destructuring.splitOn_inside (parts : Destructuring) :
    ((encode (before ++ (parts.spelled ++ after))).slice (parts.inside before)).splitOn Byte.comma =
      parts.entries.map encode := by
  have shape : before ++ (parts.spelled ++ after) =
      before ++ parts.opening ++ parts.content ++ (['}'] ++ parts.more ++ ['='] ++ after) := by
    simp [spelled]
  have cut : (encode (before ++ (parts.spelled ++ after))).slice (parts.inside before) =
      encode parts.content := by
    rw [shape, encode_append _ (_ ++ _), encode_append _ parts.content, inside]
    exact slice_append _ rfl (by rw [encode_append _ parts.content, List.length_append])
  rw [cut]
  exact splitOn_encode (c := ',') (b := Byte.comma) rfl (by decide) parts.content

/-- What stands behind a place does not depend on how the text in front of it is taken. -/
theorem append_inj_of_place {front behind : List Char} (same : front ++ behind = before ++ after)
    (place : (encode front).length = (encode before).length) : front = before ∧ behind = after := by
  obtain ⟨more, beforeEq, rfl⟩ := exists_append_of_length_le same place.le
  have nothing : more = [] := by
    rw [beforeEq, encode_append, List.length_append] at place
    exact eq_nil_of_encode (List.length_eq_zero_iff.mp (by omega))
  rw [nothing, List.append_nil] at beforeEq
  exact ⟨beforeEq.symm, by rw [nothing, List.nil_append]⟩

/-- No single declaration is found where a destructuring one is spelled. -/
theorem Destructuring.start_ne (parts : Destructuring) {found : Match Span}
    (member : found ∈ single.search (encode (before ++ (parts.spelled ++ after)))) :
    found.span.start ≠ (encode before).length := by
  intro here
  obtain ⟨front, head, name, rest, split, heads, -, named, complete, place, -⟩ :=
    exists_of_mem_search_single member
  rw [here] at place
  exact parts.not_single heads named complete (append_inj_of_place split.symm place.symm).2

end Several

end Declaration

end BareComponent
