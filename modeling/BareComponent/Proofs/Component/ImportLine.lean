import BareComponent.Component.Script
import BareComponent.Proofs.Require.Site
import BareComponent.Proofs.Text.Decimal

/-! # The lines that stand for imports

The statements that stand for imports are lines of three kinds: a line binds a name to a module,
runs a module for its effects, or reads a temporary. Each line begins and ends outside of strings
and comments, so its mask does not depend on the lines around it. The first kind spells one require
site, and in the other two no site begins, whatever follows them.
-/

namespace BareComponent

namespace ComponentScript

open Text Scanner

/-- A line of the statements that stand for imports. -/
inductive ImportLine where
  | binds (name path : Text)
  | runs (path : Text)
  | reads (target : Text) (count : Nat)
deriving DecidableEq, Repr

/-- Bytes of names and of the patterns that take names out of a module. -/
def inTarget (b : UInt8) : Bool :=
  Byte.continuesIdentifier b ||
    [Byte.space, Byte.comma, Byte.colon, Byte.openBrace, Byte.closeBrace].contains b

/-- Whether a path is a string that stands for itself in single quotes. -/
structure PlainPath (path : Text) : Prop where
  string : ∃ string : String, path = string
  unquoted : ∀ b ∈ path, b ≠ Byte.singleQuote ∧ b ≠ Byte.doubleQuote
  unescaped : ∀ b ∈ path, b ≠ Byte.backslash ∧ b ≠ Byte.newline

namespace ImportLine

def text : ImportLine → Text
  | binds name path => constant name (requireCall path)
  | runs path => requireCall path ++ [Byte.semicolon]
  | reads target count => constant target (temporary count)

/-- Whether a line is made of names and of a path that stands for itself. -/
def Plain : ImportLine → Prop
  | binds name path => name.isIdentifier = true ∧ PlainPath path
  | runs path => PlainPath path
  | reads target _ => ∀ b ∈ target, inTarget b = true

/-- The line with its path blanked. -/
def masked : ImportLine → ImportLine
  | binds name path => binds name (List.replicate path.length Byte.space)
  | runs path => runs (List.replicate path.length Byte.space)
  | reads target count => reads target count

end ImportLine

section Bytes

theorem continuesIdentifier_of_name {name : Text} (named : name.isIdentifier = true) :
    ∀ b ∈ name, Byte.continuesIdentifier b = true := by
  intro b member
  cases name with
  | nil => exact absurd member List.not_mem_nil
  | cons c rest =>
    simp only [isIdentifier, Bool.and_eq_true, List.all_eq_true] at named
    rcases List.mem_cons.mp member with rfl | later
    · simp [Byte.continuesIdentifier, named.1]
    · exact named.2 b later

/-- A name can stand in the target of a line. -/
theorem inTarget_of_name {name : Text} (named : name.isIdentifier = true) :
    ∀ b ∈ name, inTarget b = true := by
  intro b member
  simp [inTarget, continuesIdentifier_of_name named b member]

/-- A temporary can stand in the target of a line. -/
theorem inTarget_temporary (count : Nat) : ∀ b ∈ temporary count, inTarget b = true := by
  intro b member
  rcases List.mem_append.mp member with stem | digits
  · have all : ∀ b ∈ Declaration.temporaryStem, inTarget b = true := forall_mem_of_all (by decide)
    exact all b stem
  · simp [inTarget, Byte.continuesIdentifier, isDigit_of_mem_ofNat digits]

theorem low_of_inTarget {b : UInt8} (inside : inTarget b = true) : b.toNat < 0x80 := by
  simp only [inTarget, Byte.continuesIdentifier, Byte.startsIdentifier, Byte.isLetter, Byte.isDigit,
    Bool.or_eq_true, Bool.and_eq_true, decide_eq_true_eq, beq_iff_eq, UInt8.le_iff_toNat_le,
    List.contains_eq_mem, List.mem_cons, List.not_mem_nil, or_false] at inside
  rcases inside with ((((⟨-, high⟩ | ⟨-, high⟩) | rfl) | rfl) | ⟨-, high⟩) |
    (rfl | rfl | rfl | rfl | rfl)
  case inl.inl.inl.inl.inl => exact Nat.lt_of_le_of_lt high (by decide)
  case inl.inl.inl.inl.inr => exact Nat.lt_of_le_of_lt high (by decide)
  case inl.inr => exact Nat.lt_of_le_of_lt high (by decide)
  all_goals decide

theorem ne_of_inTarget {b other : UInt8} (inside : inTarget b = true)
    (outside : inTarget other = false) : b ≠ other := by
  rintro rfl
  rw [outside] at inside
  exact Bool.false_ne_true inside

theorem settles_target {target : Text} (inside : ∀ b ∈ target, inTarget b = true) :
    Settles target target :=
  settles_plain fun b member =>
    ⟨ne_of_inTarget (inside b member) (by decide), ne_of_inTarget (inside b member) (by decide),
      ne_of_inTarget (inside b member) (by decide), ne_of_inTarget (inside b member) (by decide)⟩

end Bytes

/-- A path without a single quote stands in single quotes. -/
theorem requireCall_of_not_mem {path : Text} (free : Byte.singleQuote ∉ path) :
    requireCall path = ofString "require(" ++
      ([Byte.singleQuote] ++ path ++ [Byte.singleQuote]) ++ ofString ")" := by
  have absent : ¬path.contains "'" = true := by
    intro found
    obtain ⟨front, behind, rfl⟩ := contains_iff.mp found
    have quote : Byte.singleQuote ∈ ofString "'" := by decide
    exact free (by simp [quote])
  rw [requireCall, if_neg absent]
  simp

theorem requireCall_eq {path : Text} (plain : PlainPath path) : requireCall path =
    ofString "require(" ++ ([Byte.singleQuote] ++ path ++ [Byte.singleQuote]) ++ ofString ")" :=
  requireCall_of_not_mem fun member => (plain.unquoted _ member).1 rfl

theorem plainPath_spaces (count : Nat) : PlainPath (List.replicate count Byte.space) where
  string := ⟨String.ofList (List.replicate count ' '), by rw [ofString_eq]; simp [encode_spaces]⟩
  unquoted b member := by
    obtain rfl := List.eq_of_mem_replicate member
    decide
  unescaped b member := by
    obtain rfl := List.eq_of_mem_replicate member
    decide

/-- A call of a plain path leaves the scanner where it was, and all of its path is hidden. -/
theorem settles_requireCall {path : Text} (plain : PlainPath path) :
    Settles (requireCall path) (requireCall (List.replicate path.length Byte.space)) := by
  rw [requireCall_eq plain, requireCall_eq (plainPath_spaces _)]
  have opening : Settles (ofString "require(") (ofString "require(") :=
    settles_plain (forall_mem_of_all (by decide))
  have closing : Settles (ofString ")") (ofString ")") :=
    settles_plain (forall_mem_of_all (by decide))
  have hidden : Hides .single path := hides_plain fun b member =>
    ⟨(plain.unquoted b member).1, plain.unescaped b member⟩
  exact (opening.append hidden.settles).append closing

/-- A line that stores a value settles if the value does. -/
theorem settles_constant {target value masked : Text} (inside : ∀ b ∈ target, inTarget b = true)
    (settles : Settles value masked) :
    Settles (constant target value) (constant target masked) := by
  have opening : Settles (ofString "const ") (ofString "const ") :=
    settles_plain (forall_mem_of_all (by decide))
  have equals : Settles (ofString " = ") (ofString " = ") :=
    settles_plain (forall_mem_of_all (by decide))
  exact ((opening.append (settles_target inside)).append equals).append settles

/-- A line is masked without a look at the lines around it. -/
theorem ImportLine.settles {line : ImportLine} (plain : line.Plain) :
    Settles line.text line.masked.text := by
  cases line with
  | binds name path =>
    exact settles_constant (inTarget_of_name plain.1) (settles_requireCall plain.2)
  | runs path =>
    have semicolon : Settles [Byte.semicolon] [Byte.semicolon] :=
      settles_plain (forall_mem_of_all (by decide))
    exact (settles_requireCall plain).append semicolon
  | reads target count =>
    exact settles_constant plain (settles_target (inTarget_temporary count))

section Characters

open Pattern Cursor RequireSite RequireLine

private theorem wordOrDollar_ofUInt8 {b : UInt8} (continues : Byte.continuesIdentifier b = true) :
    CharacterClass.wordOrDollar (Char.ofUInt8 b).toNat = true := by
  have low : b.toNat < 0x80 := low_of_inTarget (by simp [inTarget, continues])
  rw [toNat_ofUInt8]
  simp only [Byte.continuesIdentifier, Byte.startsIdentifier, Bool.or_eq_true] at continues
  rcases continues with ((letter | underscore) | dollar) | digit <;>
    simp_all [CharacterClass.wordOrDollar, CharacterClass.or, CharacterClass.word,
      CharacterClass.ofByte]

theorem isName_ascii {name : Text} (named : name.isIdentifier = true) : IsName (ascii name) := by
  cases name with
  | nil => exact absurd named Bool.false_ne_true
  | cons b rest =>
    simp only [isIdentifier, Bool.and_eq_true, List.all_eq_true] at named
    have low : b.toNat < 0x80 :=
      low_of_inTarget (by simp [inTarget, Byte.continuesIdentifier, named.1])
    refine ⟨?_, fun c member => ?_⟩
    · simp [CharacterClass.ofByte, toNat_ofUInt8, low, named.1]
    · obtain ⟨d, inside, rfl⟩ := List.mem_map.mp member
      exact wordOrDollar_ofUInt8 (named.2 d inside)

/-- What is tested to be an identifier is a name as the patterns read it. -/
theorem isName_of_isIdentifier {name : List Char} (named : (encode name).isIdentifier = true) :
    IsName name := by
  have low : ∀ b ∈ encode name, b.toNat < 0x80 := fun b member =>
    low_of_inTarget (inTarget_of_name named b member)
  have same : ascii (encode name) = name := encode_injective (encode_ascii low)
  exact same ▸ isName_ascii named

/-- The characters of a temporary are a word that ends in a digit. -/
theorem exists_temporary (count : Nat) : ∃ front last,
    ascii (temporary count) = '_' :: front ++ [last] ∧
      0x30 ≤ last.toNat ∧ last.toNat ≤ 0x39 := by
  obtain ⟨digits, last, shape⟩ : ∃ digits last, ofNat count = digits ++ [last] :=
    (List.eq_nil_or_concat' _).resolve_left (ofNat_ne_nil count)
  have digit : Byte.isDigit last = true := @isDigit_of_mem_ofNat count last (by simp [shape])
  have stem : ascii Declaration.temporaryStem = '_' :: "_import_".toList := by decide
  refine ⟨"_import_".toList ++ ascii digits, Char.ofUInt8 last, ?_, ?_⟩
  · rw [temporary, shape, ascii_append, ascii_append, stem]
    simp [ascii]
  · simpa [Byte.isDigit, toNat_ofUInt8, UInt8.le_iff_toNat_le] using digit

private theorem wordOrDollar_temporary (count : Nat) :
    ∀ c ∈ ascii (temporary count), CharacterClass.wordOrDollar c.toNat = true := by
  intro c member
  obtain ⟨b, inside, rfl⟩ := List.mem_map.mp member
  refine wordOrDollar_ofUInt8 ?_
  rcases List.mem_append.mp inside with stem | digits
  · have all : ∀ b ∈ Declaration.temporaryStem, Byte.continuesIdentifier b = true :=
      forall_mem_of_all (by decide)
    exact all b stem
  · simp [Byte.continuesIdentifier, isDigit_of_mem_ofNat digits]

private theorem equals_not_mem {text : Text} (inside : ∀ b ∈ text, inTarget b = true) :
    '=' ∉ ascii text := by
  intro member
  obtain ⟨b, found, code⟩ := List.mem_map.mp member
  have equals : b = Byte.equals := by
    have := congrArg Char.toNat code
    rw [toNat_ofUInt8] at this
    exact UInt8.toNat_inj.mp this
  exact ne_of_inTarget (inside b found) (by decide) equals

/-- Whether what follows a line is nothing or the next line. -/
def Follows (tail : List Char) : Prop :=
  tail = [] ∨ ∃ next, tail = '\n' :: next ∧
    ∀ c ∈ next.head?, CharacterClass.wordOrDollar c.toNat = true

private theorem not_site_of_assigned {front temporary rest other : List Char} {form : Form}
    (free : '=' ∉ front) :
    front ++ '=' :: ' ' :: '_' :: temporary ++ rest ≠ form.spelled ++ other := by
  intro same
  obtain ⟨declared, gap, called, shape, blank, plain⟩ := form.exists_assigned other
  have noEquals : ∀ c ∈ declared, c ≠ '=' := by
    rintro c member rfl
    rcases plain _ member with word | blank
    · exact absurd word (by decide)
    · exact absurd blank (by decide)
  rw [shape, List.append_assoc, List.cons_append] at same
  obtain ⟨-, -, same⟩ := append_cons_inj_of_front (· ≠ '=') same (by simp) (by simp)
    (fun c member => by rintro rfl; exact free member) noEquals
  have space : ∀ c ∈ [' '], CharacterClass.blank c.toNat = true := forall_mem_of_all (by decide)
  obtain ⟨-, same⟩ := append_inj_of_run (fun c : Char => CharacterClass.blank c.toNat)
    (show [' '] ++ ('_' :: temporary ++ rest) = gap ++ 'r' :: called from same) space blank
    (by simp; decide) (by simp; decide)
  exact absurd (List.cons.inj same).1 (by decide)

private theorem not_site_of_temporary {count : Nat} {front behind tail rest : List Char}
    {form : Form} (follows : Follows tail) (nonempty : behind ≠ [])
    (split : ascii (temporary count) = front ++ behind) :
    behind ++ tail ≠ form.spelled ++ rest := by
  have suffix : ∀ c ∈ behind, c ∈ ascii (temporary count) := fun c member => by
    rw [split]
    exact List.mem_append_right _ member
  rcases follows with rfl | ⟨next, rfl, word⟩
  · intro same
    obtain ⟨declared, gap, called, shape, -, -⟩ := form.exists_assigned rest
    rw [List.append_nil, shape] at same
    exact equals_not_mem (inTarget_temporary count) (suffix '=' (by simp [same]))
  · obtain ⟨others, last, ends, digit⟩ := exists_temporary count
    obtain ⟨body, c, rfl⟩ := (List.eq_nil_or_concat' behind).resolve_left nonempty
    rw [ends, ← List.append_assoc] at split
    obtain ⟨-, same⟩ := List.append_inj' split rfl
    obtain rfl : last = c := (List.cons.inj same).1
    have other : ∀ keyword ∈ RequireSite.keywords, body ++ [last] ≠ keyword.toList := by
      intro keyword member same
      simp only [RequireSite.keywords, List.mem_cons, List.not_mem_nil, or_false] at member
      have lastEq : keyword.toList.getLast? = some last := by simp [← same]
      rcases member with rfl | rfl | rfl
      all_goals
        obtain rfl := Option.some.inj lastEq
        exact absurd digit (by decide)
    have lineEnd : Blank ['\n'] := by simp [Blank]; decide
    have apart := @Form.not_apart form (body ++ [last]) ['\n'] rest next
      (fun c member => wordOrDollar_temporary count c (suffix c member)) other lineEnd (by simp)
      word
    intro same
    exact apart (by simpa using same.symm)

/-- No site begins with a character that belongs to no word. -/
theorem not_site_of_head {c : Char} (outside : CharacterClass.wordOrDollar c.toNat = false)
    {behind rest : List Char} {form : Form} : c :: behind ≠ form.spelled ++ rest := by
  intro same
  have starts := form.wordOrDollar_head? rest c (by rw [← same]; rfl)
  rw [outside] at starts
  exact Bool.false_ne_true starts

/-- No site begins in a line that reads a temporary. -/
theorem not_site_of_reads {target : Text} {count : Nat} (inside : ∀ b ∈ target, inTarget b = true)
    {front behind tail rest : List Char} {form : Form} (follows : Follows tail)
    (nonempty : behind ≠ [])
    (split : ascii (ImportLine.reads target count).text = front ++ behind) :
    behind ++ tail ≠ form.spelled ++ rest := by
  have shape : ascii (ImportLine.reads target count).text =
      ("const ".toList ++ ascii target ++ [' ']) ++ '=' :: ' ' :: ascii (temporary count) := by
    have opening : ascii (ofString "const ") = "const ".toList := by decide
    have equals : ascii (ofString " = ") = [' ', '=', ' '] := by decide
    simp [ImportLine.text, constant, opening, equals]
  have free : '=' ∉ "const ".toList ++ ascii target ++ [' '] := by
    simp [equals_not_mem inside]
  rw [shape] at split
  rcases List.append_eq_append_iff.mp split with ⟨more, rfl, later⟩ | ⟨more, declared, rfl⟩
  · rcases more with _ | ⟨c, _ | ⟨d, more⟩⟩
    · obtain rfl : '=' :: ' ' :: ascii (temporary count) = behind := later
      exact not_site_of_head (by decide)
    · obtain rfl : ' ' :: ascii (temporary count) = behind := (List.cons.inj later).2
      exact not_site_of_head (by decide)
    · simp only [List.cons_append, List.cons.injEq] at later
      exact not_site_of_temporary follows nonempty later.2.2
  · obtain ⟨others, last, ends, -⟩ := exists_temporary count
    have moreOpen : '=' ∉ more := fun member =>
      free (declared ▸ List.mem_append_right _ member)
    rw [ends]
    exact @not_site_of_assigned more (others ++ [last]) tail rest form moreOpen

theorem ascii_requireCall (width : Nat) :
    ascii (requireCall (List.replicate width Byte.space)) =
      "require('".toList ++ List.replicate width ' ' ++ "')".toList := by
  have opening : ascii (ofString "require(") = "require(".toList := by decide
  have closing : ascii (ofString ")") = [')'] := by decide
  have quote : ascii [Byte.singleQuote] = ['\x27'] := by decide
  have space : Char.ofUInt8 Byte.space = ' ' := by decide
  have spaces : ascii (List.replicate width Byte.space) = List.replicate width ' ' := by
    rw [ascii, List.map_replicate, space]
  rw [requireCall_eq (plainPath_spaces width)]
  simp only [ascii_append, opening, closing, quote, spaces]
  simp

/-- No site begins in a line that runs a module. -/
theorem not_site_of_runs {width : Nat} {front behind tail rest : List Char} {form : Form}
    (nonempty : behind ≠ [])
    (split : ascii (ImportLine.runs (List.replicate width Byte.space)).text = front ++ behind) :
    behind ++ tail ≠ form.spelled ++ rest := by
  have shape : ascii (ImportLine.runs (List.replicate width Byte.space)).text =
      ("require('".toList ++ List.replicate width ' ' ++ "')".toList) ++ [';'] := by
    have semicolon : ascii [Byte.semicolon] = [';'] := by decide
    rw [ImportLine.text, ascii_append, ascii_requireCall, semicolon]
  have equals : '=' ∉ ascii (ImportLine.runs (List.replicate width Byte.space)).text := by
    rw [shape]
    simp
  have semicolon : ';' ∈ behind := by
    obtain ⟨body, last, rfl⟩ := (List.eq_nil_or_concat' behind).resolve_left nonempty
    rw [shape, ← List.append_assoc] at split
    obtain ⟨-, same⟩ := List.append_inj' split rfl
    rw [← same]
    simp
  obtain ⟨declared, gap, called, assigned, -, plain⟩ := form.exists_assigned rest
  have outside : ';' ∉ declared := fun member => by
    rcases plain _ member with word | blank
    · exact absurd word (by decide)
    · exact absurd blank (by decide)
  rw [assigned]
  intro same
  rcases List.append_eq_append_iff.mp same with ⟨more, rfl, -⟩ | ⟨more, rfl, next⟩
  · exact outside (List.mem_append_left _ semicolon)
  · cases more with
    | nil => exact outside (by simpa using semicolon)
    | cons c more =>
      obtain ⟨rfl, -⟩ := List.cons.inj next
      exact equals (by simp [split])

/-- The parts of the site in a line that binds a name to a module, its path blanked. -/
def bindingForm {name : List Char} (named : IsName name) (width : Nat) : RequireSite.Form where
  name := name
  before := [' ']
  behind := [' ']
  inner := []
  quote := .single
  content := List.replicate width ' '
  outer := []
  keyword := some ("const", [' '])
  named := named
  beforeBlank := by simp [Blank]; decide
  behindBlank := by simp [Blank]; decide
  innerBlank := blank_nil
  contentValid := by simp [Quote.character]
  outerBlank := blank_nil
  keywordValid := by simp [RequireSite.keywords, Blank]; decide

/-- A line that binds a name to a module spells one site. -/
theorem spelled_bindingForm {name : Text} (named : name.isIdentifier = true) (width : Nat) :
    (bindingForm (isName_ascii named) width).spelled =
      ascii (ImportLine.binds name (List.replicate width Byte.space)).text := by
  have opening : ascii (ofString "const ") = "const".toList ++ [' '] := by decide
  have equals : ascii (ofString " = ") = [' ', '=', ' '] := by decide
  have called : "require('".toList = Call.opening ++ ['\x27'] := rfl
  have closing : "')".toList = ['\x27', ')'] := rfl
  rw [ImportLine.text, constant, ascii_append, ascii_append, ascii_append, opening, equals,
    ascii_requireCall, called, closing]
  simp only [Form.spelled, Form.declared, Binding.spelled, Binding.assigned, bindingForm,
    Option.elim, Quote.character, List.append_assoc, List.cons_append, List.nil_append,
    List.append_nil]

private theorem low_requireCall (width : Nat) :
    ∀ b ∈ requireCall (List.replicate width Byte.space), b.toNat < 0x80 := by
  have opening : ∀ b ∈ ofString "require(", b.toNat < 0x80 := forall_mem_of_all (by decide)
  have closing : ∀ b ∈ ofString ")", b.toNat < 0x80 := forall_mem_of_all (by decide)
  rw [requireCall_eq (plainPath_spaces width)]
  simp only [List.mem_append, List.mem_singleton, List.mem_replicate]
  rintro b ((opened | ((rfl | ⟨-, rfl⟩) | rfl)) | closed)
  · exact opening b opened
  · decide
  · decide
  · decide
  · exact closing b closed

private theorem low_constant {target value : Text} (inside : ∀ b ∈ target, inTarget b = true)
    (low : ∀ b ∈ value, b.toNat < 0x80) : ∀ b ∈ constant target value, b.toNat < 0x80 := by
  have opening : ∀ b ∈ ofString "const ", b.toNat < 0x80 := forall_mem_of_all (by decide)
  have equals : ∀ b ∈ ofString " = ", b.toNat < 0x80 := forall_mem_of_all (by decide)
  simp only [constant, List.mem_append]
  rintro b (((opened | member) | assigned) | member)
  · exact opening b opened
  · exact low_of_inTarget (inside b member)
  · exact equals b assigned
  · exact low b member

/-- The mask of a line is ASCII. -/
theorem ImportLine.low_of_mem_masked {line : ImportLine} (plain : line.Plain) :
    ∀ b ∈ line.masked.text, b.toNat < 0x80 := by
  cases line with
  | binds name path =>
    exact low_constant (inTarget_of_name plain.1) (low_requireCall path.length)
  | runs path =>
    intro b member
    rcases List.mem_append.mp member with called | ended
    · exact low_requireCall path.length b called
    · obtain rfl := List.mem_singleton.mp ended
      decide
  | reads target count =>
    exact low_constant plain fun b member => low_of_inTarget (inTarget_temporary count b member)

end Characters

end ComponentScript

end BareComponent
