import BareComponent.Proofs.Pattern.Encoded
import BareComponent.Proofs.Text.Nesting
import BareComponent.ReturnFilter
import Mathlib.Data.List.Pairwise
import Mathlib.Data.List.Sort

/-! # Return literals

A closed return literal is `return`, which no word runs into, blanks, a brace, a balanced content
and a closing bracket. Two of them are apart from each other or one stands in the content of the
other, and the filter looks at the outermost ones. It finds them from left to right, where each step
passes one character or a whole literal.
-/

namespace BareComponent.ReturnFilter

open Text Pattern Cursor

def keyword : List Char := ['r', 'e', 't', 'u', 'r', 'n']

/-- The characters from a `return` through the brace behind it. -/
def headOf (blanks : List Char) : List Char := keyword ++ blanks ++ ['{']

/-- Whether a closed return literal has this span for its inside. -/
def ClosedLiteral (masked : Text) (inside : Span) : Prop :=
  ∃ (before blanks : List Char) (content : Text) (bracket : UInt8) (behind : Text),
    masked = encode (before ++ headOf blanks) ++ content ++ bracket :: behind ∧
    isWord before.getLast? = false ∧ Blank blanks ∧ Balanced content ∧
    Byte.isClose bracket = true ∧
    inside = ⟨(encode (before ++ headOf blanks)).length,
      (encode (before ++ headOf blanks)).length + content.length⟩

/-- Whether a closed return literal stands in no other. -/
def Outermost (masked : Text) (inside : Span) : Prop :=
  ClosedLiteral masked inside ∧ ∀ other, ClosedLiteral masked other →
    other.start ≤ inside.start → inside.stop ≤ other.stop → other = inside

section Heads

variable {before after rest blanks : List Char} {cursor : Cursor} {value : Unit} {c : Char}

theorem headOf_append (blanks rest : List Char) :
    headOf blanks ++ rest = 'r' :: 'e' :: 't' :: 'u' :: 'r' :: 'n' :: (blanks ++ '{' :: rest) := by
  simp [headOf, keyword]

/-- The last byte of a head is its brace. -/
theorem encode_headOf (before blanks : List Char) : encode (before ++ headOf blanks) =
    encode (before ++ keyword ++ blanks) ++ [Byte.openBrace] := by
  have brace : [Byte.openBrace] = encode ['{'] := rfl
  rw [headOf, brace, ← encode_append]
  simp only [List.append_assoc]

theorem headOf_ne_nil (blanks : List Char) : headOf blanks ≠ [] := List.cons_ne_nil _ _

/-- What opens a return object: the word, blanks and a brace. -/
theorem mem_head : (value, cursor) ∈ head (between before after) ↔
    ∃ blanks rest, after = headOf blanks ++ rest ∧ Blank blanks ∧ isWord before.getLast? = false ∧
      cursor = between (before ++ headOf blanks) rest := by
  have brace : [Byte.openBrace] = encode ['{'] := rfl
  have word : ("return" : Text) = encode keyword := Text.ofString_eq _
  have begins (rest : List Char) : isWord (keyword ++ rest).head? = true := rfl
  have braceVisible : CharacterClass.blank '{'.toNat = false := by decide
  simp only [head, mem_bind, Pattern.blanks, mem_wordBoundary, word, brace]
  constructor
  · rintro ⟨_, _, ⟨boundary, rfl⟩, _, _, named, _, _, gap, opened⟩
    obtain ⟨_, rfl, rfl⟩ := mem_literal.mp named
    obtain ⟨blanks, _, rfl, blank, -, rfl⟩ := mem_run.mp gap
    obtain ⟨rest, rfl, rfl⟩ := mem_literal.mp opened
    rw [begins, ne_eq, Bool.not_eq_true] at boundary
    exact ⟨blanks, rest, by simp only [headOf, List.append_assoc], blank, boundary,
      by simp only [headOf, List.append_assoc]⟩
  · rintro ⟨blanks, rest, rfl, blank, boundary, rfl⟩
    have stops : ∀ c ∈ (['{'] ++ rest).head?, CharacterClass.blank c.toNat = false := by
      intro c first
      obtain rfl : '{' = c := Option.some.inj first
      exact braceVisible
    have named := literal_mem before keyword (blanks ++ (['{'] ++ rest))
    have gap : ((), between (before ++ keyword ++ blanks) (['{'] ++ rest)) ∈
        run .blank (between (before ++ keyword) (blanks ++ (['{'] ++ rest))) :=
      mem_run.mpr ⟨blanks, ['{'] ++ rest, rfl, blank, stops, rfl⟩
    have opened := literal_mem (before ++ keyword ++ blanks) ['{'] rest
    have shape : headOf blanks ++ rest = keyword ++ (blanks ++ (['{'] ++ rest)) := by
      simp only [headOf, List.append_assoc]
    rw [shape]
    refine ⟨(), _, ⟨?_, rfl⟩, (), _, named, (), _, gap, ?_⟩
    · rw [begins, boundary]
      decide
    · simpa only [headOf, List.append_assoc] using opened

theorem headOf_inj {others behind : List Char} (blank : Blank blanks) (otherBlank : Blank others)
    (same : headOf blanks ++ rest = headOf others ++ behind) : blanks = others ∧ rest = behind := by
  have brace : ¬CharacterClass.blank '{'.toNat = true := by decide
  simp only [headOf_append, List.cons.injEq, true_and] at same
  have cut := append_cons_inj_of_front (fun c => CharacterClass.blank c.toNat = true) same
  obtain ⟨blanksEq, -, restEq⟩ := cut brace brace blank otherBlank
  exact ⟨blanksEq, restEq⟩

private theorem matchAt?_head (blank : Blank blanks) (boundary : isWord before.getLast? = false)
    (rest : List Char) : matchAt? head (between before (headOf blanks ++ rest)) =
      some ⟨⟨(encode before).length, (encode (before ++ headOf blanks)).length⟩, ()⟩ := by
  have matched : ((), between (before ++ headOf blanks) rest) ∈
      head (between before (headOf blanks ++ rest)) :=
    mem_head.mpr ⟨blanks, rest, rfl, blank, boundary, rfl⟩
  refine (matchAt?_eq_some (headOf_ne_nil _) matched fun _ _ member => ?_).choose_spec
  obtain ⟨others, behind, same, otherBlank, -, rfl⟩ := mem_head.mp member
  obtain ⟨rfl, rfl⟩ := headOf_inj blank otherBlank same
  rfl

private theorem matchAt?_ne_head (other : c ≠ 'r' ∨ isWord before.getLast? = true) :
    matchAt? head (between before (c :: rest)) = none := by
  refine matchAt?_eq_none fun value cursor member => ?_
  obtain ⟨blanks, behind, split, -, boundary, -⟩ := mem_head.mp member
  rw [headOf_append] at split
  rcases other with other | word
  · exact other (List.cons.inj split).1
  · simp [word] at boundary

private theorem searchBehind_skip {first : List Char}
    (quiet : ∀ u c v, first = u ++ c :: v → c ≠ 'r' ∨ isWord (before ++ u).getLast? = true) :
    searchBehind head before (first ++ rest) = searchBehind head (before ++ first) rest := by
  induction first generalizing before with
  | nil => simp
  | cons c first ih =>
    have next : searchBehind head before (c :: first ++ rest) =
        searchBehind head (before ++ [c]) (first ++ rest) :=
      searchBehind_of_none (matchAt?_ne_head (by simpa using quiet [] c first rfl))
    rw [next, ih fun u d v split => ?_]
    · simp
    · simpa using quiet (c :: u) d v (by rw [split]; rfl)

/-- No head begins inside another one. -/
theorem headOf_quiet (before : List Char) (blank : Blank blanks) {u v : List Char}
    (split : 'e' :: 't' :: 'u' :: 'r' :: 'n' :: (blanks ++ ['{']) = u ++ c :: v) :
    c ≠ 'r' ∨ isWord (before ++ 'r' :: u).getLast? = true := by
  rcases u with _ | ⟨e, _ | ⟨t, _ | ⟨i, _ | ⟨r, _ | ⟨n, u⟩⟩⟩⟩⟩
  all_goals simp only [List.nil_append, List.cons_append, List.cons.injEq] at split
  case cons.cons.cons.nil =>
    obtain ⟨-, -, rfl, -⟩ := split
    have last : (before ++ ['r', e, t, 'u']).getLast? = some 'u' := by simp
    right
    rw [last]
    decide
  case cons.cons.cons.cons.cons =>
    have member : c ∈ blanks ++ ['{'] := by simp [split]
    have letter : CharacterClass.blank 'r'.toNat = false := by decide
    left
    rintro rfl
    rcases List.mem_append.mp member with inside | brace
    · rw [blank 'r' inside] at letter
      contradiction
    · simp at brace
  all_goals
    left
    rintro rfl
    simp at split

private theorem exists_head {hit : Match Unit}
    (found : matchAt? head (between before rest) = some hit) :
    ∃ blanks behind, rest = headOf blanks ++ behind ∧ Blank blanks ∧
      isWord before.getLast? = false ∧
      hit = ⟨⟨(encode before).length, (encode (before ++ headOf blanks)).length⟩, ()⟩ := by
  by_cases reads : ∃ value cursor, (value, cursor) ∈ head (between before rest)
  · obtain ⟨value, cursor, member⟩ := reads
    obtain ⟨blanks, behind, rfl, blank, boundary, -⟩ := mem_head.mp member
    rw [matchAt?_head blank boundary] at found
    exact ⟨blanks, behind, rfl, blank, boundary, (Option.some.inj found).symm⟩
  · have absent : matchAt? head (between before rest) = none :=
      matchAt?_eq_none fun value cursor member => reads ⟨value, cursor, member⟩
    simp [absent] at found

/-- A search for heads looks at every character. -/
theorem searchBehind_cons (before : List Char) (c : Char) (rest : List Char) :
    searchBehind head before (c :: rest) =
      (matchAt? head (between before (c :: rest))).toList ++
        searchBehind head (before ++ [c]) rest := by
  cases found : matchAt? head (between before (c :: rest)) with
  | none => exact searchBehind_of_none found
  | some hit =>
    obtain ⟨blanks, behind, split, blank, -, rfl⟩ := exists_head found
    rw [split] at found ⊢
    rw [searchBehind_of_some found (headOf_ne_nil _)]
    rw [headOf_append] at split
    obtain ⟨rfl, rfl⟩ := List.cons.inj split
    have shape : 'e' :: 't' :: 'u' :: 'r' :: 'n' :: (blanks ++ '{' :: behind) =
        'e' :: 't' :: 'u' :: 'r' :: 'n' :: (blanks ++ ['{']) ++ behind := by simp
    rw [shape, searchBehind_skip fun u d v split => by simpa using headOf_quiet before blank split]
    have whole : headOf blanks = 'r' :: 'e' :: 't' :: 'u' :: 'r' :: 'n' :: (blanks ++ ['{']) := by
      simpa using headOf_append blanks []
    simp [whole]

/-- A search finds every head. -/
theorem head_mem_searchBehind {front : List Char} (blank : Blank blanks)
    (boundary : isWord (before ++ front).getLast? = false) (rest : List Char) :
    ⟨⟨(encode (before ++ front)).length, (encode (before ++ front ++ headOf blanks)).length⟩, ()⟩ ∈
      searchBehind head before (front ++ (headOf blanks ++ rest)) := by
  induction front generalizing before with
  | nil =>
    rw [List.append_nil] at boundary ⊢
    have here := matchAt?_head blank boundary rest
    rw [headOf_append] at here
    rw [List.nil_append, headOf_append, searchBehind_cons, here]
    exact List.mem_append_left _ (List.mem_singleton_self _)
  | cons c front ih =>
    have shape (others : List Char) : before ++ c :: others = before ++ [c] ++ others := by simp
    rw [shape] at boundary ⊢
    rw [List.cons_append, searchBehind_cons]
    exact List.mem_append_right _ (ih boundary)

end Heads

/-- A closed literal that begins between some characters, cut into its parts. What is behind its
content begins with the closing bracket. -/
structure ClosedAt (before rest blanks content behind : List Char) : Prop where
  spelled : rest = headOf blanks ++ (content ++ behind)
  boundary : isWord before.getLast? = false
  blank : Blank blanks
  balanced : Balanced (encode content)
  closes : ∃ bracket, (encode behind).head? = some bracket ∧ Byte.isClose bracket = true

/-- Whether no closed literal begins between some characters. -/
def NoneAt (before rest : List Char) : Prop :=
  ∀ blanks content behind, ¬ClosedAt before rest blanks content behind

/-- A literal of a text: where its content begins and the content. -/
structure Literal where
  start : Nat
  content : List Char
deriving DecidableEq, Repr

def Literal.span (literal : Literal) : Span :=
  ⟨literal.start, literal.start + (encode literal.content).length⟩

/-- The outermost literals behind some characters, from left to right. -/
inductive Laid : (before rest : List Char) → List Literal → Prop
  | nil (before : List Char) : Laid before [] []
  | pass {before : List Char} {c : Char} {rest : List Char} {literals : List Literal}
      (absent : NoneAt before (c :: rest)) (behind : Laid (before ++ [c]) rest literals) :
      Laid before (c :: rest) literals
  | literal {before rest blanks content behind : List Char} {literals : List Literal}
      (here : ClosedAt before rest blanks content behind)
      (others : Laid (before ++ headOf blanks ++ content) behind literals) :
      Laid before rest (⟨(encode (before ++ headOf blanks)).length, content⟩ :: literals)

section Objects

variable {before rest blanks content behind : List Char}

private theorem closingOf?_head (before blanks : List Char) (tail : Text) :
    closingOf? (encode (before ++ headOf blanks) ++ tail)
        ((encode (before ++ headOf blanks)).length - 1) =
      (closingOffset? 1 tail).map ((encode (before ++ headOf blanks)).length + ·) := by
  obtain ⟨front, shape⟩ : ∃ front, encode (before ++ headOf blanks) = front ++ [Byte.openBrace] :=
    ⟨_, encode_headOf before blanks⟩
  have opens : Byte.isOpen Byte.openBrace = true := by decide
  rw [shape, List.append_assoc, List.length_append, List.length_singleton, Nat.add_sub_cancel,
    Text.closingOf?, List.drop_left]
  simp [opens]

private theorem ClosedAt.exists_bracket (here : ClosedAt before rest blanks content behind) :
    ∃ bracket tail, encode behind = bracket :: tail ∧ Byte.isClose bracket = true := by
  obtain ⟨bracket, first, closes⟩ := here.closes
  obtain ⟨tail, shape⟩ := List.head?_eq_some_iff.mp first
  exact ⟨bracket, tail, shape, closes⟩

/-- What is behind a closed literal begins with a bracket. -/
theorem ClosedAt.exists_closing (here : ClosedAt before rest blanks content behind) :
    ∃ c tail bracket, behind = c :: tail ∧ String.utf8EncodeChar c = [bracket] ∧
      Byte.isClose bracket = true := by
  obtain ⟨bracket, tail, shape, closes⟩ := here.exists_bracket
  rw [← List.nil_append (bracket :: tail)] at shape
  obtain ⟨first, c, tail, rfl, nothing, spelled, -⟩ :=
    encode_eq_append_cons shape (shown_of_isClose closes).1
  obtain rfl := eq_nil_of_encode nothing
  exact ⟨c, tail, bracket, rfl, spelled, closes⟩

/-- A return object closes in one way. -/
theorem ClosedAt.unique {others inner last : List Char}
    (here : ClosedAt before rest blanks content behind)
    (other : ClosedAt before rest others inner last) :
    blanks = others ∧ content = inner ∧ behind = last := by
  obtain ⟨rfl, same⟩ := headOf_inj here.blank other.blank (here.spelled ▸ other.spelled)
  obtain ⟨bracket, tail, shape, closes⟩ := here.exists_bracket
  obtain ⟨otherBracket, otherTail, otherShape, otherCloses⟩ := other.exists_bracket
  have bytes := congrArg encode same
  rw [encode_append, encode_append, shape, otherShape] at bytes
  obtain ⟨contents, -, -⟩ := closing_unique bytes here.balanced closes other.balanced otherCloses
  obtain rfl := encode_injective contents
  exact ⟨rfl, rfl, List.append_cancel_left same⟩

theorem ClosedAt.closingOf? (here : ClosedAt before rest blanks content behind) :
    closingOf? (encode (before ++ rest)) ((encode (before ++ headOf blanks)).length - 1) =
      some ((encode (before ++ headOf blanks)).length + (encode content).length) := by
  obtain ⟨bracket, tail, shape, closes⟩ := here.exists_bracket
  rw [here.spelled, ← List.append_assoc, encode_append, encode_append content, closingOf?_head,
    shape,
    closingOffset?_append here.balanced closes]
  rfl

/-- A bracket that closes what is not open behind a head closes the object of the head. -/
theorem exists_closedAt (blank : Blank blanks) (boundary : isWord before.getLast? = false)
    (stuck : nesting? 0 (encode rest) = none) :
    ∃ content behind, ClosedAt before (headOf blanks ++ rest) blanks content behind := by
  obtain ⟨inner, bracket, tail, split, balanced, closes⟩ := nesting?_eq_none_iff.mp stuck
  obtain ⟨content, c, behind, rfl, rfl, spelled, rfl⟩ :=
    encode_eq_append_cons split (shown_of_isClose closes).1
  exact ⟨content, c :: behind, ⟨rfl, boundary, blank, balanced, bracket, by simp [spelled], closes⟩⟩

/-- A head whose brace is closed begins a closed literal. -/
theorem exists_closedAt_of_closingOf? (blank : Blank blanks)
    (boundary : isWord before.getLast? = false)
    (closed : (Text.closingOf? (encode (before ++ (headOf blanks ++ rest)))
      ((encode (before ++ headOf blanks)).length - 1)).isSome = true) :
    ∃ content behind, ClosedAt before (headOf blanks ++ rest) blanks content behind := by
  obtain ⟨closing, found⟩ := Option.isSome_iff_exists.mp closed
  rw [← List.append_assoc, encode_append, closingOf?_head, Option.map_eq_some_iff] at found
  obtain ⟨offset, found, -⟩ := found
  obtain ⟨inner, bracket, tail, split, -, parts⟩ := exists_of_closingOffset? found
  exact exists_closedAt blank boundary
    (nesting?_eq_none_iff.mpr ⟨inner, bracket, tail, split, parts⟩)

private theorem closedFrom_skip {start : Nat} (masked : Text) (first behind : List Char)
    (skipped : (encode (before ++ first)).length ≤ start) :
    closedFrom masked start (searchBehind head before (first ++ behind)) =
      closedFrom masked start (searchBehind head (before ++ first) behind) := by
  induction first generalizing before with
  | nil => simp
  | cons c first ih =>
    have shape : before ++ c :: first = before ++ [c] ++ first := by simp
    rw [shape] at skipped ⊢
    rw [List.cons_append, searchBehind_cons]
    cases found : matchAt? head (between before (c :: (first ++ behind))) with
    | none => exact ih skipped
    | some hit =>
      have starts : hit.span.start = (encode before).length := by
        rw [← position_between before (c :: (first ++ behind))]
        unfold matchAt? at found
        grind
      have width := Char.utf8Size_pos c
      have inside : hit.span.start < start := by
        simp at skipped starts ⊢
        omega
      rw [Option.toList_some, List.singleton_append, closedFrom, if_pos inside]
      exact ih skipped

private theorem closedFrom_of_noneAt {start : Nat} {c : Char} (absent : NoneAt before (c :: rest))
    (reached : start ≤ (encode before).length) :
    closedFrom (encode (before ++ c :: rest)) start (searchBehind head before (c :: rest)) =
      closedFrom (encode (before ++ c :: rest)) start (searchBehind head (before ++ [c]) rest) := by
  rw [searchBehind_cons]
  cases found : matchAt? head (between before (c :: rest)) with
  | none => rfl
  | some hit =>
    obtain ⟨blanks, behind, split, blank, boundary, rfl⟩ := exists_head found
    rw [split] at absent ⊢
    rw [Option.toList_some, List.singleton_append, closedFrom, if_neg (Nat.not_lt.mpr reached)]
    cases closing : Text.closingOf? (encode (before ++ (headOf blanks ++ behind)))
        ((encode (before ++ headOf blanks)).length - 1) with
    | none => rfl
    | some closing =>
      obtain ⟨content, last, here⟩ := exists_closedAt_of_closingOf? blank boundary
        (Option.isSome_of_mem closing)
      exact absurd here (absent _ _ _)

private theorem closedFrom_of_closedAt {start : Nat}
    (here : ClosedAt before rest blanks content behind)
    (reached : start ≤ (encode before).length) :
    closedFrom (encode (before ++ rest)) start (searchBehind head before rest) =
      Literal.span ⟨(encode (before ++ headOf blanks)).length, content⟩ ::
        closedFrom (encode (before ++ rest)) (encode (before ++ headOf blanks ++ content)).length
          (searchBehind head (before ++ headOf blanks ++ content) behind) := by
  have found := matchAt?_head here.blank here.boundary (content ++ behind)
  have closing := here.closingOf?
  obtain ⟨c, first, shape⟩ : ∃ c first, headOf blanks ++ content = c :: first :=
    ⟨_, _, headOf_append blanks content⟩
  have stop : (encode (before ++ headOf blanks ++ content)).length =
      (encode (before ++ headOf blanks)).length + (encode content).length := by
    rw [encode_append, List.length_append]
  have place : before ++ [c] ++ first = before ++ headOf blanks ++ content := by
    rw [List.append_assoc before (headOf blanks), shape, List.append_assoc, List.singleton_append]
  have passes : (encode (before ++ [c] ++ first)).length ≤
      (encode (before ++ headOf blanks ++ content)).length := by rw [place]
  have skipped := closedFrom_skip (encode (before ++ rest)) first behind passes
  have spelled : rest = c :: (first ++ behind) := by
    rw [here.spelled, ← List.append_assoc, shape, List.cons_append]
  rw [place] at skipped
  rw [← here.spelled, spelled] at found
  rw [spelled] at closing skipped ⊢
  rw [searchBehind_cons, found, Option.toList_some, List.singleton_append, closedFrom,
    if_neg (Nat.not_lt.mpr reached), closing]
  dsimp only
  rw [← stop, skipped, Literal.span, ← stop]

private theorem exists_laid_from (before rest : List Char) {start : Nat}
    (reached : start ≤ (encode before).length) : ∃ literals, Laid before rest literals ∧
      closedFrom (encode (before ++ rest)) start (searchBehind head before rest) =
        literals.map Literal.span := by
  induction length : rest.length using Nat.strongRecOn generalizing before rest start with
  | ind count ih =>
    by_cases absent : NoneAt before rest
    · cases rest with
      | nil => exact ⟨[], .nil before, rfl⟩
      | cons c rest =>
        have shorter : rest.length < count := by
          simp at length
          omega
        have later : start ≤ (encode (before ++ [c])).length := by
          simp
          omega
        obtain ⟨literals, laid, found⟩ := ih rest.length shorter (before ++ [c]) rest later rfl
        rw [List.append_assoc, List.singleton_append] at found
        exact ⟨literals, .pass absent laid, by rw [closedFrom_of_noneAt absent reached, found]⟩
    · simp only [NoneAt, not_forall, not_not] at absent
      obtain ⟨blanks, content, behind, here⟩ := absent
      have shorter : behind.length < count := by
        rw [← length, here.spelled, headOf_append]
        simp
        omega
      obtain ⟨literals, laid, found⟩ := ih _ shorter (before ++ headOf blanks ++ content) behind
        (Nat.le_refl _) rfl
      refine ⟨_, .literal here laid, ?_⟩
      rw [closedFrom_of_closedAt here reached, List.map_cons, ← found]
      simp only [here.spelled, List.append_assoc]

/-- Every text is laid out in objects, and these are the objects that are found. -/
theorem exists_laid (characters : List Char) : ∃ literals, Laid [] characters literals ∧
    objects (encode characters) = literals.map Literal.span :=
  exists_laid_from [] characters (Nat.zero_le _)

end Objects

/-- Literals are laid out in one way. -/
theorem Laid.unique {before rest : List Char} {literals others : List Literal}
    (laid : Laid before rest literals) (other : Laid before rest others) : literals = others := by
  induction laid generalizing others with
  | nil =>
    cases other with
    | nil => rfl
    | literal here => simpa [headOf] using here.spelled
  | pass absent _ ih =>
    cases other with
    | pass _ behind => exact ih behind
    | literal here => exact absurd here (absent _ _ _)
  | literal here _ ih =>
    cases other with
    | nil => simpa [headOf] using here.spelled
    | pass absent => exact absurd here (absent _ _ _)
    | literal there behind =>
      obtain ⟨rfl, rfl, rfl⟩ := here.unique there
      rw [ih behind]

/-- The objects that are found are those of any layout. -/
theorem Laid.objects {characters : List Char} {literals : List Literal}
    (laid : Laid [] characters literals) :
    objects (encode characters) = literals.map Literal.span := by
  obtain ⟨others, other, found⟩ := exists_laid characters
  rw [found, laid.unique other]

section Nesting

private theorem nesting?_headOf {blanks : List Char} (blank : Blank blanks) (depth : Nat) :
    nesting? depth (encode (headOf blanks)) = some (depth + 1) := by
  have plain : ∀ b ∈ encode (keyword ++ blanks),
      Byte.isOpen b = false ∧ Byte.isClose b = false := by
    intro b member
    rw [encode_append, List.mem_append] at member
    rcases member with word | gap
    · have letters : (encode keyword).all (fun b => !Byte.isOpen b && !Byte.isClose b) = true := by
        decide
      simpa using List.all_eq_true.mp letters b word
    · exact blank.no_brackets b gap
  have brace : nesting? depth (encode ['{']) = some (depth + 1) := by
    have bytes : encode ['{'] = [Byte.openBrace] := rfl
    have step : nest? depth Byte.openBrace = some (depth + 1) := by
      simp +decide [nest?, depthStep]
    rw [bytes, nesting?_cons, step]
    rfl
  rw [headOf, encode_append, nesting?_append, nesting?_plain depth plain, Option.bind_some, brace]

private theorem ClosedAt.ends_inside {before front inside behind blanks content last : List Char}
    (balanced : Balanced (encode (front ++ inside)))
    (closes : ∃ bracket, (encode behind).head? = some bracket ∧ Byte.isClose bracket = true)
    (here : ClosedAt before (inside ++ behind) blanks content last) :
    ∃ more, inside = headOf blanks ++ content ++ more := by
  have spelled := here.spelled
  rw [← List.append_assoc] at spelled
  rcases List.append_eq_append_iff.mp spelled with ⟨more, shape, split⟩ | ⟨more, shape, -⟩
  · obtain ⟨bracket, first, closes⟩ := closes
    cases more with
    | nil => exact ⟨[], by simpa using shape.symm⟩
    | cons c more =>
      obtain ⟨reached, reads, ends⟩ := Option.bind_eq_some_iff.mp
        ((nesting?_append 0 _ _).symm.trans ((encode_append front inside) ▸ balanced))
      have whole : nesting? 0 (encode (headOf blanks ++ content)) = some 1 := by
        have inner := nesting?_add here.balanced 1
        rw [encode_append, nesting?_append, nesting?_headOf here.blank, Option.bind_some]
        simpa using inner
      rw [shape, encode_append] at whole
      obtain ⟨depth, inner, outer⟩ := Option.bind_eq_some_iff.mp
        ((nesting?_append 0 _ _).symm.trans whole)
      have deeper := nesting?_add inner reached
      rw [Nat.zero_add, ends] at deeper
      obtain rfl : depth = 0 := by
        have := Option.some.inj deeper
        omega
      have begins : (encode (c :: more)).head? = some bracket := by
        rw [split] at first
        obtain ⟨lead, tail, spelled, -⟩ := encodeChar_eq_cons c
        simpa [spelled] using first
      obtain ⟨tail, bytes⟩ := List.head?_eq_some_iff.mp begins
      rw [bytes, nesting?_cons] at outer
      simp [nest?, closes] at outer
  · exact ⟨more, shape⟩

end Nesting

section Outermost

variable {before rest : List Char} {literals : List Literal}

/-- Literals that are laid out are closed. -/
theorem Laid.closed (laid : Laid before rest literals) {literal : Literal}
    (member : literal ∈ literals) : ∃ front last blanks behind, rest = front ++ last ∧
      ClosedAt (before ++ front) last blanks literal.content behind ∧
      literal.start = (encode (before ++ front ++ headOf blanks)).length := by
  induction laid with
  | nil => simp at member
  | pass absent _ ih =>
    obtain ⟨front, last, blanks, behind, rfl, here, starts⟩ := ih member
    exact ⟨_ :: front, last, blanks, behind, rfl, by simpa using here, by simpa using starts⟩
  | @literal before rest blanks content behind literals here _ ih =>
    rcases List.mem_cons.mp member with rfl | later
    · exact ⟨[], rest, blanks, behind, rfl, by simpa using here, by simp⟩
    · obtain ⟨front, last, others, behind, rfl, there, starts⟩ := ih later
      exact ⟨headOf blanks ++ content ++ front, last, others, behind, by simp [here.spelled],
        by simpa using there, by simpa using starts⟩

/-- The content of an object is balanced. -/
theorem Laid.balanced (laid : Laid before rest literals) {literal : Literal}
    (member : literal ∈ literals) : Balanced (encode literal.content) := by
  obtain ⟨_, _, _, _, -, here, -⟩ := laid.closed member
  exact here.balanced

/-- The span of a literal cuts its content out. -/
theorem Laid.slice {characters : List Char} (laid : Laid [] characters literals)
    {literal : Literal} (member : literal ∈ literals) :
    Text.slice (encode characters) literal.span = encode literal.content := by
  obtain ⟨front, last, blanks, behind, rfl, here, starts⟩ := laid.closed member
  have shape : encode (front ++ last) =
      encode (front ++ headOf blanks) ++ encode literal.content ++ encode behind := by
    rw [here.spelled]
    simp only [encode_append, List.append_assoc]
  rw [shape]
  exact slice_append _ starts.symm rfl

/-- A literal is longer than its content by a word and a brace at least. -/
theorem Laid.shorter (laid : Laid before rest literals) {literal : Literal}
    (member : literal ∈ literals) : (encode literal.content).length + 2 ≤ (encode rest).length := by
  obtain ⟨front, last, blanks, behind, rfl, here, -⟩ := laid.closed member
  have someWord : 2 ≤ (encode (headOf blanks)).length := by
    have word : (encode keyword).length = 6 := rfl
    rw [headOf, encode_append, encode_append, List.length_append, List.length_append, word]
    omega
  rw [here.spelled, encode_append, encode_append, encode_append]
  simp only [List.length_append]
  omega

/-- Literals are laid out from left to right, apart from each other. -/
theorem Laid.rising (laid : Laid before rest literals) :
    (∀ literal ∈ literals, (encode before).length < literal.start) ∧
      literals.Pairwise fun first second => first.span.stop < second.start := by
  induction laid with
  | nil => simp
  | pass absent _ ih =>
    refine ⟨fun literal member => ?_, ih.2⟩
    have := ih.1 literal member
    simp at this
    omega
  | @literal before rest blanks content behind literals here _ ih =>
    have someHead : 0 < (encode (headOf blanks)).length := by
      obtain ⟨c, tail, shape⟩ : ∃ c tail, headOf blanks = c :: tail := ⟨_, _, rfl⟩
      rw [shape, encode_cons, List.length_append, String.length_utf8EncodeChar]
      have := Char.utf8Size_pos c
      omega
    refine ⟨List.forall_mem_cons.mpr ⟨?_, fun literal member => ?_⟩,
      List.pairwise_cons.mpr ⟨fun literal member => ?_, ih.2⟩⟩
    · simp
      omega
    · have := ih.1 literal member
      simp at this
      omega
    · have := ih.1 literal member
      simp [Literal.span] at this ⊢
      omega

private theorem ClosedAt.begins_inside {before rest others inner tail front last blanks content
    behind more : List Char} (here : ClosedAt before rest others inner tail)
    (there : ClosedAt (before ++ front) last blanks content behind) (someFront : front ≠ [])
    (split : headOf others ++ inner = front ++ more) (lastEq : last = more ++ tail) :
    ∃ passed, front = headOf others ++ passed ∧ inner = passed ++ more := by
  rcases List.append_eq_append_iff.mp split with ⟨passed, frontEq, innerEq⟩ |
      ⟨headRest, headEq, moreEq⟩
  · exact ⟨passed, frontEq, innerEq⟩
  · cases headRest with
    | nil => exact ⟨[], by simpa using headEq.symm, by simpa using moreEq.symm⟩
    | cons d headRest =>
      obtain ⟨e, u, rfl⟩ := List.exists_cons_of_ne_nil someFront
      have spelled := there.spelled
      rw [lastEq, moreEq, headOf_append] at spelled
      obtain ⟨rfl, -⟩ := List.cons.inj spelled
      have whole := headOf_append others []
      rw [List.append_nil, headEq] at whole
      obtain ⟨rfl, tailEq⟩ := List.cons.inj whole
      rcases headOf_quiet before here.blank tailEq.symm with other | word
      · exact absurd rfl other
      · rw [there.boundary] at word
        contradiction

private theorem Laid.covers (laid : Laid before rest literals) {front last blanks content behind :
    List Char} (split : rest = front ++ last)
    (there : ClosedAt (before ++ front) last blanks content behind) :
    ∃ literal ∈ literals, literal.start ≤ (encode (before ++ front ++ headOf blanks)).length ∧
      (encode (before ++ front ++ headOf blanks ++ content)).length ≤ literal.span.stop := by
  induction laid generalizing front with
  | nil =>
    obtain ⟨rfl, rfl⟩ := List.append_eq_nil_iff.mp split.symm
    simpa [headOf] using there.spelled
  | @pass before c rest literals absent _ ih =>
    cases front with
    | nil =>
      obtain rfl := split
      rw [List.append_nil] at there
      exact absurd there (absent _ _ _)
    | cons d front =>
      obtain ⟨rfl, rfl⟩ := List.cons.inj split
      have moved : ClosedAt (before ++ [c] ++ front) last blanks content behind := by
        simpa using there
      simpa using ih rfl moved
  | @literal before rest others inner tail literals here _ ih =>
    have parts := here.spelled.symm.trans split
    rw [← List.append_assoc] at parts
    rcases List.append_eq_append_iff.mp parts with ⟨more, rfl, tailEq⟩ | ⟨more, innerEq, rfl⟩
    · obtain ⟨literal, member, inside⟩ := ih tailEq (by simpa using there)
      exact ⟨literal, List.mem_cons_of_mem _ member, by simpa using inside⟩
    · refine ⟨_, List.mem_cons_self, ?_⟩
      by_cases nothing : front = []
      · subst nothing
        rw [List.append_nil] at there
        rw [List.nil_append] at split innerEq
        rw [← split] at there
        obtain ⟨rfl, rfl, -⟩ := here.unique there
        simp [Literal.span, Nat.add_assoc]
      · obtain ⟨passed, rfl, rfl⟩ := here.begins_inside there nothing innerEq rfl
        obtain ⟨beyond, rfl⟩ := there.ends_inside here.balanced here.closes
        simp [Literal.span]
        omega

private theorem closedLiteral_encode {characters : List Char} {inside : Span} :
    ClosedLiteral (encode characters) inside ↔ ∃ before rest blanks content behind,
      characters = before ++ rest ∧ ClosedAt before rest blanks content behind ∧
        inside = Literal.span ⟨(encode (before ++ headOf blanks)).length, content⟩ := by
  constructor
  · rintro ⟨before, blanks, bytes, bracket, tail, split, boundary, blank, balanced, closes, rfl⟩
    rw [List.append_assoc] at split
    obtain ⟨rest, rfl, behindEq⟩ := encode_eq_encode_append split
    obtain ⟨content, c, behind, rfl, rfl, spelled, -⟩ :=
      encode_eq_append_cons behindEq (shown_of_isClose closes).1
    exact ⟨before, _, blanks, content, c :: behind, List.append_assoc .., ⟨rfl, boundary, blank,
      balanced, bracket, by simp [spelled], closes⟩, rfl⟩
  · rintro ⟨before, rest, blanks, content, behind, rfl, here, rfl⟩
    obtain ⟨bracket, tail, shape, closes⟩ := here.exists_bracket
    refine ⟨before, blanks, encode content, bracket, tail, ?_, here.boundary, here.blank,
      here.balanced, closes, rfl⟩
    rw [here.spelled, ← shape]
    simp only [encode_append, List.append_assoc]

/-- The filter looks at the outermost closed literals, from left to right. -/
theorem mem_objects_iff {characters : List Char} {inside : Span} :
    inside ∈ objects (encode characters) ↔ Outermost (encode characters) inside := by
  obtain ⟨literals, laid, found⟩ := exists_laid characters
  have closed {literal : Literal} (member : literal ∈ literals) :
      ClosedLiteral (encode characters) literal.span := by
    obtain ⟨front, last, blanks, behind, rfl, here, starts⟩ := laid.closed member
    refine closedLiteral_encode.mpr ⟨front, last, blanks, literal.content, behind, rfl,
      by simpa using here, ?_⟩
    simp [Literal.span, starts]
  have covers {span : Span} (literal : ClosedLiteral (encode characters) span) :
      ∃ other ∈ literals, other.start ≤ span.start ∧ span.stop ≤ other.span.stop := by
    obtain ⟨before, rest, blanks, content, behind, rfl, here, rfl⟩ :=
      closedLiteral_encode.mp literal
    obtain ⟨other, member, starts, stops⟩ := laid.covers rfl here
    exact ⟨other, member, by simpa [Literal.span] using starts,
      by simpa [Literal.span, Nat.add_assoc] using stops⟩
  rw [found, List.mem_map]
  constructor
  · rintro ⟨literal, member, rfl⟩
    refine ⟨closed member, fun other otherClosed starts stops => ?_⟩
    obtain ⟨around, aroundMember, aroundStarts, aroundStops⟩ := covers otherClosed
    have same : around = literal := by
      by_contra different
      let Apart (first second : Literal) : Prop :=
        first.span.stop < second.start ∨ second.span.stop < first.start
      have symmetric : Std.Symm Apart := ⟨fun _ _ => Or.symm⟩
      have apart : Apart around literal :=
        (laid.rising.2.imp (S := Apart) .inl).forall aroundMember member different
      simp only [Apart, Literal.span] at apart aroundStarts aroundStops starts stops
      omega
    subst same
    have startsEq : other.start = around.span.start := Nat.le_antisymm starts aroundStarts
    have stopsEq : other.stop = around.span.stop := Nat.le_antisymm aroundStops stops
    calc other = ⟨other.start, other.stop⟩ := rfl
      _ = around.span := by rw [startsEq, stopsEq]
  · rintro ⟨literal, alone⟩
    obtain ⟨other, member, starts, stops⟩ := covers literal
    exact ⟨other, member, alone _ (closed member) starts stops⟩

/-- Objects are found in the order of the text. -/
theorem objects_rising (characters : List Char) :
    (objects (encode characters)).Pairwise fun first second => first.start < second.start := by
  obtain ⟨literals, laid, found⟩ := exists_laid characters
  rw [found, List.pairwise_map]
  refine laid.rising.2.imp fun {first second} apart => ?_
  simp only [Literal.span] at apart ⊢
  omega

/-- The outermost closed literals have one order only. -/
theorem eq_objects {characters : List Char} {spans : List Span}
    (rising : spans.Pairwise fun first second => first.start < second.start)
    (outermost : ∀ span, span ∈ spans ↔ Outermost (encode characters) span) :
    spans = objects (encode characters) := by
  let Before (first second : Span) : Prop := first.start < second.start
  have irreflexive : Std.Irrefl Before := ⟨fun span => Nat.lt_irrefl span.start⟩
  have asymmetric : Std.Asymm Before := ⟨fun _ _ => Nat.lt_asymm⟩
  refine List.Pairwise.eq_of_mem_iff (r := Before) rising (objects_rising characters) fun span => ?_
  rw [outermost, mem_objects_iff]

end Outermost

end BareComponent.ReturnFilter
