import BareComponent.Proofs.FunctionBody.Shared
import BareComponent.Proofs.LocalNames.Strings
import BareComponent.Proofs.Require.Bound
import BareComponent.Proofs.Text.Pieces

/-! # Words in a source without its style blocks

A style block begins and ends with brackets of its tags, so hiding it takes no word apart, and the
mask takes none apart either. So a name that is collected stands in the source, and its word ends
with it. In front of it, the patterns know letters of ASCII alone: what they cut off is outside
ASCII, or a digit in front of the name of a site.
-/

namespace BareComponent

namespace Text

/-- Whether one of some spans takes a place. -/
def Covers (spans : List Span) (place : Nat) : Prop :=
  ∃ span ∈ spans, span.start ≤ place ∧ place < span.stop

instance (spans : List Span) (place : Nat) : Decidable (Covers spans place) :=
  inferInstanceAs (Decidable (∃ span ∈ spans, _))

theorem covers_cons {span : Span} {spans : List Span} {place : Nat} :
    Covers (span :: spans) place ↔ (span.start ≤ place ∧ place < span.stop) ∨ Covers spans place := by
  simp [Covers]

private theorem getElem?_slice_add (text : Text) (span : Span) (i : Nat) :
    (text.slice span)[i]? = if span.start + i < span.stop then text[span.start + i]? else none := by
  rw [slice, List.getElem?_drop, List.getElem?_take]

private theorem length_slice {text : Text} {span : Span} (inside : span.stop ≤ text.length) :
    (text.slice span).length = span.stop - span.start := by
  rw [slice, List.length_drop, List.length_take_of_le inside]

/-- Where spans of a text are blanked, each byte that none of them takes stays. -/
theorem getElem?_replaceFrom_blanked {text : Text} {start : Nat} {spans : List Span}
    (rising : spans.Pairwise (·.stop ≤ ·.start))
    (inside : ∀ span ∈ spans, start ≤ span.start ∧ span.start ≤ span.stop ∧
      span.stop ≤ text.length) (i : Nat) :
    (text.replaceFrom start (spans.map fun span => (span, (text.slice span).blanked)))[i]? =
      text[start + i]?.map fun b => if Covers spans (start + i) then Byte.blanked b else b := by
  induction spans generalizing start i with
  | nil => simp [replaceFrom, Covers]
  | cons span spans ih =>
    obtain ⟨later, others⟩ := List.pairwise_cons.mp rising
    obtain ⟨⟨begins, ordered, stops⟩, rest⟩ := List.forall_mem_cons.mp inside
    have copied : (text.slice ⟨start, span.start⟩).length = span.start - start :=
      length_slice (ordered.trans stops)
    have hidden : (blanked (text.slice span)).length = span.stop - span.start :=
      (List.length_map _).trans (length_slice stops)
    have nowhere {place : Nat} (early : place < span.stop) : ¬Covers spans place := by
      rintro ⟨other, member, reached, -⟩
      have := later other member
      omega
    rw [List.map_cons, replaceFrom, List.append_assoc, List.getElem?_append, copied]
    split
    case isTrue first =>
      have uncovered : ¬Covers (span :: spans) (start + i) := by
        rw [covers_cons]
        rintro (⟨reached, -⟩ | later)
        · omega
        · exact nowhere (by omega) later
      have here : start + i < span.start := by omega
      simp [getElem?_slice_add, here, uncovered]
    case isFalse first =>
      rw [List.getElem?_append, hidden]
      split
      case isTrue second =>
        have here : Covers (span :: spans) (start + i) := covers_cons.mpr (.inl (by omega))
        have place : span.start + (i - (span.start - start)) = start + i := by omega
        rw [blanked, List.getElem?_map, getElem?_slice_add, if_pos (by omega), place]
        simp [here]
      case isFalse second =>
        have place : span.stop + (i - (span.start - start) - (span.stop - span.start)) =
            start + i := by omega
        rw [ih others fun other member => ⟨later other member, (rest other member).2⟩, place]
        have same : Covers (span :: spans) (start + i) ↔ Covers spans (start + i) := by
          rw [covers_cons]
          exact or_iff_right (by omega)
        simp only [same]

end Text

namespace LocalNames

open Text Pattern Checked

variable {characters : List Char}

private theorem edges_of_mem_search {found : Match Unit}
    (member : found ∈ styleBlock.search (encode characters)) :
    (encode characters)[found.span.start]? = some Byte.less ∧
      ∃ place, found.span.stop = place + 1 ∧ (encode characters)[place]? = some Byte.greater := by
  obtain ⟨before, _, rest, rfl, -, ⟨attributes, content, rfl, -⟩, span⟩ :=
    detached_styleBlock.reads_stretch.exists_of_mem_search member
  have begins : encode "<style".toList = Byte.less :: encode "style".toList := rfl
  have ends : encode closingTag = encode "</style".toList ++ [Byte.greater] := rfl
  rw [span]
  refine ⟨?_, (encode before ++ encode ("<style".toList ++ attributes ++ ['>'] ++ content) ++
    encode "</style".toList).length, ?_, ?_⟩
  · simp only [encode_append, begins, List.append_assoc, List.cons_append]
    simp
  · simp only [encode_append, ends, List.length_append, List.length_singleton]
    omega
  · have shape : encode (before ++ ("<style".toList ++ attributes ++ ['>'] ++ content ++
        closingTag) ++ rest) = encode before ++ encode ("<style".toList ++ attributes ++ ['>'] ++
          content) ++ encode "</style".toList ++ Byte.greater :: encode rest := by
      simp only [encode_append, ends, List.append_assoc, List.singleton_append]
    rw [shape, List.getElem?_append_right le_rfl, Nat.sub_self]
    rfl

def styleSpans (source : Text) : List Span := (styleBlock.search source).map (·.span)

/-- The bytes of the style blocks are blanked, and all others stay. -/
theorem getElem?_hideStyles (characters : List Char) (i : Nat) :
    (hideStyles (encode characters))[i]? = (encode characters)[i]?.map fun b =>
      if Covers (styleSpans (encode characters)) i then Byte.blanked b else b := by
  have rising : (styleSpans (encode characters)).Pairwise (·.stop ≤ ·.start) :=
    List.pairwise_map.mpr steps_styleBlock.pairwise_search
  have inside : ∀ span ∈ styleSpans (encode characters),
      0 ≤ span.start ∧ span.start ≤ span.stop ∧ span.stop ≤ (encode characters).length := by
    intro span member
    obtain ⟨found, listed, rfl⟩ := List.mem_map.mp member
    obtain ⟨forward, stops⟩ := detached_styleBlock.span_of_mem_search listed
    exact ⟨Nat.zero_le _, forward.le, stops⟩
  have whole := getElem?_replaceFrom_blanked rising inside i
  rw [styleSpans, List.map_map, Nat.zero_add] at whole
  exact whole

/-- Style blocks are hidden byte by byte. -/
theorem length_hideStyles (characters : List Char) :
    (hideStyles (encode characters)).length = (encode characters).length := by
  have same : hideStyles (encode characters) = (encode characters).mapIdx fun i b =>
      if Covers (styleSpans (encode characters)) i then Byte.blanked b else b :=
    List.ext_getElem? fun i => by rw [getElem?_hideStyles, List.getElem?_mapIdx]
  rw [same, List.length_mapIdx]

private theorem covers_succ_iff {i : Nat} {b c : UInt8} (here : (encode characters)[i]? = some b)
    (inside : Byte.inName b = true) (next : (encode characters)[i + 1]? = some c)
    (nextInside : Byte.inName c = true) :
    Covers (styleSpans (encode characters)) (i + 1) ↔
      Covers (styleSpans (encode characters)) i := by
  constructor
  · rintro ⟨_, member, begins, ends⟩
    refine ⟨_, member, ?_, by omega⟩
    obtain ⟨found, listed, rfl⟩ := List.mem_map.mp member
    obtain ⟨first, -⟩ := edges_of_mem_search listed
    have other : i + 1 ≠ found.span.start := by
      intro same
      rw [← same, next] at first
      exact Byte.ne_of_inName nextInside (by decide) (Option.some.inj first)
    omega
  · rintro ⟨_, member, begins, ends⟩
    refine ⟨_, member, by omega, ?_⟩
    obtain ⟨found, listed, rfl⟩ := List.mem_map.mp member
    obtain ⟨-, place, stop, last⟩ := edges_of_mem_search listed
    have other : i ≠ place := by
      rintro rfl
      exact Byte.ne_of_inName inside (by decide) (Option.some.inj (here.symm.trans last))
    omega

private theorem not_covers_of_inName {i : Nat} {b : UInt8}
    (here : (hideStyles (encode characters))[i]? = some b) (inside : Byte.inName b = true) :
    (encode characters)[i]? = some b ∧ ¬Covers (styleSpans (encode characters)) i := by
  rw [getElem?_hideStyles] at here
  obtain ⟨c, there, shown⟩ := Option.map_eq_some_iff.mp here
  split at shown
  · have dark : Byte.inName (Byte.blanked c) = false := by
      unfold Byte.blanked
      split <;> decide
    exact absurd shown.symm (Byte.ne_of_inName inside dark)
  · next free => exact ⟨shown ▸ there, free⟩

/-- Hiding the style blocks of a source keeps its words whole. -/
theorem keepsWords_hideStyles (characters : List Char) :
    KeepsWords (encode characters) (hideStyles (encode characters)) where
  length := length_hideStyles characters
  spelled _ _ here inside := (not_covers_of_inName here inside).1
  inFront i b c here here_inside next nextInside := by
    obtain ⟨there, free⟩ := not_covers_of_inName next nextInside
    rw [covers_succ_iff here here_inside there nextInside] at free
    rw [getElem?_hideStyles, here, Option.map_some, if_neg free]
  behind i b c here here_inside next nextInside := by
    obtain ⟨there, free⟩ := not_covers_of_inName here here_inside
    rw [← covers_succ_iff there here_inside next nextInside] at free
    rw [getElem?_hideStyles, next, Option.map_some, if_neg free]

section Names

variable {first second front body behind : List Char} {name : Text}

/-- Whether some characters end with no character of a word. -/
def EndsApart (characters : List Char) : Prop :=
  ∀ c ∈ characters.getLast?, CharacterClass.wordOrDollar c.toNat = false

/-- Whether some characters begin with no character of a word. -/
def BeginsApart (characters : List Char) : Prop :=
  ∀ c ∈ characters.head?, CharacterClass.wordOrDollar c.toNat = false

theorem forall_getLast?_append {property : Char → Prop} (holds : ∀ c ∈ first.getLast?, property c)
    (others : ∀ c ∈ second.getLast?, property c) : ∀ c ∈ (first ++ second).getLast?, property c := by
  rcases List.eq_nil_or_concat' second with rfl | ⟨second, d, rfl⟩
  · rwa [List.append_nil]
  · rw [← List.append_assoc]
    simpa using others

theorem BeginsApart.append (apart : BeginsApart first) (others : BeginsApart second) :
    BeginsApart (first ++ second) := by
  cases first with
  | nil => exact others
  | cons c first => simpa [BeginsApart] using apart

theorem endsApart_of_blank {gap : List Char} (blank : Blank gap) : EndsApart gap := fun c last =>
  CharacterClass.wordOrDollar_of_blank (blank c (List.mem_of_getLast? last))

theorem beginsApart_of_blank {gap : List Char} (blank : Blank gap) : BeginsApart gap :=
  fun c first => CharacterClass.wordOrDollar_of_blank (blank c (List.mem_of_mem_head? first))

/-- Whether some characters end with a character of a word only if that is outside ASCII. -/
def EndsBeyond (characters : List Char) : Prop :=
  ∀ c ∈ characters.getLast?, CharacterClass.wordOrDollar c.toNat = true → 0x80 ≤ c.toNat

theorem EndsApart.endsBeyond (apart : EndsApart first) : EndsBeyond first := by
  intro c last inside
  rw [apart c last] at inside
  contradiction

/-- Whether a name stands in some characters, with no character of a word in front of it but one
outside ASCII. -/
def Stands (characters : List Char) (name : Text) : Prop :=
  ∃ word, name = encode word ∧ ∃ here : Occurrence characters word, EndsBeyond here.above

private theorem stands_around {above word rest : List Char} (named : RequireLine.IsName word)
    (nameless : FunctionBody.Nameless above) (beyond : EndsBeyond above)
    (ends : BeginsApart rest) (apart : EndsApart front) :
    Stands (front ++ (above ++ word ++ rest)) (encode word) :=
  ⟨word, rfl, ⟨front ++ above, rest, by simp, named,
    (FunctionBody.nameless_of_getLast? apart).append nameless, ends⟩,
    forall_getLast?_append apart.endsBeyond beyond⟩

private theorem beginsApart_equals {gap : List Char} (blank : Blank gap) (rest : List Char) :
    BeginsApart (gap ++ '=' :: rest) :=
  (beginsApart_of_blank blank).append fun c first => by
    obtain rfl : '=' = c := Option.some.inj first
    decide

private theorem slice_word (above word rest : List Char) :
    (encode (above ++ word ++ rest)).slice
      ⟨(encode above).length, (encode (above ++ word)).length⟩ = encode word := by
  rw [encode_append, encode_append]
  exact slice_append _ rfl (by simp)

private theorem exists_of_mem_declaration {found : Match Span}
    (member : found ∈ declaration.search (encode body)) :
    ∃ above word gap rest, body = above ++ word ++ (gap ++ '=' :: rest) ∧
      RequireLine.IsName word ∧ Blank gap ∧ EndsApart above ∧
      (encode body).slice found.value = encode word := by
  obtain ⟨before, after, rfl, here⟩ := exists_of_mem_search member
  obtain ⟨_, member, -⟩ := exists_of_matchAt? here
  obtain ⟨_, _, edge, member⟩ := mem_bind.mp member
  obtain ⟨-, rfl⟩ := mem_wordBoundary.mp edge
  obtain ⟨_, _, declares, member⟩ := mem_bind.mp member
  obtain ⟨-, keyword, after, rfl, rfl⟩ :=
    Steps.oneOf (by simp [isString_ofString]) before after rfl _ _ declares
  obtain ⟨_, _, spaces, member⟩ := mem_bind.mp member
  obtain ⟨space, after, rfl, nonempty, spaceBlank, -, rfl⟩ := mem_run1.mp spaces
  obtain ⟨_, _, nameRead, member⟩ := mem_bind.mp member
  obtain ⟨read, value⟩ := mem_spanned.mp nameRead
  obtain ⟨word, after, rfl, named, -, rfl⟩ := RequireSite.mem_name.mp read
  obtain ⟨_, _, blanksRead, member⟩ := mem_bind.mp member
  obtain ⟨gap, after, rfl, blank, -, rfl⟩ := mem_run.mp blanksRead
  obtain ⟨_, _, equals, member⟩ := mem_bind.mp member
  obtain ⟨rest, rfl, rfl⟩ := exists_of_mem_literal (c := '=') rfl equals
  obtain ⟨same, -⟩ := mem_pure.mp member
  refine ⟨before ++ keyword ++ space, word, gap, rest, by simp, named, blank, ?_, ?_⟩
  · obtain ⟨space, d, rfl⟩ := (List.eq_nil_or_concat' space).resolve_left nonempty
    rw [← List.append_assoc, EndsApart]
    simpa using CharacterClass.wordOrDollar_of_blank (spaceBlank d (by simp))
  · have whole : before ++ (keyword ++ (space ++ (word ++ (gap ++ '=' :: rest)))) =
        before ++ keyword ++ space ++ word ++ (gap ++ '=' :: rest) := by simp
    rw [same, value, Cursor.position_between, Cursor.position_between, whole]
    exact slice_word _ _ _

/-- What is assigned in a body stands there. -/
theorem stands_of_mem_assigned (member : name ∈ assigned (encode body)) (apart : EndsApart front)
    (behind : List Char) : Stands (front ++ body ++ behind) name := by
  have around {above word gap rest : List Char} (named : RequireLine.IsName word)
      (blank : Blank gap) (nameless : FunctionBody.Nameless above)
      (beyond : EndsBeyond above) :
      Stands (front ++ (above ++ word ++ (gap ++ '=' :: rest)) ++ behind) (encode word) := by
    have stands := stands_around named nameless beyond (beginsApart_equals blank (rest ++ behind))
      apart
    simpa using stands
  rcases List.mem_append.mp member with declared | isAssigned
  · obtain ⟨found, inside, rfl⟩ := List.mem_map.mp declared
    obtain ⟨above, word, gap, rest, rfl, named, blank, aboveApart, slice⟩ :=
      exists_of_mem_declaration inside
    rw [slice]
    exact around named blank (FunctionBody.nameless_of_getLast? aboveApart) aboveApart.endsBeyond
  · obtain ⟨found, kept, rfl⟩ := List.mem_map.mp isAssigned
    obtain ⟨inside, assigns⟩ := List.mem_filter.mp kept
    have same : assignment = FunctionBody.nameUpTo '=' := rfl
    rw [same, FunctionBody.mem_search_nameUpTo_iff (by decide) (by decide)] at inside
    obtain ⟨above, word, gap, rest, rfl, named, blank, nameless, rfl⟩ := inside
    have whole :
        above ++ (word ++ gap ++ ['='] ++ rest) = above ++ word ++ (gap ++ '=' :: rest) := by
      simp
    have beyond : EndsBeyond above := by
      intro c last inside
      refine (nameless.digit_or_not_ascii last inside).resolve_left fun digit => ?_
      have continues := (FunctionBody.continues_iff_endsInDigit nameless).mpr ⟨c, last, digit⟩
      obtain ⟨b, byte, continues⟩ := (Option.any_eq_true ..).mp continues
      simp [isAssignment, encode_append, byte, continues] at assigns
    rw [whole, slice_word]
    exact around named blank nameless beyond

private theorem exists_propertyOf (entry : List Char) : ∃ above word below,
    entry = above ++ word ++ below ∧ EndsApart above ∧ BeginsApart below ∧
      propertyOf (encode entry) = encode word := by
  have mark {c : Char} (dark : CharacterClass.wordOrDollar c.toNat = false) {rest : List Char}
      (begins : ∀ d ∈ rest.head?, d = c) : BeginsApart rest := fun d first => begins d first ▸ dark
  obtain ⟨key, value, rfl, colon, keyEq⟩ :=
    exists_takeWhile_encode (c := ':') (b := Byte.colon) rfl (by decide) entry
  obtain ⟨key, default, rfl, equals, plainEq⟩ :=
    exists_takeWhile_encode (c := '=') (b := Byte.equals) rfl (by decide) key
  obtain ⟨space, key, gap, rfl, spaceBlank, gapBlank, trimmed⟩ := exists_trim_encode key
  obtain ⟨count, key, rfl, restEq⟩ := exists_dropCopies_encode "...".toList key
  obtain ⟨inner, word, last, rfl, innerBlank, lastBlank, wordEq⟩ := exists_trim_encode key
  have dots : EndsApart (List.replicate count "...".toList).flatten := by
    intro c dot
    obtain ⟨piece, inside, member⟩ := List.mem_flatten.mp (List.mem_of_getLast? dot)
    rw [List.eq_of_mem_replicate inside] at member
    obtain rfl : c = '.' := by simpa using member
    decide
  refine ⟨space ++ ((List.replicate count "...".toList).flatten ++ inner), word,
    last ++ (gap ++ (default ++ value)), by simp, ?_, ?_, ?_⟩
  · exact forall_getLast?_append (endsApart_of_blank spaceBlank)
      (forall_getLast?_append dots (endsApart_of_blank innerBlank))
  · exact (beginsApart_of_blank lastBlank).append ((beginsApart_of_blank gapBlank).append
      ((mark (by decide) equals).append (mark (by decide) colon)))
  · have dropped : (encode ((List.replicate count "...".toList).flatten ++
        (inner ++ word ++ last))).dropCopies "..." = encode (inner ++ word ++ last) := restEq
    rw [propertyOf, keyEq, plainEq, trimmed, dropped, wordEq]

/-- What a function takes out of its parameter stands in front of the function. -/
theorem stands_of_mem_destructured {before rest : List Char}
    (member : name ∈ destructured (encode (before ++ rest)) (encode before).length) :
    Stands (before ++ rest) name := by
  obtain ⟨far, window, rfl, -, windowEq⟩ := exists_window_before before rest
  rw [destructured, windowEq] at member
  cases found : parameterPattern.find? (encode window) with
  | none => simp [found] at member
  | some hit =>
    obtain ⟨front, after, rfl, reads⟩ := exists_of_mem_search (List.mem_of_mem_head? found)
    obtain ⟨_, matched, -⟩ := exists_of_matchAt? reads
    obtain ⟨blanks, inside, tail, rfl, -, -, value⟩ := shape_of_mem_parameterPattern matched
    simp only [found, List.mem_filter, List.mem_map] at member
    obtain ⟨⟨_, piece, rfl⟩, isIdentifier⟩ := member
    have slice : (encode (front ++ '(' :: (blanks ++ '{' :: (inside ++ '}' :: tail)))).slice
        hit.value = encode inside := by
      have whole : front ++ '(' :: (blanks ++ '{' :: (inside ++ '}' :: tail)) =
          front ++ '(' :: blanks ++ ['{'] ++ inside ++ '}' :: tail := by simp
      have stop : front ++ '(' :: blanks ++ '{' :: inside =
          front ++ '(' :: blanks ++ ['{'] ++ inside := by simp
      rw [value, whole, stop]
      exact slice_word _ _ _
    rw [slice, splitOn_encode (c := ',') (b := Byte.comma) rfl (by decide)] at piece
    obtain ⟨entry, listed, rfl⟩ := List.mem_map.mp piece
    obtain ⟨above, below, rfl, aboveEnds, belowBegins, -⟩ := exists_of_mem_splitOn listed
    obtain ⟨space, word, gap, rfl, spaceApart, gapApart, property⟩ := exists_propertyOf entry
    rw [property] at isIdentifier ⊢
    have brace : EndsApart (far ++ front ++ '(' :: blanks ++ ['{']) := by
      intro c last
      rw [List.getLast?_concat] at last
      obtain rfl := Option.some.inj last
      decide
    have inFront : EndsApart (above ++ space) := forall_getLast?_append
      (fun c last => by rw [aboveEnds c last]; decide) spaceApart
    have behind : BeginsApart (gap ++ (below ++ ('}' :: tail ++ rest))) := gapApart.append
      (BeginsApart.append (fun c first => by rw [belowBegins c first]; decide)
        (by simp [BeginsApart]; decide))
    have stands := stands_around (ComponentScript.isName_of_isIdentifier isIdentifier)
      (FunctionBody.nameless_of_getLast? inFront) inFront.endsBeyond behind brace
    simpa using stands

/-- Whether a brace, the end of an arrow or a blank stands in front of a place. -/
private def BehindOpening (text : Text) (start : Nat) : Prop :=
  ∃ place b, start = place + 1 ∧ text[place]? = some b ∧
    (b = Byte.openBrace ∨ b = Byte.greater ∨ Byte.isBlank b = true)

private theorem behindOpening_of_mem_all {characters : List Char} {function : FunctionBody}
    (member : function ∈ FunctionBody.all (encode characters)) :
    BehindOpening (encode characters) function.body.start := by
  have braced {opening : Nat} (leads : FunctionBody.afterParameters? (encode characters) opening =
      some function.body) : BehindOpening (encode characters) function.body.start := by
    obtain ⟨_, _, brace, -, leads⟩ := FunctionBody.leadsTo_of_afterParameters? leads
    exact ⟨brace, _, (FunctionBody.delimited_of_bracedAt? leads.braced).2,
      FunctionBody.brace_of_bracedAt? leads.braced, .inl rfl⟩
  rcases FunctionBody.mem_all_iff.mp member with word | arrow | method
  · obtain ⟨_, -, leads⟩ := FunctionBody.exists_opensAt_of_mem_functions word
    exact braced leads
  · obtain ⟨begins, -⟩ := FunctionBody.beginsWithArrow_of_mem arrow
    have behind := begins.behind
    rcases behind.eq_or_lt with next | spaced
    · exact ⟨_, _, next.symm, begins.greater, .inr (.inl rfl)⟩
    · obtain ⟨place, start⟩ := Nat.exists_eq_succ_of_ne_zero (Nat.ne_zero_of_lt spaced)
      obtain ⟨b, here, light | ⟨brace, -⟩⟩ := begins.blanks place (by omega) (by omega)
      · exact ⟨place, b, start, here, .inr (.inr light)⟩
      · exact ⟨place, b, start, here, .inl brace⟩
  · obtain ⟨_, -, leads⟩ := FunctionBody.exists_opensAt_of_mem_methods method
    exact braced leads

private theorem BehindOpening.endsApart {front rest : List Char}
    (behind : BehindOpening (encode (front ++ rest)) (encode front).length) : EndsApart front := by
  obtain ⟨place, b, start, here, shown⟩ := behind
  have dark : b.toNat < 0x80 ∧ CharacterClass.wordOrDollar b.toNat = false := by
    simp only [Byte.isBlank, Bool.or_eq_true, beq_iff_eq] at shown
    rcases shown with rfl | rfl | (((rfl | rfl) | rfl) | rfl) | rfl
    all_goals decide
  obtain ⟨bytes, after, split, rfl⟩ := exists_append_of_getElem? here
  obtain ⟨first, c, second, same, rfl, spelled, -⟩ := encode_eq_append_cons split dark.1
  have whole : front ++ rest = (first ++ [c]) ++ second := by simp [same]
  have width : (encode front).length = (encode (first ++ [c])).length := by
    simp [start, spelled]
  intro d last
  rw [append_inj_of_length whole width, List.getLast?_concat] at last
  obtain rfl := Option.some.inj last
  rw [(encodeChar_eq_singleton (by simp [spelled]) dark.1).2]
  exact dark.2

private theorem exists_body {characters : List Char} {function : FunctionBody}
    (member : function ∈ FunctionBody.all (encode characters)) : ∃ front body behind,
      characters = front ++ body ++ behind ∧ EndsApart front ∧
        (encode characters).slice function.body = encode body := by
  have opening := behindOpening_of_mem_all member
  obtain ⟨-, whole⟩ := Checked.isWhole_of_mem_all ⟨characters, rfl⟩ member
  obtain ⟨front, rest, rfl, start⟩ := whole.starts.exists_append
  obtain ⟨stopped, behind, same, stop⟩ := whole.stops.exists_append
  obtain ⟨body, rfl, rfl⟩ := exists_append_of_length_le same
    (start.trans_le (whole.ordered.trans stop.ge))
  rw [← start] at opening
  refine ⟨front, body, behind, by simp, opening.endsApart, ?_⟩
  have span : function.body = ⟨(encode front).length, (encode (front ++ body)).length⟩ := by
    rw [start, stop]
  rw [span, ← List.append_assoc]
  exact slice_word front body behind

/-- What the functions of a mask make local stands in the mask. -/
theorem stands_of_mem_ofMask {characters : List Char} (member : name ∈ ofMask (encode characters)) :
    Stands characters name := by
  obtain ⟨function, listed, member⟩ := List.mem_flatMap.mp member
  rcases List.mem_append.mp member with isAssigned | taken
  · obtain ⟨front, body, behind, rfl, apart, slice⟩ := exists_body listed
    rw [slice] at isAssigned
    exact stands_of_mem_assigned isAssigned apart behind
  · obtain ⟨begins, -⟩ := Checked.isWhole_of_mem_all ⟨characters, rfl⟩ listed
    obtain ⟨before, rest, rfl, start⟩ := begins.exists_append
    rw [← start] at taken
    exact stands_of_mem_destructured taken

end Names

/-- A local name of a source stands in the source. -/
theorem stands_of_contains_ofSource {source : String} {name : Text}
    (isLocal : (ofSource source).contains name = true) : Stands source.toList name := by
  have hidden := (Checked.hideStyles_eq_ok (isString_ofString source)).2
  obtain ⟨characters, masked⟩ := hidden.aligned.maskIsString
  rw [ofSource, NameSet.contains_ofList, masked] at isLocal
  obtain ⟨word, rfl, here, beyond⟩ := stands_of_mem_ofMask isLocal
  have keeps := (keepsWords_hideStyles source.toList).trans (keepsWords_mask _)
  rw [← ofString_eq, masked, ofString_eq] at keeps
  obtain ⟨there, -, inFront⟩ := keeps.exists_occurrence here
  exact ⟨word, rfl, there, fun c last inside => beyond c (inFront c last inside) inside⟩

/-- What a script binds and what is local in a source are names that stand there. A name goes on as
far as its word does, and nothing that can begin a name is cut off in front of it. What can be cut off
is a letter outside ASCII, or a digit in front of the name of a site. -/
theorem names_stand (script source : String) :
    (∀ site ∈ RequireSite.all script, site.Stands script.toList) ∧
      ∀ name, (ofSource source).contains name = true → Stands source.toList name :=
  ⟨fun _ => RequireSite.stands_of_mem_all, fun _ => stands_of_contains_ofSource⟩

/-- A letter outside ASCII is cut off a name. -/
theorem names_stand_behind_letter :
    ⟨"a", .single, "m", ⟨8, 24⟩⟩ ∈ RequireSite.all (ofString "const éa = require('m')") ∧
      RequireSite.Stands "const éa = require('m')".toList ⟨"a", .single, "m", ⟨8, 24⟩⟩ ∧
      (ofSource (ofString "function f() \x7b éa = 1 \x7d")).contains "a" = true ∧
      Stands "function f() \x7b éa = 1 \x7d".toList "a" := by
  have bound : ⟨"a", .single, "m", ⟨8, 24⟩⟩ ∈
      RequireSite.all (ofString "const éa = require('m')") := by decide +kernel
  have isLocal : (ofSource (ofString "function f() \x7b éa = 1 \x7d")).contains "a" = true := by
    decide +kernel
  have stand := names_stand "const éa = require('m')" "function f() \x7b éa = 1 \x7d"
  exact ⟨bound, stand.1 _ bound, isLocal, stand.2 _ isLocal⟩

private theorem not_endsApart {characters above rest : List Char} {c : Char}
    (runs : ∀ i < characters.length, characters[i]? = some c →
      ((characters.take i).getLast?.any (CharacterClass.wordOrDollar ·.toNat)) = true)
    (split : characters = above ++ [c] ++ rest) : ¬EndsApart above := by
  have inside := runs above.length (by simp [split]) (by simp [split])
  obtain ⟨d, last, word⟩ := (Option.any_eq_true ..).mp inside
  have front : characters.take above.length = above := by simp [split]
  rw [front] at last
  intro apart
  rw [apart d last] at word
  contradiction

/-- So a name can be a fragment of a longer word, wherever it stands. -/
theorem name_cut_behind_letter :
    (¬∀ script : String, ∀ site ∈ RequireSite.all script, ∃ above name rest,
      script.toList = above ++ name ++ rest ∧ site.binding = encode name ∧
        site.span.start ≤ (encode above).length ∧
        (encode (above ++ name)).length ≤ site.span.stop ∧ EndsApart above) ∧
      ¬∀ (source : String) (name : Text), (ofSource source).contains name = true →
        ∃ above word rest, source.toList = above ++ word ++ rest ∧ name = encode word ∧
          EndsApart above ∧ BeginsApart rest := by
  have letter : ofString "a" = encode ['a'] := rfl
  constructor
  · intro apart
    obtain ⟨above, name, rest, split, binding, -, -, ends⟩ := apart "const éa = require('m')"
      ⟨"a", .single, "m", ⟨8, 24⟩⟩ (by decide +kernel)
    obtain rfl := encode_injective (letter.symm.trans binding)
    exact not_endsApart (by decide +kernel) split ends
  · intro apart
    obtain ⟨above, name, rest, split, same, ends, -⟩ :=
      apart "function f() \x7b éa = 1 \x7d" "a" (by decide +kernel)
    obtain rfl := encode_injective (letter.symm.trans same)
    exact not_endsApart (by decide +kernel) split ends

end LocalNames

end BareComponent
