import BareComponent.Proofs.FunctionBody.ReadTwice

/-! # Functions that share a body

Nothing is listed twice, and an arrow function shares its body with no other function. The body of
what is read as a function and as a method is listed for both. Two pairs of parentheses lead to one
body if the outer pair is closed inside the return type that the inner one is followed by. No others
share a body.
-/

namespace BareComponent.FunctionBody

open Text Pattern RequireLine

section Types

variable {text : Text} {characters : List Char} {outer inner : FunctionBody}
  {opening position : Nat} {body : Span}

/-- Whether the parameters of a function are closed inside the return type that follows those of
another, by a square bracket. -/
def ClosesInType (text : Text) (outer inner : FunctionBody) : Prop :=
  ∃ opening position closing last, OpensAt text outer opening ∧ OpensAt text inner position ∧
    opening < position ∧ text.closingOf? opening = some closing ∧
    text.closingOf? position = some last ∧ last < closing ∧ closing < inner.body.start ∧
    text[closing]? = some Byte.closeBracket

/-- The brace of a body is told by the body. -/
theorem brace_unique {brace other : Nat} (braced : bracedAt? text brace = some body)
    (again : bracedAt? text other = some body) : brace = other :=
  Nat.succ.inj ((delimited_of_bracedAt? braced).2.symm.trans (delimited_of_bracedAt? again).2)

theorem brace_of_bracedAt? {brace : Nat} (braced : bracedAt? text brace = some body) :
    text[brace]? = some Byte.openBrace := by
  rw [bracedAt?] at braced
  split at braced
  · assumption
  · contradiction

private theorem closing_of_same_body (earlier : opening < position)
    (leads : afterParameters? (encode characters) opening = some body)
    (other : afterParameters? (encode characters) position = some body)
    (paren : (encode characters)[position]? = some Byte.openParen) :
    ∃ closing last, (encode characters).closingOf? opening = some closing ∧
      (encode characters).closingOf? position = some last ∧ last < closing ∧
      closing < body.start ∧ (encode characters)[closing]? = some Byte.closeBracket := by
  obtain ⟨closing, next, brace, closes, leads⟩ := leadsTo_of_afterParameters? leads
  obtain ⟨last, type, otherBrace, ends, other⟩ := leadsTo_of_afterParameters? other
  obtain rfl := brace_unique leads.braced other.braced
  have start := (delimited_of_bracedAt? leads.braced).2
  have reached := leads.behind.trans_le leads.ordered
  have otherReached := other.behind.trans_le other.ordered
  obtain ⟨-, b, here, bracket⟩ := exists_of_closingOf? closes
  have positionLt := (exists_of_closingOf? ends).1
  have inside : position < closing := by
    refine Nat.lt_of_not_le fun outside => ?_
    rcases Nat.lt_or_eq_of_le outside with behind | rfl
    · exact leads.getElem?_ne (by decide) (by decide) (by decide) (by decide) behind (by omega)
        paren
    · obtain rfl := Option.some.inj (here.symm.trans paren)
      exact absurd bracket (by decide)
  have nested : last < closing := by
    obtain ⟨extent, -⟩ := extent_of_closingOf? closes
    obtain ⟨inner, opened⟩ := extent_of_closingOf? ends
    exact extent.stop_lt_of_opened inner (fun _ => id) opened (Nat.succ_lt_succ earlier)
      (Nat.succ_le_of_lt inside) (List.getElem?_eq_some_iff.mp here).1
  refine ⟨closing, last, closes, ends, nested, by omega, ?_⟩
  simp only [Byte.isClose, Bool.or_eq_true, beq_iff_eq] at bracket
  rcases bracket with (rfl | rfl) | rfl
  · exact absurd here (other.getElem?_ne (by decide) (by decide) (by decide) (by decide) nested
      reached)
  · exact absurd here (other.getElem?_ne (by decide) (by decide) (by decide) (by decide) nested
      reached)
  · exact here

private theorem body_eq_of_closing {otherBody : Span} {closing last : Nat}
    (leads : afterParameters? (encode characters) opening = some body)
    (other : afterParameters? (encode characters) position = some otherBody)
    (closes : (encode characters).closingOf? opening = some closing)
    (ends : (encode characters).closingOf? position = some last) (nested : last < closing)
    (reached : closing < otherBody.start)
    (bracket : (encode characters)[closing]? = some Byte.closeBracket) : body = otherBody := by
  obtain ⟨_, next, brace, closes', leads⟩ := leadsTo_of_afterParameters? leads
  obtain ⟨_, type, otherBrace, ends', other⟩ := leadsTo_of_afterParameters? other
  obtain rfl := Option.some.inj (closes.symm.trans closes')
  obtain rfl := Option.some.inj (ends.symm.trans ends')
  have opens := brace_of_bracedAt? leads.braced
  have otherOpens := brace_of_bracedAt? other.braced
  have start := (delimited_of_bracedAt? other.braced).2
  have beforeBrace : closing < otherBrace := by
    refine Nat.lt_of_le_of_ne (by omega) ?_
    rintro rfl
    exact absurd (Option.some.inj (bracket.symm.trans otherOpens)) (by decide)
  have behindColon : type < closing := by
    rcases Nat.lt_trichotomy type closing with behind | rfl | blank
    · exact behind
    · exact absurd (Option.some.inj (bracket.symm.trans (other.colon beforeBrace))) (by decide)
    · obtain ⟨b, here, light⟩ := other.blanks closing nested blank
      obtain rfl := Option.some.inj (bracket.symm.trans here)
      exact absurd light (by decide)
  have nextLe : next ≤ otherBrace := by
    refine Nat.le_of_not_lt fun skipped => ?_
    obtain ⟨b, here, light⟩ := leads.blanks otherBrace beforeBrace skipped
    obtain rfl := Option.some.inj (otherOpens.symm.trans here)
    exact absurd light (by decide)
  have behind := leads.behind
  obtain same : next = brace := by
    refine leads.ordered.eq_or_lt.resolve_right fun typed => ?_
    rcases nextLe.eq_or_lt with rfl | inside
    · exact absurd (Option.some.inj (otherOpens.symm.trans (leads.colon typed))) (by decide)
    · exact other.type next (by omega) inside _ (by decide) (by decide) (leads.colon typed)
  obtain rfl : brace = otherBrace := by
    refine (same ▸ nextLe).eq_or_lt.resolve_right fun inside => ?_
    exact other.type brace (by omega) inside _ (by decide) (by decide) opens
  exact Option.some.inj (leads.braced.symm.trans other.braced)

end Types

section Arrows

variable {text : Text} {characters : List Char} {function other : FunctionBody} {position : Nat}

/-- Whether a function begins with an arrow that nothing but blanks and the brace of its body
follows. -/
structure BeginsWithArrow (text : Text) (function : FunctionBody) : Prop where
  form : function.form = .arrowBlock ∨ function.form = .arrowExpression
  equals : text[function.start]? = some Byte.equals
  greater : text[function.start + 1]? = some Byte.greater
  behind : function.start + 2 ≤ function.body.start
  blanks : ∀ i, function.start + 2 ≤ i → i < function.body.start → ∃ b, text[i]? = some b ∧
    (Byte.isBlank b = true ∨ b = Byte.openBrace ∧ i + 1 = function.body.start)

private theorem beginsWithArrow_of_ofArrow? (equals : text[position]? = some Byte.equals)
    (greater : text[position + 1]? = some Byte.greater)
    (found : ofArrow? text position = some function) : BeginsWithArrow text function := by
  obtain rfl := start_of_ofArrow? found
  have next : function.start + 2 ≤ text.skipBlanks (function.start + 2) :=
    le_skipBlanks (List.getElem?_eq_some_iff.mp greater).1
  rw [ofArrow?] at found
  split at found
  · next brace =>
    obtain ⟨body, braced, same⟩ := Option.map_eq_some_iff.mp found
    have start : function.body.start = text.skipBlanks (function.start + 2) + 1 := by
      rw [← (delimited_of_bracedAt? braced).2, ← congrArg FunctionBody.body same]
    refine ⟨.inl (congrArg FunctionBody.form same).symm, equals, greater, by omega,
      fun i starts stops => ?_⟩
    rcases Nat.lt_or_eq_of_le (Nat.le_of_lt_succ (start ▸ stops)) with blank | rfl
    · obtain ⟨b, here, light⟩ := exists_blank_of_lt_skipBlanks starts blank
      exact ⟨b, here, .inl light⟩
    · exact ⟨_, brace, .inr ⟨rfl, start.symm⟩⟩
  · have start : text.skipBlanks (function.start + 2) = function.body.start :=
      congrArg (·.body.start) (Option.some.inj found)
    refine ⟨.inr (congrArg FunctionBody.form (Option.some.inj found)).symm, equals, greater,
      start ▸ next, fun i starts stops => ?_⟩
    obtain ⟨b, here, light⟩ := exists_blank_of_lt_skipBlanks starts (start ▸ stops)
    exact ⟨b, here, .inl light⟩

/-- An arrow function begins with its arrow and is told by where it stands. -/
theorem beginsWithArrow_of_mem (member : function ∈ arrows (encode characters)) :
    BeginsWithArrow (encode characters) function ∧
      ofArrow? (encode characters) function.start = some function := by
  obtain ⟨found, inside, here⟩ := List.mem_filterMap.mp member
  obtain ⟨before, after, rfl, matched⟩ := exists_of_mem_search inside
  obtain ⟨_, arrow, span, -⟩ := exists_of_matchAt? matched
  have arrow : _ ∈ Pattern.literal (encode ['=', '>']) _ := arrow
  obtain ⟨rest, rfl, -⟩ := mem_literal.mp arrow
  have place : found.span.start = (encode before).length := by
    rw [span, Cursor.position_between]
  have shape : encode (before ++ (['=', '>'] ++ rest)) =
      encode before ++ Byte.equals :: Byte.greater :: encode rest := by
    rw [encode_append]
    rfl
  refine ⟨beginsWithArrow_of_ofArrow? ?_ ?_ here, start_of_ofArrow? here ▸ here⟩
  · rw [place, shape, List.getElem?_append_right le_rfl, Nat.sub_self, List.getElem?_cons_zero]
  · rw [place, shape, List.getElem?_append_right (Nat.le_add_right _ 1), Nat.add_sub_cancel_left]
    rfl

namespace BeginsWithArrow

private theorem le_of_same_start (arrow : BeginsWithArrow text function)
    (again : BeginsWithArrow text other) (same : function.body.start = other.body.start) :
    other.start ≤ function.start := by
  refine Nat.le_of_not_lt fun later => ?_
  have behind := again.behind
  rcases Nat.lt_or_eq_of_le (Nat.add_one_le_iff.mpr later) with inside | next
  · obtain ⟨b, here, blank | ⟨rfl, last⟩⟩ := arrow.blanks other.start inside (by omega)
    · obtain rfl := Option.some.inj (again.equals.symm.trans here)
      exact absurd blank (by decide)
    · omega
  · have greater := arrow.greater
    rw [next, again.equals] at greater
    exact absurd (Option.some.inj greater) (by decide)

/-- Two arrow functions with one body are the same. -/
theorem start_eq (arrow : BeginsWithArrow text function) (again : BeginsWithArrow text other)
    (same : function.body = other.body) : function.start = other.start :=
  Nat.le_antisymm (again.le_of_same_start arrow (congrArg Span.start same.symm))
    (arrow.le_of_same_start again (congrArg Span.start same))

/-- No parameters lead to the body of an arrow function. -/
theorem body_ne (arrow : BeginsWithArrow (encode characters) function) {body : Span}
    (leads : afterParameters? (encode characters) position = some body) : function.body ≠ body := by
  rintro rfl
  obtain ⟨closing, next, brace, closes, leads⟩ := leadsTo_of_afterParameters? leads
  have start := (delimited_of_bracedAt? leads.braced).2
  have behind := arrow.behind
  have reached := leads.behind.trans_le leads.ordered
  obtain ⟨-, b, there, bracket⟩ := exists_of_closingOf? closes
  rcases Nat.lt_or_ge closing function.start with earlier | later
  · have beforeBrace : function.start < brace := by omega
    exact leads.getElem?_ne (by decide) (by decide) (by decide) (by decide) earlier beforeBrace
      arrow.equals
  · rcases Nat.lt_or_ge (function.start + 1) closing with inside | near
    · obtain ⟨c, here, blank | ⟨rfl, -⟩⟩ := arrow.blanks closing inside (by omega)
      · rw [isBlank_of_closingOf? closes here] at blank
        contradiction
      · obtain rfl := Option.some.inj (here.symm.trans there)
        exact absurd bracket (by decide)
    · obtain rfl | rfl : closing = function.start ∨ closing = function.start + 1 := by omega
      · obtain rfl := Option.some.inj (arrow.equals.symm.trans there)
        exact absurd bracket (by decide)
      · obtain rfl := Option.some.inj (arrow.greater.symm.trans there)
        exact absurd bracket (by decide)

end BeginsWithArrow

end Arrows

section Shared

variable {characters : List Char} {function other : FunctionBody} {opening : Nat}

/-- Whether a function and another that shares its body are read from one construct, or the
parameters of the function are closed inside the return type of the other. -/
def SharesBody (characters : List Char) (function other : FunctionBody) : Prop :=
  ReadTwice characters function other ∨ ClosesInType (encode characters) function other

/-- The functions of a text are found by one of three searches. -/
theorem mem_all_iff : function ∈ all (encode characters) ↔
    function ∈ functions (encode characters) ∨ function ∈ arrows (encode characters) ∨
      function ∈ methods (encode characters) := by
  rw [all, (SourceOrder.perm_sort _ _).mem_iff, List.mem_append, List.mem_append, or_assoc]

private theorem exists_opensAt_of_mem_all (member : function ∈ all (encode characters)) :
    function ∈ arrows (encode characters) ∨
      ∃ opening, OpensAt (encode characters) function opening ∧
        afterParameters? (encode characters) opening = some function.body := by
  rcases mem_all_iff.mp member with word | arrow | method
  · exact .inr (exists_opensAt_of_mem_functions word)
  · exact .inl arrow
  · exact .inr (exists_opensAt_of_mem_methods method)

private theorem mem_of_opensAt (member : function ∈ all (encode characters))
    (opens : OpensAt (encode characters) function opening) :
    function ∈ functions (encode characters) ∨ function ∈ methods (encode characters) := by
  rcases mem_all_iff.mp member with word | arrow | method
  · exact .inl word
  · rcases opens.form with form | form <;> rcases (beginsWithArrow_of_mem arrow).1.form with no | no
    all_goals
      rw [form] at no
      contradiction
  · exact .inr method

private theorem leads_of_opensAt (member : function ∈ all (encode characters))
    (opens : OpensAt (encode characters) function opening) :
    afterParameters? (encode characters) opening = some function.body := by
  rcases mem_of_opensAt member opens with word | method
  · obtain ⟨position, again, leads⟩ := exists_opensAt_of_mem_functions word
    rwa [again.unique opens] at leads
  · obtain ⟨position, again, leads⟩ := exists_opensAt_of_mem_methods method
    rwa [again.unique opens] at leads

private theorem SharesBody.body_eq (shares : SharesBody characters function other)
    (member : function ∈ all (encode characters)) (otherMember : other ∈ all (encode characters)) :
    function.body = other.body := by
  rcases shares with read |
    ⟨opening, position, closing, last, opens, again, -, closes, ends, nested, reached, bracket⟩
  · obtain ⟨opening, opens, again⟩ := read.exists_opensAt
    exact Option.some.inj ((leads_of_opensAt member opens).symm.trans
      (leads_of_opensAt otherMember again))
  · exact body_eq_of_closing (leads_of_opensAt member opens) (leads_of_opensAt otherMember again)
      closes ends nested reached bracket

private theorem sharesBody_of_lt {position : Nat}
    (opens : OpensAt (encode characters) function opening)
    (again : OpensAt (encode characters) other position) (earlier : opening < position)
    (leads : afterParameters? (encode characters) opening = some function.body)
    (otherLeads : afterParameters? (encode characters) position = some other.body)
    (same : function.body = other.body) : SharesBody characters function other := by
  rw [same] at leads
  obtain ⟨closing, last, closes, ends, nested, reached, bracket⟩ :=
    closing_of_same_body earlier leads otherLeads again.paren
  exact .inr ⟨opening, position, closing, last, opens, again, earlier, closes, ends, nested,
    reached, bracket⟩

private theorem sharesBody_of_opensAt (member : function ∈ all (encode characters))
    (otherMember : other ∈ all (encode characters)) (distinct : function ≠ other)
    (opens : OpensAt (encode characters) function opening)
    (again : OpensAt (encode characters) other opening) :
    SharesBody characters function other ∨ SharesBody characters other function := by
  rcases mem_of_opensAt member opens with word | method
  · rcases mem_of_opensAt otherMember again with other_word | otherMethod
    · exact absurd (eq_of_mem_functions word other_word opens again) distinct
    · exact .inl (.inl (readTwice_of_opensAt word otherMethod opens again))
  · rcases mem_of_opensAt otherMember again with other_word | otherMethod
    · exact .inr (.inl (readTwice_of_opensAt other_word method again opens))
    · exact absurd (eq_of_mem_methods method otherMethod opens again) distinct

private theorem sharesBody_of_body_eq (member : function ∈ all (encode characters))
    (otherMember : other ∈ all (encode characters)) (distinct : function ≠ other)
    (same : function.body = other.body) :
    SharesBody characters function other ∨ SharesBody characters other function := by
  rcases exists_opensAt_of_mem_all member with arrow | ⟨opening, opens, leads⟩
  · obtain ⟨begins, found⟩ := beginsWithArrow_of_mem arrow
    rcases exists_opensAt_of_mem_all otherMember with other_arrow | ⟨position, -, otherLeads⟩
    · obtain ⟨otherBegins, otherFound⟩ := beginsWithArrow_of_mem other_arrow
      rw [begins.start_eq otherBegins same, otherFound] at found
      exact absurd (Option.some.inj found).symm distinct
    · exact absurd same (begins.body_ne otherLeads)
  · rcases exists_opensAt_of_mem_all otherMember with other_arrow | ⟨position, again, otherLeads⟩
    · exact absurd same.symm ((beginsWithArrow_of_mem other_arrow).1.body_ne leads)
    · rcases Nat.lt_trichotomy opening position with earlier | rfl | later
      · exact .inl (sharesBody_of_lt opens again earlier leads otherLeads same)
      · exact sharesBody_of_opensAt member otherMember distinct opens again
      · exact .inr (sharesBody_of_lt again opens later otherLeads leads same.symm)

private theorem nodup_filterMap {α : Type} {pattern : Pattern α} (steps : Steps characters pattern)
    {read : Match α → Option FunctionBody}
    (starts : ∀ found function, read found = some function → function.start = found.span.start) :
    ((pattern.search (encode characters)).filterMap read).Nodup := by
  refine List.pairwise_filterMap.mpr (steps.pairwise_search.imp_of_mem ?_)
  rintro first second inside - order function found _ otherFound rfl
  have := (Ensures.search steps inside).2.2
  have := (starts first function found).symm.trans (starts second function otherFound)
  omega

/-- Nothing is listed twice. -/
theorem nodup_all (characters : List Char) : (all (encode characters)).Nodup := by
  have onceFunctions : (functions (encode characters)).Nodup :=
    nodup_filterMap Checked.steps_functionHead fun found function here => by
      obtain ⟨body, -, rfl⟩ := Option.map_eq_some_iff.mp here
      rfl
  have onceArrows : (arrows (encode characters)).Nodup :=
    nodup_filterMap (Steps.literal (isString_ofString "=>")) fun _ _ => start_of_ofArrow?
  have onceMethods : (methods (encode characters)).Nodup :=
    nodup_filterMap Checked.ensures_methodHead.steps fun found function here => by
      split at here
      · obtain ⟨body, -, rfl⟩ := Option.map_eq_some_iff.mp here
        rfl
      · contradiction
  rw [all, (SourceOrder.perm_sort _ _).nodup_iff]
  refine List.nodup_append.mpr ⟨List.nodup_append.mpr ⟨onceFunctions, onceArrows, ?_⟩,
    onceMethods, ?_⟩
  · rintro function word _ arrow rfl
    have form := form_of_mem_functions word
    rcases (beginsWithArrow_of_mem arrow).1.form with other | other <;> simp [form] at other
  · rintro function member _ method rfl
    obtain ⟨above, name, gap, rest, body, -, -, -, -, -, -, -, rfl⟩ :=
      exists_name_of_mem_methods method
    rcases List.mem_append.mp member with word | arrow
    · exact absurd (form_of_mem_functions word) (by simp)
    · rcases (beginsWithArrow_of_mem arrow).1.form with other | other <;> simp at other

/-- No function is listed twice, and two share a body just where a function and a method are read
from one generator or from one name with a dollar sign, or where the parameters of one are closed
inside the return type of the other. -/
theorem bodies_shared (text : String) : (all text).Nodup ∧
    ∀ function ∈ all text, ∀ other ∈ all text, function ≠ other →
      (function.body = other.body ↔
        SharesBody text.toList function other ∨ SharesBody text.toList other function) := by
  rw [ofString_eq]
  refine ⟨nodup_all _, fun function member other otherMember distinct => ⟨?_, ?_⟩⟩
  · exact sharesBody_of_body_eq member otherMember distinct
  · rintro (shares | shares)
    · exact shares.body_eq member otherMember
    · exact (shares.body_eq otherMember member).symm

/-- A named generator is a function and a method with one body. -/
theorem bodies_shared_generator :
    ⟨.function, 0, ⟨17, 24⟩⟩ ∈ all (ofString "function* gen() \x7b x = 1 \x7d") ∧
      ⟨.method, 10, ⟨17, 24⟩⟩ ∈ all (ofString "function* gen() \x7b x = 1 \x7d") ∧
      (SharesBody "function* gen() \x7b x = 1 \x7d".toList ⟨.function, 0, ⟨17, 24⟩⟩
          ⟨.method, 10, ⟨17, 24⟩⟩ ∨
        SharesBody "function* gen() \x7b x = 1 \x7d".toList ⟨.method, 10, ⟨17, 24⟩⟩
          ⟨.function, 0, ⟨17, 24⟩⟩) := by
  have word : ⟨.function, 0, ⟨17, 24⟩⟩ ∈ all (ofString "function* gen() \x7b x = 1 \x7d") := by
    decide +kernel
  have method : ⟨.method, 10, ⟨17, 24⟩⟩ ∈ all (ofString "function* gen() \x7b x = 1 \x7d") := by
    decide +kernel
  exact ⟨word, method, ((bodies_shared "function* gen() \x7b x = 1 \x7d").2 _ word _ method
    (by decide)).mp rfl⟩

/-- So a declaration can be listed as a method as well, with the same body. -/
theorem generator_listed_as_method : ¬∀ text : String, ∀ function ∈ all text, ∀ other ∈ all text,
    function ≠ other → function.body ≠ other.body := by
  intro apart
  have word : ⟨.function, 0, ⟨17, 24⟩⟩ ∈ all (ofString "function* gen() \x7b x = 1 \x7d") := by
    decide +kernel
  have method : ⟨.method, 10, ⟨17, 24⟩⟩ ∈ all (ofString "function* gen() \x7b x = 1 \x7d") := by
    decide +kernel
  exact apart "function* gen() \x7b x = 1 \x7d" _ word _ method (by decide) rfl

end Shared

end BareComponent.FunctionBody
