import BareComponent.Proofs.Pattern.Ensures
import BareComponent.Proofs.Pattern.Frame
import BareComponent.Proofs.Text.Replace

/-! # Searching for a pattern that ends with its closing character

Of all places from which such a pattern reads through one closing character, a search finds the
leftmost one, and no other match gets in its way. So a larger text has the matches of a text, unless
one that begins in the front reads through the same closing character.
-/

namespace BareComponent.Pattern

open Cursor Text

variable {α : Type} {frame : Frame} {moved : α → α} {larger pattern : Pattern α}
  {found : Match α} {front before rest characters : List Char}

/-- Whether a pattern matches nowhere in some characters in front of a place from where it would
reach the closing character only behind the place. -/
def Leftmost (frame : Frame) (pattern : Pattern α) (front before rest : List Char) : Prop :=
  ∀ first second, before = first ++ second → second ≠ [] → frame.Avoids second →
    matchAt? pattern (between (front ++ first) (second ++ rest)) = none

namespace Leftmost

/-- Of the characters in front the first ones may be left out. -/
theorem of_append (passed : List Char)
    (leftmost : Leftmost frame pattern front (passed ++ before) rest) :
    Leftmost frame pattern (front ++ passed) before rest := by
  rintro first second rfl nonempty avoids
  rw [List.append_assoc]
  exact leftmost (passed ++ first) second (List.append_assoc ..).symm nonempty avoids

/-- A character may be added at which nothing matches. -/
theorem cons {d : Char} (fails : matchAt? pattern (between front (d :: (before ++ rest))) = none)
    (leftmost : Leftmost frame pattern (front ++ [d]) before rest) :
    Leftmost frame pattern front (d :: before) rest := by
  intro first second split nonempty avoids
  cases first with
  | nil =>
    obtain rfl : d :: before = second := split
    rwa [List.append_nil]
  | cons e first =>
    obtain ⟨rfl, rfl⟩ := List.cons.inj split
    simpa using leftmost first second rfl nonempty avoids

/-- What ends with the closing character may be added, since what avoids it stands behind. -/
theorem append_closing {body : List Char} {c : Char} (closing : frame.closing = some c)
    (leftmost : Leftmost frame pattern (front ++ (body ++ [c])) before rest) :
    Leftmost frame pattern front (body ++ c :: before) rest := by
  intro first second split nonempty avoids
  obtain ⟨first, rfl, rfl⟩ : ∃ more, first = body ++ c :: more ∧ before = more ++ second := by
    rcases List.append_eq_append_iff.mp split with ⟨more, rfl, behind⟩ | ⟨more, _, rfl⟩
    · cases more with
      | nil =>
        obtain rfl : c :: before = second := behind
        exact absurd List.mem_cons_self (avoids c closing)
      | cons e more =>
        obtain ⟨rfl, rfl⟩ := List.cons.inj behind
        exact ⟨more, rfl, rfl⟩
    · exact absurd (List.mem_append_right _ List.mem_cons_self) (avoids c closing)
  simpa using leftmost first second rfl nonempty avoids

/-- A match in front of a leftmost place reaches the closing character in front of the place. -/
theorem exists_append_closing {body after : List Char} {c : Char}
    (leftmost : Leftmost frame pattern front before rest) (nonempty : before ≠ [])
    (earlier : matchAt? pattern (between front (before ++ rest)) ≠ none)
    (closing : frame.closing = some c) (split : before ++ rest = body ++ c :: after)
    (apart : c ∉ body) : ∃ more, before = body ++ c :: more ∧ after = more ++ rest := by
  by_contra absent
  have avoids : c ∉ before := by
    intro inside
    rcases List.append_eq_append_iff.mp split with ⟨more, rfl, -⟩ | ⟨more, shape, restEq⟩
    · exact apart (List.mem_append_left _ inside)
    · cases more with
      | nil => exact apart (by rwa [List.append_nil, ← shape] at *)
      | cons e more =>
        obtain ⟨rfl, rfl⟩ := List.cons.inj restEq
        exact absent ⟨more, shape, rfl⟩
  have fails := leftmost [] before rfl nonempty fun e same => by
    obtain rfl := Option.some.inj (closing.symm.trans same)
    exact avoids
  rw [List.append_nil] at fails
  exact earlier fails

end Leftmost

/-- What is read ends behind the next closing character. -/
theorem Outer.exists_of_matchAt? (outer : Outer frame moved larger pattern)
    (here : matchAt? pattern (between before rest) = some found) :
    ∃ body c after, frame.closing = some c ∧ rest = body ++ c :: after ∧ c ∉ body ∧
      found.span = ⟨(encode before).length, (encode (before ++ (body ++ [c]))).length⟩ := by
  obtain ⟨next, matched, span, -⟩ := Pattern.exists_of_matchAt? here
  obtain ⟨_, after, rfl, ⟨body, c, closing, rfl, apart⟩, rfl⟩ :=
    outer.passes before rest found.value next matched
  exact ⟨body, c, after, closing, by simp, apart, by rw [span, position_between, position_between]⟩

private theorem Outer.searchBehind_of_matchAt? (outer : Outer frame moved larger pattern)
    (here : matchAt? pattern (between before rest) = some found) :
    ∃ body c after, frame.closing = some c ∧ rest = body ++ c :: after ∧ c ∉ body ∧
      searchBehind pattern before rest =
        found :: searchBehind pattern (before ++ (body ++ [c])) after := by
  obtain ⟨body, c, after, closing, rfl, apart, span⟩ := outer.exists_of_matchAt? here
  refine ⟨body, c, after, closing, rfl, apart, ?_⟩
  have shape : body ++ c :: after = body ++ [c] ++ after := by simp
  have foundEq : found = ⟨⟨(encode before).length, (encode (before ++ (body ++ [c]))).length⟩,
      found.value⟩ := by rw [← span]
  rw [shape] at here ⊢
  rw [foundEq] at here
  rw [searchBehind_of_some here (by simp), ← foundEq]

/-- What is read in the frame as outside of it goes over whole characters. -/
theorem Outer.steps (outer : Outer frame moved larger pattern) : Steps characters pattern := by
  rintro before after - value next member
  obtain ⟨passed, rest, rfl, -, rfl⟩ := outer.passes before after value next member
  exact ⟨trivial, passed, rest, rfl, rfl⟩

/-- A search finds what is read at a leftmost place. -/
theorem Outer.mem_search (outer : Outer frame moved larger pattern)
    (here : matchAt? pattern (between before rest) = some found)
    (leftmost : Leftmost frame pattern [] before rest) :
    found ∈ search pattern (encode (before ++ rest)) := by
  refine outer.steps.mem_search rfl here ?_
  rintro first second other rfl nonempty reads
  obtain ⟨body, c, after, closing, split, apart, span⟩ := outer.exists_of_matchAt? reads
  obtain ⟨more, rfl, -⟩ := (leftmost.of_append first).exists_append_closing nonempty
    (reads ▸ Option.some_ne_none other) closing split apart
  have stop : other.span.stop = (encode (first ++ (body ++ [c]))).length :=
    congrArg Span.stop span
  have reached : first ++ (body ++ c :: more) = first ++ (body ++ [c]) ++ more := by simp
  rw [stop, reached, encode_append _ more, List.length_append]
  exact Nat.le_add_right _ _

private theorem Outer.exists_of_mem_searchBehind (outer : Outer frame moved larger pattern)
    (member : found ∈ searchBehind pattern front characters) :
    ∃ before rest, characters = before ++ rest ∧
      matchAt? pattern (between (front ++ before) rest) = some found ∧
      Leftmost frame pattern front before rest := by
  induction size : characters.length using Nat.strongRecOn generalizing front characters with
  | ind size ih =>
    subst size
    cases characters with
    | nil => simp at member
    | cons d characters =>
      cases here : matchAt? pattern (between front (d :: characters)) with
      | none =>
        rw [searchBehind_of_none here] at member
        obtain ⟨before, rest, rfl, later, leftmost⟩ := ih characters.length (by simp) member rfl
        exact ⟨d :: before, rest, rfl, by simpa using later, leftmost.cons here⟩
      | some other =>
        obtain ⟨body, c, after, closing, split, apart, search⟩ :=
          outer.searchBehind_of_matchAt? here
        rw [search] at member
        rcases List.mem_cons.mp member with rfl | later
        · refine ⟨[], d :: characters, rfl, by rwa [List.append_nil], fun first second split => ?_⟩
          simp [(List.append_eq_nil_iff.mp split.symm).2]
        · have shorter : after.length < (d :: characters).length := by
            rw [split, List.length_append, List.length_cons]
            omega
          obtain ⟨before, rest, rfl, here, leftmost⟩ := ih after.length shorter later rfl
          exact ⟨body ++ c :: before, rest, by simp [split], by simpa using here,
            leftmost.append_closing closing⟩

/-- What a search finds is read at a leftmost place. -/
theorem Outer.exists_of_mem_search (outer : Outer frame moved larger pattern)
    (member : found ∈ search pattern (encode characters)) :
    ∃ before rest, characters = before ++ rest ∧
      matchAt? pattern (between before rest) = some found ∧
      Leftmost frame pattern [] before rest := by
  rw [search_encode] at member
  exact outer.exists_of_mem_searchBehind member

/-- In front of a match that a search does not find there is one that it finds. -/
theorem Outer.exists_leftmost (outer : Outer frame moved larger pattern)
    (here : matchAt? pattern (between before rest) = some found) :
    ∃ first second other, before = first ++ second ∧ frame.Avoids second ∧
      matchAt? pattern (between first (second ++ rest)) = some other ∧
      other ∈ search pattern (encode (before ++ rest)) := by
  induction size : before.length using Nat.strongRecOn generalizing before rest found with
  | ind size ih =>
    subst size
    by_cases leftmost : Leftmost frame pattern [] before rest
    · exact ⟨before, [], found, by simp, fun _ _ => List.not_mem_nil, by simpa using here,
        outer.mem_search here leftmost⟩
    · obtain ⟨first, second, rfl, nonempty, avoids, earlier⟩ : ∃ first second,
          before = first ++ second ∧ second ≠ [] ∧ frame.Avoids second ∧
            matchAt? pattern (between first (second ++ rest)) ≠ none := by
        simpa [Leftmost] using leftmost
      obtain ⟨other, earlier⟩ := Option.ne_none_iff_exists'.mp earlier
      have shorter : first.length < (first ++ second).length := by
        have := List.length_pos_iff.mpr nonempty
        rw [List.length_append]
        omega
      obtain ⟨front, more, leftmostOne, rfl, moreAvoids, reads, inside⟩ :=
        ih first.length shorter earlier rfl
      exact ⟨front, more ++ second, leftmostOne, by simp, moreAvoids.append avoids,
        by simpa using reads, by simpa using inside⟩

/-- What is read through the same closing character stops at the same place. -/
theorem Outer.stop_eq (outer : Outer frame moved larger pattern) {first second : List Char}
    {other : Match α} (avoids : frame.Avoids second)
    (here : matchAt? pattern (between (first ++ second) rest) = some found)
    (earlier : matchAt? pattern (between first (second ++ rest)) = some other) :
    other.span.stop = found.span.stop := by
  obtain ⟨body, c, after, closing, rfl, apart, span⟩ := outer.exists_of_matchAt? here
  obtain ⟨whole, d, behind, same, split, wholeApart, otherSpan⟩ :=
    outer.exists_of_matchAt? earlier
  obtain rfl : c = d := Option.some.inj (closing.symm.trans same)
  have both : second ++ body ++ c :: after = whole ++ c :: behind := by
    rw [← split, List.append_assoc]
  have bodyApart : ∀ d ∈ second ++ body, d ≠ c := by
    rintro d member rfl
    exact (List.mem_append.mp member).elim (avoids d closing) apart
  obtain ⟨rfl, -, -⟩ := append_cons_inj_of_front (· ≠ c) both (by simp) (by simp) bodyApart
    fun d member same => wholeApart (same ▸ member)
  rw [span, otherSpan]
  simp

/-- Whether a match that begins in front of a text reads through the closing character of a match in
the text. -/
def Swallows (frame : Frame) (pattern : Pattern α) (characters : List Char)
    (other found : Match α) : Prop :=
  ∃ first second before rest, frame.front = first ++ second ∧ second ≠ [] ∧
    characters = before ++ rest ∧ frame.Avoids (second ++ before) ∧
    matchAt? pattern (between before rest) = some found ∧
    matchAt? pattern (between first (second ++ before ++ (rest ++ frame.behind))) = some other

/-- What is found in a text is found in a larger one, unless a match that begins in the front
swallows it. That one stops where the swallowed one does. -/
theorem Outer.mem_search_around (outer : Outer frame moved pattern pattern)
    (member : found ∈ search pattern (encode characters)) :
    ⟨found.span.shift frame.offset, moved found.value⟩ ∈
        search pattern (encode (frame.around characters)) ∨
      ∃ other ∈ search pattern (encode (frame.around characters)),
        Swallows frame pattern characters other found ∧
          other.span.stop = found.span.stop + frame.offset := by
  obtain ⟨before, rest, rfl, here, leftmost⟩ := outer.exists_of_mem_search member
  obtain ⟨body, c, after, closing, shape, -, -⟩ := outer.exists_of_matchAt? here
  have closes (second : List Char) : frame.Closes (second ++ rest) := by
    intro d same
    obtain rfl := Option.some.inj (closing.symm.trans same)
    simp [shape]
  have there := outer.matchAt?_eq before (closes [])
  rw [List.nil_append, here, Option.map_some] at there
  obtain ⟨first, second, other, split, avoids, reads, inside⟩ := outer.exists_leftmost there
  have place : (∃ more, first = frame.front ++ more ∧ before = more ++ second) ∨
      ∃ straddled, straddled ≠ [] ∧ frame.front = first ++ straddled ∧
        second = straddled ++ before := by
    rcases List.append_eq_append_iff.mp split with inner | ⟨straddled, frontEq, secondEq⟩
    · exact .inl inner
    · cases straddled with
      | nil => exact .inl ⟨[], by simp [frontEq], by simp [secondEq]⟩
      | cons d straddled => exact .inr ⟨_, List.cons_ne_nil _ _, frontEq, secondEq⟩
  have whole : frame.front ++ before ++ (rest ++ frame.behind) = frame.around (before ++ rest) := by
    simp [Frame.around]
  rw [whole] at inside
  rcases place with ⟨more, rfl, rfl⟩ | ⟨straddled, nonempty, frontEq, rfl⟩
  · left
    have alone := outer.matchAt?_eq more (closes second)
    rw [List.append_assoc, reads] at alone
    have hereOnly : second = [] := by
      by_contra nonempty
      have fails := leftmost more second rfl nonempty avoids
      rw [List.nil_append] at fails
      rw [fails] at alone
      contradiction
    rw [hereOnly, List.append_nil] at here
    rw [hereOnly, List.nil_append, here, Option.map_some] at alone
    rwa [← Option.some.inj alone]
  · right
    refine ⟨other, inside, ⟨first, straddled, before, rest, frontEq, nonempty, rfl, avoids, here,
      reads⟩, ?_⟩
    rw [split] at there
    exact outer.stop_eq avoids there reads

/-- What is found in a text is found if more stands behind it. -/
theorem Outer.mem_search_append (outer : Outer frame moved pattern pattern)
    (nothing : frame.front = []) (member : found ∈ search pattern (encode characters)) :
    ⟨found.span, moved found.value⟩ ∈ search pattern (encode (characters ++ frame.behind)) := by
  have same : frame.around characters = characters ++ frame.behind := by
    rw [Frame.around, nothing, List.nil_append]
  have offset : frame.offset = 0 := by
    rw [Frame.offset, nothing]
    rfl
  rcases outer.mem_search_around member with here | ⟨other, -, swallows, -⟩
  · rwa [same, offset] at here
  · obtain ⟨first, second, -, -, frontEq, nonempty, -⟩ := swallows
    rw [nothing] at frontEq
    exact absurd (List.append_eq_nil_iff.mp frontEq.symm).2 nonempty

end BareComponent.Pattern
