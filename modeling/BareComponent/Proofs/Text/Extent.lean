import BareComponent.Proofs.Text.Nesting

/-! # Stretches that end where their brackets do

What stands in brackets ends at the bracket that closes them, and an expression at the first comma,
semicolon, newline or closing bracket at its own depth. Either way a stretch goes on up to the first
ending byte at depth zero, or up to the end of the text if none comes. Of two such stretches that
meet, the one that begins later ends first, unless both begin at one depth and the ending byte of the
other does not end it.
-/

namespace BareComponent.Text

/-- Whether no byte of some content ends it at the depth at which it begins. -/
def Unended (ends : UInt8 → Bool) (content : Text) : Prop :=
  ∀ front b behind, content = front ++ b :: behind → ends b = true → nesting? 0 front ≠ some 0

/-- Whether a stretch of a text goes on up to the first ending byte at its depth, or up to the end of
the text. -/
def Extent (ends : UInt8 → Bool) (text : Text) (span : Span) : Prop :=
  ∃ front content behind, text = front ++ content ++ behind ∧
    span = ⟨front.length, (front ++ content).length⟩ ∧ Unended ends content ∧
    ∀ b ∈ behind.head?, ends b = true ∧ nesting? 0 content = some 0

/-- Whether a stretch of a text stands behind an opening bracket. -/
def Opened (text : Text) (span : Span) : Prop :=
  ∃ front b behind, text = front ++ b :: behind ∧ Byte.isOpen b = true ∧
    span.start = front.length + 1

/-- The depth is not zero behind an opening bracket. -/
theorem nesting?_append_open {b : UInt8} (opens : Byte.isOpen b = true) (depth : Nat)
    (front : Text) : nesting? depth (front ++ [b]) ≠ some 0 := by
  rw [nesting?_append]
  cases nesting? depth front with
  | none => simp
  | some reached =>
    have step : nest? reached b = some (reached + 1) := by
      unfold nest? depthStep
      grind [isOpen_of_isClose]
    simp [nesting?_cons, step]

section Unended

variable {ends : UInt8 → Bool} {content front behind : Text}

/-- No bracket in front of a place in an unended content closes what is not open. -/
theorem Unended.exists_nesting? (unended : Unended ends (front ++ behind))
    (closes : ∀ b, Byte.isClose b = true → ends b = true) :
    ∃ depth, nesting? 0 front = some depth := by
  refine Option.ne_none_iff_exists'.mp fun stuck => ?_
  obtain ⟨inner, b, rest, rfl, reads, bracket⟩ := nesting?_eq_none_iff.mp stuck
  exact unended inner b (rest ++ behind) (by simp) (closes b bracket) reads

/-- A balanced text that ends inside an unended content begins and ends at the depth of the
content. -/
theorem Unended.of_balanced {between : Text} (unended : Unended ends (front ++ behind))
    (closes : ∀ b, Byte.isClose b = true → ends b = true)
    (balanced : nesting? 0 (between ++ front) = some 0) :
    nesting? 0 between = some 0 ∧ nesting? 0 front = some 0 := by
  obtain ⟨depth, reads⟩ := unended.exists_nesting? closes
  rw [nesting?_append, Option.bind_eq_some_iff] at balanced
  obtain ⟨reached, outer, rest⟩ := balanced
  have deeper := nesting?_add reads reached
  rw [Nat.zero_add, rest, Option.some_inj] at deeper
  obtain ⟨rfl, rfl⟩ : depth = 0 ∧ reached = 0 := by omega
  exact ⟨outer, reads⟩

theorem unended_of_balanced (balanced : nesting? 0 content = some 0) :
    Unended Byte.isClose content := by
  rintro front b behind rfl closes reads
  have stuck : nesting? 0 (front ++ b :: behind) = none :=
    nesting?_eq_none_iff.mpr ⟨front, b, behind, rfl, reads, closes⟩
  rw [stuck] at balanced
  contradiction

end Unended

namespace Extent

variable {ends others : UInt8 → Bool} {text : Text} {span first second : Span}

theorem ordered (extent : Extent ends text span) : span.start ≤ span.stop := by
  obtain ⟨front, content, behind, -, rfl, -⟩ := extent
  simp

theorem inside (extent : Extent ends text span) : span.stop ≤ text.length := by
  obtain ⟨front, content, behind, rfl, rfl, -⟩ := extent
  simp

private theorem exists_of_length_le {front behind other rest : Text}
    (same : front ++ behind = other ++ rest) (short : front.length ≤ other.length) :
    ∃ more, other = front ++ more ∧ behind = more ++ rest := by
  rcases List.append_eq_append_iff.mp same with ⟨more, split, later⟩ | ⟨more, rfl, rfl⟩
  · exact ⟨more, split, later⟩
  · obtain rfl : more = [] := by
      rw [List.length_append] at short
      exact List.length_eq_zero_iff.mp (by omega)
    exact ⟨[], by simp, rfl⟩

private theorem exists_of_overlap (extent : Extent ends text first)
    (other : Extent others text second)
    (closes : ∀ b, Byte.isClose b = true → others b = true) (starts : first.start ≤ second.start)
    (meets : second.start ≤ first.stop) (reaches : first.stop ≤ second.stop)
    (ended : first.stop < text.length) :
    ∃ front between behind, text = front ++ between ++ behind ∧ front.length = first.start ∧
      (front ++ between).length = second.start ∧ nesting? 0 between = some 0 ∧
      (first.stop < second.stop → ∃ b, ends b = true ∧ others b = false) := by
  obtain ⟨front, content, behind, rfl, rfl, -, ending⟩ := extent
  obtain ⟨_, otherContent, rest, split, rfl, unended, -⟩ := other
  simp only [List.append_assoc] at split
  obtain ⟨between, rfl, shape⟩ := exists_of_length_le split starts
  simp only [List.length_append] at meets reaches ended ⊢
  obtain ⟨inner, rfl, later⟩ := exists_of_length_le shape.symm (by omega)
  rw [List.length_append] at reaches
  obtain ⟨reached, rfl, rfl⟩ := exists_of_length_le later.symm (by omega)
  have nonempty : reached ++ rest ≠ [] := by
    intro nothing
    simp [nothing] at ended
  obtain ⟨b, _, next⟩ := List.exists_cons_of_ne_nil nonempty
  obtain ⟨endsHere, balanced⟩ := ending b (by rw [next]; rfl)
  obtain ⟨sameDepth, reads⟩ := unended.of_balanced closes balanced
  refine ⟨front, between, inner ++ (reached ++ rest), by simp, rfl, rfl, sameDepth,
    fun goesOn => ⟨b, endsHere, ?_⟩⟩
  cases reached with
  | nil =>
    simp only [List.append_nil, List.length_append] at goesOn
    omega
  | cons c reached =>
    obtain ⟨rfl, -⟩ := List.cons.inj next
    exact by_contra fun endsThere => unended inner c reached rfl (by simpa using endsThere) reads

/-- Where the bytes that end a stretch end another, the other does not reach out of it. -/
theorem stop_le (extent : Extent ends text first) (other : Extent others text second)
    (closes : ∀ b, Byte.isClose b = true → others b = true)
    (ended : ∀ b, ends b = true → others b = true) (starts : first.start ≤ second.start)
    (meets : second.start ≤ first.stop) : second.stop ≤ first.stop := by
  by_contra reaches
  rw [Nat.not_le] at reaches
  obtain ⟨-, -, -, -, -, -, -, ending⟩ :=
    exists_of_overlap extent other closes starts meets reaches.le
      (reaches.trans_le other.inside)
  obtain ⟨b, endsHere, goesOn⟩ := ending reaches
  exact Bool.false_ne_true (goesOn.symm.trans (ended b endsHere))

/-- What opens inside a stretch is closed before the stretch ends. -/
theorem stop_lt_of_opened (extent : Extent ends text first) (other : Extent others text second)
    (closes : ∀ b, Byte.isClose b = true → others b = true) (opened : Opened text second)
    (starts : first.start < second.start) (meets : second.start ≤ first.stop)
    (ended : first.stop < text.length) : second.stop < first.stop := by
  by_contra reaches
  rw [Nat.not_lt] at reaches
  obtain ⟨front, between, behind, split, firstStart, secondStart, reads, -⟩ :=
    exists_of_overlap extent other closes starts.le meets reaches ended
  obtain ⟨before, b, rest, shape, opens, place⟩ := opened
  rcases List.eq_nil_or_concat' between with rfl | ⟨inner, c, rfl⟩
  · rw [List.append_nil] at secondStart
    omega
  · rw [← List.append_assoc, List.length_append, List.length_singleton] at secondStart
    rw [shape, ← List.append_assoc, List.append_assoc (front ++ inner)] at split
    obtain ⟨-, same⟩ := List.append_inj split (by omega)
    obtain ⟨rfl, -⟩ := List.cons.inj same
    exact nesting?_append_open opens 0 inner reads

end Extent

variable {text : Text} {position closing : Nat}

/-- What a bracket opens goes on up to the bracket that closes it. -/
theorem extent_of_closingOf? (found : text.closingOf? position = some closing) :
    Extent Byte.isClose text ⟨position + 1, closing⟩ ∧ Opened text ⟨position + 1, closing⟩ := by
  rw [closingOf?] at found
  cases shape : text.drop position with
  | nil => simp [shape] at found
  | cons b rest =>
    simp only [shape] at found
    split at found
    · next opens =>
      obtain ⟨offset, closes, rfl⟩ := Option.map_eq_some_iff.mp found
      obtain ⟨content, c, behind, rfl, rfl, reads, bracket⟩ := exists_of_closingOffset? closes
      have place : (text.take position).length = position := by
        refine List.length_take_of_le (Nat.le_of_not_lt fun beyond => ?_)
        rw [List.drop_eq_nil_of_le beyond.le] at shape
        contradiction
      have split : text = text.take position ++ b :: (content ++ c :: behind) := by
        rw [← shape, List.take_append_drop]
      refine ⟨⟨text.take position ++ [b], content, c :: behind, by simpa using split, ?_,
        unended_of_balanced reads, ?_⟩, ⟨text.take position, b, _, split, opens, by rw [place]⟩⟩
      · simp only [List.length_append, place, List.length_singleton]
      · simpa using ⟨bracket, reads⟩
    · contradiction

private theorem expressionLength_spec (depth : Nat) (text : Text) :
    ∃ content behind, text = content ++ behind ∧ content.length = expressionLength depth text ∧
      (∀ front b rest, content = front ++ b :: rest → endsExpression b = true →
        nesting? depth front ≠ some 0) ∧
      ∀ b ∈ behind.head?, endsExpression b = true ∧ nesting? depth content = some 0 := by
  induction text generalizing depth with
  | nil => exact ⟨[], [], rfl, rfl, by simp, by simp⟩
  | cons b text ih =>
    rw [expressionLength]
    split
    · next ended =>
      obtain ⟨rfl, ends⟩ := ended
      exact ⟨[], b :: text, rfl, rfl, by simp, by simpa using ends⟩
    · next goesOn =>
      have step : nest? depth b = some (depthStep depth b) := by
        refine if_neg fun stuck => goesOn ⟨stuck.2, ?_⟩
        simp [endsExpression, stuck.1]
      obtain ⟨content, behind, rfl, length, unended, ends⟩ := ih (depthStep depth b)
      refine ⟨b :: content, behind, rfl, by rw [List.length_cons, length], ?_, fun c first => ?_⟩
      · intro front c rest split endsHere
        cases front with
        | nil =>
          obtain ⟨rfl, -⟩ := List.cons.inj split
          exact fun reads => goesOn ⟨Option.some.inj reads, endsHere⟩
        | cons d front =>
          obtain ⟨rfl, later⟩ := List.cons.inj split
          rw [nesting?_cons, step, Option.bind_some]
          exact unended front c rest later endsHere
      · rw [nesting?_cons, step, Option.bind_some]
        exact ends c first

/-- An expression goes on up to the byte that ends it at its depth. -/
theorem extent_expressionEnd (inside : position ≤ text.length) :
    Extent endsExpression text ⟨position, text.expressionEnd position⟩ := by
  obtain ⟨content, behind, split, length, unended, ends⟩ :=
    expressionLength_spec 0 (text.drop position)
  have place : (text.take position).length = position := List.length_take_of_le inside
  have whole : text = text.take position ++ content ++ behind := by
    rw [List.append_assoc, ← split, List.take_append_drop]
  have bytes := congrArg List.length whole
  refine ⟨text.take position, content, behind, whole, ?_, unended, ends⟩
  rw [List.length_append, List.length_append, place] at bytes
  rw [List.length_append, place, expressionEnd, ← length, Nat.min_eq_right (by omega)]

end BareComponent.Text
