import BareComponent.Proofs.FunctionBody.Around

/-! # From parameters to a body

Behind the bracket that closes some parameters come blanks, or a return type between blanks, and then
the brace of the body. No other parenthesis opens in between.
-/

namespace BareComponent

namespace Text

variable {text : Text} {position stop i : Nat}

theorem le_skipBlanks (inside : position ≤ text.length) : position ≤ text.skipBlanks position := by
  rw [skipBlanks]
  omega

/-- What is skipped are blanks. -/
theorem exists_blank_of_lt_skipBlanks (starts : position ≤ i)
    (skipped : i < text.skipBlanks position) :
    ∃ b, text[i]? = some b ∧ Byte.isBlank b = true := by
  rw [skipBlanks] at skipped
  obtain ⟨offset, rfl⟩ := Nat.exists_eq_add_of_le starts
  have inside : offset < ((text.drop position).takeWhile Byte.isBlank).length := by omega
  have here : (text.drop position)[offset]? =
      some ((text.drop position).takeWhile Byte.isBlank)[offset] := by
    nth_rewrite 1 [← List.takeWhile_append_dropWhile (p := Byte.isBlank) (l := text.drop position)]
    rw [List.getElem?_append_left inside, List.getElem?_eq_getElem inside]
  exact ⟨_, by rw [← List.getElem?_drop, here], List.mem_takeWhile_imp (List.getElem_mem inside)⟩

/-- Skipping stops at the first byte that is no blank. -/
theorem skipBlanks_eq {b : UInt8} (starts : position ≤ stop)
    (blanks : ∀ i, position ≤ i → i < stop → ∃ b, text[i]? = some b ∧ Byte.isBlank b = true)
    (here : text[stop]? = some b) (dark : Byte.isBlank b = false) :
    text.skipBlanks position = stop := by
  obtain ⟨front, behind, rfl, rfl⟩ := exists_append_of_getElem? here
  have skipped : ∀ c ∈ front.drop position, Byte.isBlank c = true := by
    intro c member
    obtain ⟨offset, inside, rfl⟩ := List.mem_iff_getElem.mp member
    rw [List.length_drop] at inside
    obtain ⟨d, place, blank⟩ := blanks (position + offset) (Nat.le_add_right ..) (by omega)
    rw [List.getElem?_append_left (by omega)] at place
    obtain rfl := Option.some.inj ((List.getElem?_eq_getElem (by omega)).symm.trans place)
    simpa using blank
  have passed : ((front ++ b :: behind).drop position).takeWhile Byte.isBlank =
      front.drop position := by
    rw [List.drop_append_of_le_length starts, List.takeWhile_append_of_pos skipped,
      List.takeWhile_cons_of_neg (by simp [dark]), List.append_nil]
  rw [skipBlanks, passed, List.length_drop, List.length_append]
  omega

/-- A bracket that closes is no blank. -/
theorem isBlank_of_closingOf? {closing : Nat}
    (closes : text.closingOf? position = some closing) {b : UInt8}
    (here : text[closing]? = some b) : Byte.isBlank b = false := by
  obtain ⟨-, c, there, bracket⟩ := exists_of_closingOf? closes
  obtain rfl := Option.some.inj (here.symm.trans there)
  simp only [Byte.isClose, Bool.or_eq_true, beq_iff_eq] at bracket
  rcases bracket with (rfl | rfl) | rfl <;> decide

end Text

namespace FunctionBody

open Cursor Text Pattern

variable {characters : List Char} {position : Nat} {body : Span}

/-- The characters of a return type behind its colon. -/
def inReturnType : CharacterClass := .or .wordOrDollar (.oneOf ".<>[]|&, \t")

private theorem exists_of_mem_returnType {before after : List Char} {value : Unit} {cursor : Cursor}
    (member : (value, cursor) ∈ returnType (between before after)) :
    ∃ type rest, after = ':' :: (type ++ '{' :: rest) ∧
      (∀ c ∈ type, inReturnType c.toNat = true) ∧
      cursor = between (before ++ ':' :: (type ++ ['{'])) rest := by
  obtain ⟨_, _, colon, member⟩ := mem_bind.mp member
  obtain ⟨after, rfl, rfl⟩ := exists_of_mem_literal (c := ':') rfl colon
  obtain ⟨_, _, gapRead, member⟩ := mem_bind.mp member
  obtain ⟨gap, after, rfl, blank, -, rfl⟩ := mem_run.mp gapRead
  obtain ⟨_, _, firstRead, member⟩ := mem_bind.mp member
  obtain ⟨first, after, rfl, starts, rfl⟩ := mem_character.mp firstRead
  obtain ⟨_, _, othersRead, member⟩ := mem_bind.mp member
  obtain ⟨others, after, rfl, inside, -, rfl⟩ := mem_run.mp othersRead
  obtain ⟨rest, rfl, rfl⟩ := exists_of_mem_literal (c := '{') rfl member
  refine ⟨gap ++ first :: others, rest, by simp, ?_, by simp⟩
  have narrow : ∀ c ∈ [' ', '\t'], inReturnType c.toNat = true :=
    forall_mem_of_all (by decide)
  have spelled : (" \t" : Text) = encode [' ', '\t'] := rfl
  rw [spelled] at blank
  refine List.forall_mem_append.mpr ⟨fun c member => narrow c ?_, List.forall_mem_cons.mpr
    ⟨?_, inside⟩⟩
  · exact (CharacterClass.oneOf_encode (forall_mem_of_all (by decide)) c).mp (blank c member)
  · exact Bool.or_eq_true_iff.mpr (.inl (CharacterClass.wordOrDollar_of_starts starts))

/-- How the bracket that closes some parameters leads to a body: blanks come behind it, and then the
brace of the body or a return type up to that brace. -/
structure LeadsTo (text : Text) (closing next brace : Nat) (body : Span) : Prop where
  behind : closing < next
  blanks : ∀ i, closing < i → i < next → ∃ b, text[i]? = some b ∧ Byte.isBlank b = true
  ordered : next ≤ brace
  colon : next < brace → text[next]? = some Byte.colon
  type : ∀ i, next < i → i < brace → ∀ b : UInt8, b.toNat < 0x80 → inReturnType b.toNat = false →
    text[i]? ≠ some b
  braced : bracedAt? text brace = some body

/-- What is neither a blank nor part of a return type does not stand between parameters and a
body. -/
theorem LeadsTo.getElem?_ne {text : Text} {closing next brace i : Nat} {b : UInt8}
    (leads : LeadsTo text closing next brace body) (ascii : b.toNat < 0x80)
    (dark : Byte.isBlank b = false) (noColon : b ≠ Byte.colon)
    (outside : inReturnType b.toNat = false) (starts : closing < i) (stops : i < brace) :
    text[i]? ≠ some b := by
  intro here
  rcases Nat.lt_trichotomy i next with blank | rfl | type
  · obtain ⟨c, there, light⟩ := leads.blanks i starts blank
    obtain rfl := Option.some.inj (here.symm.trans there)
    rw [dark] at light
    contradiction
  · exact noColon (Option.some.inj (here.symm.trans (leads.colon stops)))
  · exact leads.type i type stops b ascii outside here

/-- A body behind parameters is led to from the bracket that closes them. -/
theorem leadsTo_of_afterParameters?
    (found : afterParameters? (encode characters) position = some body) :
    ∃ closing next brace, (encode characters).closingOf? position = some closing ∧
      LeadsTo (encode characters) closing next brace body := by
  obtain ⟨closing, closes, found⟩ := Option.bind_eq_some_iff.mp found
  obtain ⟨-, b, here, -⟩ := exists_of_closingOf? closes
  have behind : closing < (encode characters).skipBlanks (closing + 1) :=
    le_skipBlanks (List.getElem?_eq_some_iff.mp here).1
  dsimp only at found
  split at found
  · next colon =>
    obtain ⟨foundType, reads, braced⟩ := Option.bind_eq_some_iff.mp found
    obtain ⟨front, after, rfl, place⟩ :=
      (isBoundary_of_ascii ⟨characters, rfl⟩ colon (by decide)).1.exists_append
    rw [← place, encode_append, List.drop_left, Cursor.ofText_encode] at reads
    obtain ⟨_, matched, span, -⟩ := exists_of_matchAt? reads
    obtain ⟨type, rest, rfl, inside, rfl⟩ := exists_of_mem_returnType matched
    have stop : foundType.span.stop = (encode (':' :: type)).length + 1 := by
      simp only [span, position_between, List.nil_append]
      rw [← List.cons_append, encode_append, List.length_append]
      rfl
    have one : (encode (':' :: type)).length = (encode type).length + 1 := rfl
    refine ⟨closing, _, _, closes, behind, fun i => exists_blank_of_lt_skipBlanks, ?_,
      fun _ => colon, ?_, braced⟩
    · omega
    · intro i starts stops b ascii outside there
      obtain ⟨offset, rfl⟩ := Nat.exists_eq_add_of_le' starts.le
      have encoded : encode (front ++ ':' :: (type ++ '{' :: rest)) =
          encode front ++ encode (':' :: type) ++ encode ('{' :: rest) := by
        rw [← List.cons_append, encode_append, encode_append, List.append_assoc]
      rw [← place] at there starts
      rw [encoded, getElem?_around _ _ (by omega)] at there
      obtain ⟨offset, rfl⟩ := Nat.exists_eq_add_one_of_ne_zero (n := offset) (by omega)
      have there : (Byte.colon :: encode type)[offset + 1]? = some b := there
      rw [List.getElem?_cons_succ] at there
      exact not_mem_encode_of_class inside ascii outside (List.mem_of_getElem? there)
  · exact ⟨closing, _, _, closes, behind, fun i => exists_blank_of_lt_skipBlanks, le_rfl,
      fun later => absurd later (lt_irrefl _), by omega, found⟩

/-- A body behind parameters stands in braces, and no parenthesis opens in front of them. -/
theorem exists_brace_of_afterParameters?
    (found : afterParameters? (encode characters) position = some body) :
    ∃ closing brace, (encode characters).closingOf? position = some closing ∧ closing < brace ∧
      bracedAt? (encode characters) brace = some body ∧
      ∀ i, closing < i → i < brace → (encode characters)[i]? ≠ some Byte.openParen := by
  obtain ⟨closing, next, brace, closes, leads⟩ := leadsTo_of_afterParameters? found
  exact ⟨closing, brace, closes, leads.behind.trans_le leads.ordered, leads.braced,
    fun _ => leads.getElem?_ne (by decide) (by decide) (by decide) (by decide)⟩

end FunctionBody

end BareComponent
