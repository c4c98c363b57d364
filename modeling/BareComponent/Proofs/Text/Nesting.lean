import BareComponent.Proofs.Text.Replace
import BareComponent.Text.Bracket

/-! # Nesting

A text is balanced when every closing bracket in it closes an opening one and none stays open. A
closing bracket found by search is the one behind a balanced text, and the pieces of a balanced text
between separators at its top level are balanced themselves and hold no such separator.
-/

namespace BareComponent.Text

/-- The depth behind one more byte, unless it closes a bracket that is not open. -/
def nest? (depth : Nat) (b : UInt8) : Option Nat :=
  if Byte.isClose b ∧ depth = 0 then none else some (depthStep depth b)

/-- The depth behind a text that begins at `depth`, if no bracket in it closes one in vain. -/
def nesting? (depth : Nat) (text : Text) : Option Nat := text.foldlM nest? depth

/-- Whether the brackets of a text belong to each other. -/
def Balanced (text : Text) : Prop := nesting? 0 text = some 0

instance (text : Text) : Decidable (Balanced text) :=
  inferInstanceAs (Decidable (nesting? 0 text = some 0))

theorem isOpen_of_isClose {b : UInt8} (closes : Byte.isClose b = true) : Byte.isOpen b = false := by
  simp only [Byte.isClose, Bool.or_eq_true, beq_iff_eq] at closes
  rcases closes with (rfl | rfl) | rfl <;> decide

/-- A closing bracket is an ASCII character that no mask hides. -/
theorem shown_of_isClose {b : UInt8} (closes : Byte.isClose b = true) :
    b.toNat < 0x80 ∧ b ≠ Byte.space ∧ b ≠ Byte.newline := by
  simp only [Byte.isClose, Bool.or_eq_true, beq_iff_eq] at closes
  rcases closes with (rfl | rfl) | rfl <;> decide

theorem nest?_add {depth reached : Nat} {b : UInt8} (reads : nest? depth b = some reached)
    (more : Nat) : nest? (depth + more) b = some (reached + more) := by
  unfold nest? depthStep at *
  grind [isOpen_of_isClose]

@[simp] theorem nesting?_nil (depth : Nat) : nesting? depth [] = some depth := rfl

theorem nesting?_cons (depth : Nat) (b : UInt8) (rest : Text) :
    nesting? depth (b :: rest) = (nest? depth b).bind (nesting? · rest) := rfl

/-- The depth behind two texts, from the depth behind the first. -/
theorem nesting?_append (depth : Nat) (first second : Text) :
    nesting? depth (first ++ second) = (nesting? depth first).bind (nesting? · second) :=
  List.foldlM_append ..

/-- What can be read can be read deeper down. -/
theorem nesting?_add {depth reached : Nat} {text : Text}
    (reads : nesting? depth text = some reached) (more : Nat) :
    nesting? (depth + more) text = some (reached + more) := by
  induction text generalizing depth with
  | nil =>
    obtain rfl := Option.some.inj reads
    rfl
  | cons b rest ih =>
    obtain ⟨next, step, others⟩ := Option.bind_eq_some_iff.mp reads
    rw [nesting?_cons, nest?_add step, Option.bind_some, ih others]

@[simp] theorem balanced_nil : Balanced [] := rfl

/-- A balanced text does not change the depth. -/
theorem Balanced.nesting?_append {first : Text} (balanced : Balanced first) (depth : Nat)
    (second : Text) : nesting? depth (first ++ second) = nesting? depth second := by
  have deeper := nesting?_add balanced depth
  rw [Nat.zero_add] at deeper
  rw [Text.nesting?_append, deeper, Option.bind_some]

/-- A text without brackets leaves the depth as it is. -/
theorem nesting?_plain {text : Text} (depth : Nat)
    (plain : ∀ b ∈ text, Byte.isOpen b = false ∧ Byte.isClose b = false) :
    nesting? depth text = some depth := by
  induction text with
  | nil => rfl
  | cons b rest ih =>
    obtain ⟨⟨opens, closes⟩, others⟩ := List.forall_mem_cons.mp plain
    have step : nest? depth b = some depth := by simp [nest?, depthStep, opens, closes]
    rw [nesting?_cons, step, Option.bind_some, ih others]

/-- Characters of a class have no ASCII byte that is not of the class. -/
theorem not_mem_encode_of_class {members : CharacterClass} {characters : List Char}
    (inside : ∀ c ∈ characters, members c.toNat = true) {b : UInt8} (ascii : b.toNat < 0x80)
    (outside : members b.toNat = false) : b ∉ encode characters := by
  intro member
  obtain ⟨c, place, member⟩ := List.mem_flatMap.mp member
  have code := inside c place
  rw [(encodeChar_eq_singleton member ascii).2, outside] at code
  contradiction

/-- Of ASCII, white space has blanks only. -/
theorem Blank.not_mem {characters : List Char} (blank : Blank characters) {b : UInt8}
    (ascii : b.toNat < 0x80) (dark : CharacterClass.blank b.toNat = false) :
    b ∉ encode characters := not_mem_encode_of_class blank ascii dark

theorem Blank.no_brackets {characters : List Char} (blank : Blank characters) :
    ∀ b ∈ encode characters, Byte.isOpen b = false ∧ Byte.isClose b = false := by
  intro b member
  by_contra bracket
  rw [← Bool.or_eq_false_iff, Bool.not_eq_false] at bracket
  simp only [Byte.isOpen, Byte.isClose, Bool.or_eq_true, beq_iff_eq] at bracket
  rcases bracket with ((rfl | rfl) | rfl) | (rfl | rfl) | rfl
  all_goals exact absurd member (blank.not_mem (by decide) (by decide))

/-- A text cannot be read where a bracket closes what is not open. -/
theorem nesting?_eq_none_iff {depth : Nat} {text : Text} : nesting? depth text = none ↔
    ∃ content b behind, text = content ++ b :: behind ∧ nesting? depth content = some 0 ∧
      Byte.isClose b = true := by
  constructor
  · intro stuck
    induction text generalizing depth with
    | nil => simp at stuck
    | cons c rest ih =>
      cases step : nest? depth c with
      | none =>
        obtain ⟨closes, rfl⟩ : Byte.isClose c = true ∧ depth = 0 := by simpa [nest?] using step
        exact ⟨[], c, rest, rfl, rfl, closes⟩
      | some next =>
        rw [nesting?_cons, step, Option.bind_some] at stuck
        obtain ⟨content, b, behind, rfl, reads, closes⟩ := ih stuck
        exact ⟨c :: content, b, behind, rfl, by rw [nesting?_cons, step, Option.bind_some, reads],
          closes⟩
  · rintro ⟨content, b, behind, rfl, reads, closes⟩
    have stuck : nest? 0 b = none := by simp [nest?, closes]
    rw [nesting?_append, reads, Option.bind_some, nesting?_cons, stuck, Option.bind_none]

section Closing

variable {depth : Nat} {content behind text : Text} {b : UInt8}

private theorem closingOffset?_cons {reached : Nat} (step : nest? depth b = some reached)
    (rest : Text) : closingOffset? (depth + 1) (b :: rest) =
      (closingOffset? (reached + 1) rest).map (· + 1) := by
  have deeper : depthStep (depth + 1) b = reached + 1 := by
    unfold nest? depthStep at *
    grind [isOpen_of_isClose]
  rw [closingOffset?, deeper, if_neg fun found => Nat.succ_ne_zero _ found.2]

/-- What is balanced is closed by the bracket behind it. -/
theorem closingOffset?_append (reads : nesting? depth content = some 0)
    (closes : Byte.isClose b = true) :
    closingOffset? (depth + 1) (content ++ b :: behind) = some content.length := by
  induction content generalizing depth with
  | nil =>
    obtain rfl := Option.some.inj reads
    have reached : depthStep 1 b = 0 := by simp [depthStep, closes, isOpen_of_isClose closes]
    simp [closingOffset?, closes, reached]
  | cons c content ih =>
    obtain ⟨next, step, others⟩ := Option.bind_eq_some_iff.mp reads
    rw [List.cons_append, closingOffset?_cons step, ih others]
    rfl

/-- A closing bracket stands behind what is balanced. -/
theorem exists_of_closingOffset? {offset : Nat}
    (found : closingOffset? (depth + 1) text = some offset) :
    ∃ content b behind, text = content ++ b :: behind ∧ content.length = offset ∧
      nesting? depth content = some 0 ∧ Byte.isClose b = true := by
  induction text generalizing depth offset with
  | nil => simp [closingOffset?] at found
  | cons c rest ih =>
    cases step : nest? depth c with
    | none =>
      obtain ⟨closes, rfl⟩ : Byte.isClose c = true ∧ depth = 0 := by simpa [nest?] using step
      have reached : depthStep 1 c = 0 := by simp [depthStep, closes, isOpen_of_isClose closes]
      refine ⟨[], c, rest, rfl, ?_, rfl, closes⟩
      simpa [closingOffset?, closes, reached] using found
    | some next =>
      rw [closingOffset?_cons step, Option.map_eq_some_iff] at found
      obtain ⟨offset, found, rfl⟩ := found
      obtain ⟨content, b, behind, rfl, rfl, reads, closes⟩ := ih found
      exact ⟨c :: content, b, behind, rfl, rfl,
        by rw [nesting?_cons, step, Option.bind_some, reads], closes⟩

/-- What closes a bracket is a closing bracket behind it. -/
theorem exists_of_closingOf? {position closing : Nat}
    (found : text.closingOf? position = some closing) :
    position < closing ∧ ∃ b, text[closing]? = some b ∧ Byte.isClose b = true := by
  rw [Text.closingOf?] at found
  cases shape : text.drop position with
  | nil => simp [shape] at found
  | cons b rest =>
    simp only [shape] at found
    split at found
    · obtain ⟨offset, closes, rfl⟩ := Option.map_eq_some_iff.mp found
      obtain ⟨content, c, behind, rfl, rfl, -, bracket⟩ := exists_of_closingOffset? closes
      refine ⟨by omega, c, ?_, bracket⟩
      rw [Nat.add_assoc, ← List.getElem?_drop, shape]
      simp [Nat.add_comm 1]
    · contradiction

/-- Only one bracket closes what is open. -/
theorem closing_unique {other rest : Text} {c : UInt8}
    (same : content ++ b :: behind = other ++ c :: rest) (reads : nesting? depth content = some 0)
    (closes : Byte.isClose b = true) (otherReads : nesting? depth other = some 0)
    (otherCloses : Byte.isClose c = true) : content = other ∧ b = c ∧ behind = rest := by
  have first : closingOffset? (depth + 1) (content ++ b :: behind) = some content.length :=
    closingOffset?_append reads closes
  rw [same, closingOffset?_append otherReads otherCloses] at first
  obtain ⟨contents, restEq⟩ := List.append_inj same (Option.some.inj first).symm
  exact ⟨contents, List.cons.inj restEq⟩

end Closing

section Pieces

variable {separator : UInt8} {depth reached : Nat} {piece : Text}

private theorem topLevelOffset?_cons {b : UInt8} {next : Nat} (step : nest? depth b = some next)
    (rest : Text) (absent : topLevelOffset? separator depth [b] = none) :
    topLevelOffset? separator depth (b :: rest) =
      (topLevelOffset? separator next rest).map (· + 1) := by
  unfold nest? depthStep at step
  rw [topLevelOffset?] at absent ⊢
  grind [depthStep]

private theorem topLevelOffset?_singleton {b : UInt8} {rest : Text}
    (absent : topLevelOffset? separator depth (b :: rest) = none) :
    topLevelOffset? separator depth [b] = none := by
  rw [topLevelOffset?] at absent ⊢
  split at absent
  · simp [*, topLevelOffset?]
  · split at absent
    · contradiction
    · simp [*, topLevelOffset?]

theorem topLevelOffset?_here {b : UInt8} {offset : Nat}
    (found : topLevelOffset? separator depth [b] = some offset) (rest : Text) :
    topLevelOffset? separator depth (b :: rest) = some 0 := by
  rw [topLevelOffset?] at found ⊢
  split at found
  · simp [topLevelOffset?] at found
  · next plain =>
    split at found
    · next here => rw [if_neg plain, if_pos here]
    · simp [topLevelOffset?] at found

/-- A search for a separator goes through what holds none. -/
theorem topLevelOffset?_append (reads : nesting? depth piece = some reached)
    (absent : topLevelOffset? separator depth piece = none) (rest : Text) :
    topLevelOffset? separator depth (piece ++ rest) =
      (topLevelOffset? separator reached rest).map (· + piece.length) := by
  induction piece generalizing depth with
  | nil =>
    obtain rfl := Option.some.inj reads
    simp
  | cons b piece ih =>
    obtain ⟨next, step, others⟩ := Option.bind_eq_some_iff.mp reads
    have first := topLevelOffset?_singleton absent
    rw [topLevelOffset?_cons step piece first, Option.map_eq_none_iff] at absent
    rw [List.cons_append, topLevelOffset?_cons step _ first, ih others absent, Option.map_map]
    rfl

/-- Inside a bracket nothing is at the top level. -/
theorem topLevelOffset?_inside (separator : UInt8) {text : Text}
    (reads : nesting? depth text = some reached) (outer : Nat) :
    topLevelOffset? separator (depth + (outer + 1)) text = none := by
  induction text generalizing depth with
  | nil => rfl
  | cons b rest ih =>
    obtain ⟨next, step, others⟩ := Option.bind_eq_some_iff.mp reads
    have absent : topLevelOffset? separator (depth + (outer + 1)) [b] = none := by
      simp [topLevelOffset?]
    rw [topLevelOffset?_cons (nest?_add step (outer + 1)) rest absent, ih others, Option.map_none]

theorem topLevelOffset?_eq_none {text : Text} (absent : separator ∉ text) :
    topLevelOffset? separator depth text = none := by
  induction text generalizing depth with
  | nil => rfl
  | cons b rest ih =>
    obtain ⟨other, absent⟩ := not_or.mp (mt List.mem_cons.mpr absent)
    rw [topLevelOffset?, if_neg (c := b = separator ∧ _) fun found => other found.1.symm]
    simp [ih absent]

/-- What holds no separator does not matter to a search behind which it stands. -/
theorem topLevelOffset?_append_of_not_mem {text rest : Text} (absent : separator ∉ rest) :
    topLevelOffset? separator depth (text ++ rest) = topLevelOffset? separator depth text := by
  induction text generalizing depth with
  | nil => exact topLevelOffset?_eq_none absent
  | cons b text ih => rw [List.cons_append, topLevelOffset?, topLevelOffset?, ih, ih]

theorem exists_separator {text : Text} {offset : Nat}
    (found : topLevelOffset? separator depth text = some offset) :
    ∃ piece rest, text = piece ++ separator :: rest ∧ piece.length = offset := by
  induction text generalizing depth offset with
  | nil => simp [topLevelOffset?] at found
  | cons b text ih =>
    have later {next : Nat}
        (mapped : (topLevelOffset? separator next text).map (· + 1) = some offset) :
        ∃ piece rest, b :: text = piece ++ separator :: rest ∧ piece.length = offset := by
      obtain ⟨offset, later, rfl⟩ := Option.map_eq_some_iff.mp mapped
      obtain ⟨piece, rest, rfl, rfl⟩ := ih later
      exact ⟨b :: piece, rest, rfl, rfl⟩
    rw [topLevelOffset?] at found
    split at found
    · exact later found
    · split at found
      · next here =>
        obtain ⟨rfl, -⟩ := here
        exact ⟨[], text, rfl, Option.some.inj found⟩
      · exact later found

/-- A separator at the top level stands behind a balanced piece that has none. -/
theorem exists_of_topLevelOffset? {text : Text} {offset : Nat}
    (reads : nesting? depth text = some reached)
    (found : topLevelOffset? separator depth text = some offset) :
    ∃ piece rest, text = piece ++ separator :: rest ∧ piece.length = offset ∧
      nesting? depth piece = some 0 ∧ topLevelOffset? separator depth piece = none := by
  induction text generalizing depth offset with
  | nil => simp [topLevelOffset?] at found
  | cons b rest ih =>
    obtain ⟨next, step, others⟩ := Option.bind_eq_some_iff.mp reads
    cases first : topLevelOffset? separator depth [b] with
    | none =>
      rw [topLevelOffset?_cons step rest first, Option.map_eq_some_iff] at found
      obtain ⟨offset, found, rfl⟩ := found
      obtain ⟨piece, behind, rfl, rfl, ends, absent⟩ := ih others found
      refine ⟨b :: piece, behind, rfl, rfl, ?_, ?_⟩
      · rw [nesting?_cons, step, Option.bind_some, ends]
      · rw [topLevelOffset?_cons step piece first, absent, Option.map_none]
    | some here =>
      rw [topLevelOffset?] at first found
      split at first
      · simp [topLevelOffset?] at first
      · next plain =>
        split at first
        · next here =>
          obtain ⟨rfl, rfl⟩ := here
          rw [if_neg plain, if_pos ⟨rfl, rfl⟩] at found
          exact ⟨[], rest, rfl, Option.some.inj found, rfl, rfl⟩
        · simp [topLevelOffset?] at first

private theorem piecesFrom_append (reads : nesting? depth piece = some reached)
    (absent : topLevelOffset? separator depth piece = none) (start position : Nat) (rest : Text) :
    piecesFrom separator depth start position (piece ++ rest) =
      piecesFrom separator reached start (position + piece.length) rest := by
  induction piece generalizing depth position with
  | nil =>
    obtain rfl := Option.some.inj reads
    rfl
  | cons b piece ih =>
    obtain ⟨next, step, others⟩ := Option.bind_eq_some_iff.mp reads
    have first := topLevelOffset?_singleton absent
    rw [topLevelOffset?_cons step piece first, Option.map_eq_none_iff] at absent
    have passes : piecesFrom separator depth start position (b :: (piece ++ rest)) =
        piecesFrom separator next start (position + 1) (piece ++ rest) := by
      unfold nest? depthStep at step
      rw [topLevelOffset?] at first
      rw [piecesFrom]
      grind [depthStep]
    rw [List.cons_append, passes, ih others absent, List.length_cons, Nat.add_assoc,
      Nat.add_comm 1]

/-- Whether a text is balanced and has no separator at its top level. -/
def Solid (separator : UInt8) (text : Text) : Prop :=
  Balanced text ∧ topLevelOffset? separator 0 text = none

/-- Where pieces stand that are put together with a separator byte between neighbours. -/
def spansOf (start : Nat) : List Text → List Span
  | [] => []
  | piece :: pieces => ⟨start, start + piece.length⟩ :: spansOf (start + piece.length + 1) pieces

theorem join_cons {next : Text} (first : Text) (pieces : List Text) :
    join [separator] (first :: next :: pieces) =
      first ++ separator :: join [separator] (next :: pieces) := by
  simp [join]

theorem spansOf_congr {pieces others : List Text}
    (lengths : pieces.map List.length = others.map List.length) (start : Nat) :
    spansOf start pieces = spansOf start others := by
  induction pieces generalizing others start with
  | nil => simp_all
  | cons piece pieces ih =>
    cases others with
    | nil => simp at lengths
    | cons other others =>
      obtain ⟨same, lengths⟩ := List.cons.inj lengths
      rw [spansOf, spansOf, same, ih lengths]

/-- The spans of some pieces cut them out again. -/
theorem map_slice_spansOf (separator : UInt8) (copied : Text) (pieces : List Text) :
    (spansOf copied.length pieces).map (copied ++ join [separator] pieces).slice = pieces := by
  induction pieces generalizing copied with
  | nil => rfl
  | cons piece pieces ih =>
    cases pieces with
    | nil =>
      have cut : slice (copied ++ piece ++ [])
          ⟨copied.length, copied.length + piece.length⟩ = piece := slice_append [] rfl rfl
      rw [List.append_nil] at cut
      simp [spansOf, join, cut]
    | cons next pieces =>
      have cut : slice (copied ++ piece ++ separator :: join [separator] (next :: pieces))
          ⟨copied.length, copied.length + piece.length⟩ = piece := slice_append _ rfl rfl
      have others := ih (copied ++ piece ++ [separator])
      rw [List.append_assoc] at cut
      simp only [List.append_assoc, List.length_append, List.length_singleton,
        List.singleton_append, ← Nat.add_assoc] at others
      rw [spansOf, List.map_cons, join_cons, cut, others]

variable (plain : Byte.isOpen separator = false ∧ Byte.isClose separator = false)
include plain

private theorem piecesFrom_join {pieces : List Text} (nonempty : pieces ≠ [])
    (solid : ∀ piece ∈ pieces, Solid separator piece) (start : Nat) :
    piecesFrom separator 0 start start (join [separator] pieces) = spansOf start pieces := by
  induction pieces generalizing start with
  | nil => exact absurd rfl nonempty
  | cons piece pieces ih =>
    obtain ⟨⟨balanced, absent⟩, others⟩ := List.forall_mem_cons.mp solid
    cases pieces with
    | nil =>
      have whole := piecesFrom_append balanced absent start start []
      rw [List.append_nil] at whole
      rw [join, whole]
      rfl
    | cons next pieces =>
      have cut (rest : Text) (position : Nat) :
          piecesFrom separator 0 start position (separator :: rest) =
            ⟨start, position⟩ :: piecesFrom separator 0 (position + 1) (position + 1) rest := by
        rw [piecesFrom]
        simp [plain.1, plain.2]
      rw [join_cons, piecesFrom_append balanced absent, cut, ih (List.cons_ne_nil _ _) others]
      rfl

theorem balanced_join {pieces : List Text} (solid : ∀ piece ∈ pieces, Solid separator piece) :
    Balanced (join [separator] pieces) := by
  induction pieces with
  | nil => exact balanced_nil
  | cons piece pieces ih =>
    obtain ⟨⟨balanced, -⟩, others⟩ := List.forall_mem_cons.mp solid
    cases pieces with
    | nil => simpa [join] using balanced
    | cons next pieces =>
      have step : nest? 0 separator = some 0 := by simp [nest?, depthStep, plain]
      rw [join_cons, Balanced, balanced.nesting?_append, nesting?_cons, step, Option.bind_some]
      exact ih others

/-- Solid pieces, joined, are cut into these pieces. -/
theorem topLevelPieces_join {pieces : List Text} (nonempty : pieces ≠ [])
    (solid : ∀ piece ∈ pieces, Solid separator piece) :
    topLevelPieces (join [separator] pieces) separator = spansOf 0 pieces :=
  piecesFrom_join plain nonempty solid 0

/-- A balanced text is made of solid pieces. -/
theorem exists_pieces {text : Text} (balanced : Balanced text) :
    ∃ pieces, pieces ≠ [] ∧ (∀ piece ∈ pieces, Solid separator piece) ∧
      text = join [separator] pieces := by
  induction length : text.length using Nat.strongRecOn generalizing text with
  | ind count ih =>
    cases found : topLevelOffset? separator 0 text with
    | none => exact ⟨[text], by simp, by simpa using ⟨balanced, found⟩, rfl⟩
    | some offset =>
      obtain ⟨piece, rest, rfl, -, ends, absent⟩ := exists_of_topLevelOffset? balanced found
      have behind : Balanced rest := by
        have step : nest? 0 separator = some 0 := by simp [nest?, depthStep, plain]
        rw [Balanced, nesting?_append, ends, Option.bind_some, nesting?_cons, step] at balanced
        exact balanced
      have shorter : rest.length < count := by
        rw [← length]
        simp
        omega
      obtain ⟨pieces, nonempty, solid, rfl⟩ := ih _ shorter behind rfl
      obtain ⟨next, pieces, rfl⟩ := List.exists_cons_of_ne_nil nonempty
      exact ⟨piece :: next :: pieces, by simp, List.forall_mem_cons.mpr ⟨⟨ends, absent⟩, solid⟩,
        (join_cons ..).symm⟩

end Pieces

end BareComponent.Text
