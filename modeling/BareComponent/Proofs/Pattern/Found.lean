import BareComponent.Proofs.Pattern.Encoded

/-! # What a search finds

Each match that a search answers is the preferred one at some cursor, and the matches stand one
behind the other. In a text in UTF-8 the cursor stands between two characters, so what a pattern can
match there tells what was found.
-/

namespace BareComponent

namespace Pattern

open Cursor

variable {α : Type} {pattern : Pattern α} {found : Match α}

/-- The preferred match at a cursor is a match there that consumes something. -/
theorem exists_of_matchAt? {start : Cursor} (here : matchAt? pattern start = some found) :
    ∃ next, (found.value, next) ∈ pattern start ∧
      found.span = ⟨start.position, next.position⟩ ∧ start.position < next.position := by
  unfold matchAt? at here
  split at here
  · contradiction
  · next value next others shape =>
    split at here
    · next forward =>
      obtain rfl := Option.some.inj here
      exact ⟨next, by simp [shape], rfl, forward⟩
    · contradiction

/-- Where there is only one way to match, it is the preferred one. -/
theorem matchAt?_of_unique {before first rest : List Char} {value : α} (nonempty : first ≠ [])
    (matched : (value, between (before ++ first) rest) ∈ pattern (between before (first ++ rest)))
    (unique : ∀ other cursor, (other, cursor) ∈ pattern (between before (first ++ rest)) →
      other = value ∧ cursor = between (before ++ first) rest) :
    matchAt? pattern (between before (first ++ rest)) =
      some ⟨⟨(Text.encode before).length, (Text.encode (before ++ first)).length⟩, value⟩ := by
  obtain ⟨preferred, here⟩ := matchAt?_eq_some nonempty matched fun other cursor member =>
    (unique other cursor member).2
  obtain ⟨next, member, -⟩ := exists_of_matchAt? here
  obtain ⟨rfl, -⟩ := unique preferred next member
  exact here

private theorem exists_of_mem_searchFrom {skip : Nat} {before text : Text}
    (member : found ∈ searchFrom pattern skip before text) :
    ∃ front b rest, text = front ++ b :: rest ∧ Byte.continuesCharacter b = false ∧
      matchAt? pattern ⟨front.reverse ++ before, b :: rest⟩ = some found := by
  induction text generalizing skip before with
  | nil => simp [searchFrom] at member
  | cons b rest ih =>
    have later {skip : Nat} (member : found ∈ searchFrom pattern skip (b :: before) rest) :
        ∃ front c behind, b :: rest = front ++ c :: behind ∧
          Byte.continuesCharacter c = false ∧
          matchAt? pattern ⟨front.reverse ++ before, c :: behind⟩ = some found := by
      obtain ⟨front, c, behind, rfl, begins, here⟩ := ih member
      exact ⟨b :: front, c, behind, rfl, begins, by simpa using here⟩
    cases skip with
    | succ skip => exact later member
    | zero =>
      rw [searchFrom] at member
      split at member
      · exact later member
      · next begins =>
        split at member
        · exact later member
        · next hit here =>
          rcases List.mem_cons.mp member with rfl | member
          · exact ⟨[], b, rest, rfl, by simpa using begins, here⟩
          · exact later member

/-- What is found in an encoded text is the preferred match between two of its characters. -/
theorem exists_of_mem_search {characters : List Char}
    (member : found ∈ search pattern (Text.encode characters)) :
    ∃ before after, characters = before ++ after ∧
      matchAt? pattern (between before after) = some found := by
  obtain ⟨front, b, rest, split, begins, here⟩ := exists_of_mem_searchFrom member
  obtain ⟨before, after, rfl, rfl, afterEq⟩ := Text.encode_eq_append_of_begins split begins
  refine ⟨before, after, rfl, ?_⟩
  rwa [between, afterEq, ← List.append_nil (Text.encode before).reverse]

/-- A search passes characters at none of which anything matches. -/
theorem searchBehind_of_fails {before passed rest : List Char}
    (fails : ∀ front behind, passed = front ++ behind → behind ≠ [] → ∀ value cursor,
      (value, cursor) ∉ pattern (between (before ++ front) (behind ++ rest))) :
    searchBehind pattern before (passed ++ rest) =
      searchBehind pattern (before ++ passed) rest := by
  induction passed generalizing before with
  | nil => simp
  | cons c passed ih =>
    have first := fails [] (c :: passed) rfl (by simp)
    rw [List.append_nil, List.cons_append] at first
    have step := searchBehind_of_none (matchAt?_eq_none first)
    rw [List.cons_append, step, ih, List.append_assoc]
    · rfl
    · rintro front behind rfl nonempty
      simpa using fails (c :: front) behind rfl nonempty

/-- Where a search finds nothing, nothing is taken anywhere. -/
theorem matchAt?_eq_none_of_search {before front behind : List Char}
    (nothing : searchBehind pattern before (front ++ behind) = []) (nonempty : behind ≠ []) :
    matchAt? pattern (between (before ++ front) behind) = none := by
  have first {before rest : List Char} {c : Char}
      (nothing : searchBehind pattern before (c :: rest) = []) :
      matchAt? pattern (between before (c :: rest)) = none := by
    by_contra here
    obtain ⟨found, here⟩ := Option.ne_none_iff_exists'.mp here
    have head := head?_searchBehind here
    rw [nothing] at head
    contradiction
  induction front generalizing before with
  | nil =>
    obtain ⟨c, rest, rfl⟩ := List.exists_cons_of_ne_nil nonempty
    rw [List.append_nil]
    exact first nothing
  | cons d front ih =>
    rw [List.cons_append] at nothing
    have next := searchBehind_of_none (first nothing)
    rw [next] at nothing
    simpa using ih nothing

/-- A pattern that never stops where it starts is taken wherever it matches. -/
theorem matchAt?_ne_none {start : Cursor} {value : α} {next : Cursor}
    (member : (value, next) ∈ pattern start)
    (forward : ∀ other stop, (other, stop) ∈ pattern start → start.position < stop.position) :
    matchAt? pattern start ≠ none := by
  cases shape : pattern start with
  | nil => simp [shape] at member
  | cons head others =>
    obtain ⟨preferred, stop⟩ := head
    have ahead := forward preferred stop (by rw [shape]; exact List.mem_cons_self)
    simp [matchAt?, shape, ahead]

end Pattern

end BareComponent
