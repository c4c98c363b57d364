import BareComponent.SourceOrder

/-! # Sorting things that were found

Sorting neither adds nor loses anything. What is sorted begins in rising order, and things that
begin at the same place keep the order in which they were found, so they stand together as they
stood in the list. Where each thing is kept once, it is kept where it stands first.
-/

namespace BareComponent.SourceOrder

variable {α : Type} {start : α → Nat} {item other : α} {items sorted : List α}

private theorem perm_insert (start : α → Nat) (item : α) (sorted : List α) :
    (insert start item sorted).Perm (item :: sorted) := by
  induction sorted with
  | nil => exact .refl _
  | cons first sorted ih =>
    rw [insert]
    split
    · exact .refl _
    · exact (ih.cons first).trans (.swap item first sorted)

/-- Sorting only changes the order. -/
theorem perm_sort (start : α → Nat) (items : List α) : (sort start items).Perm items := by
  have all (sorted : List α) :
      (items.foldl (fun sorted item => insert start item sorted) sorted).Perm
        (items ++ sorted) := by
    induction items generalizing sorted with
    | nil => exact .refl _
    | cons item items ih =>
      exact (ih _).trans (((perm_insert start item sorted).append_left items).trans
        List.perm_middle)
  simpa [sort] using all []

/-- Sorting adds nothing. -/
theorem mem_of_mem_sort (member : item ∈ sort start items) : item ∈ items :=
  (perm_sort start items).mem_iff.mp member

/-- Sorting loses nothing. -/
theorem mem_sort_of_mem (member : item ∈ items) : item ∈ sort start items :=
  (perm_sort start items).mem_iff.mpr member

/-- Whether things begin in rising order. -/
def Rising (start : α → Nat) (items : List α) : Prop :=
  items.Pairwise fun first second => start first ≤ start second

private theorem rising_insert (rising : Rising start sorted) :
    Rising start (insert start item sorted) := by
  induction sorted with
  | nil => exact List.pairwise_singleton _ _
  | cons first sorted ih =>
    obtain ⟨least, others⟩ := List.pairwise_cons.mp rising
    rw [insert]
    split
    · next earlier =>
      refine List.pairwise_cons.mpr ⟨fun other member => ?_, rising⟩
      rcases List.mem_cons.mp member with rfl | later
      · exact Nat.le_of_lt earlier
      · exact Nat.le_trans (Nat.le_of_lt earlier) (least other later)
    · next behind =>
      refine List.pairwise_cons.mpr ⟨fun other member => ?_, ih others⟩
      rcases List.mem_cons.mp ((perm_insert start item sorted).mem_iff.mp member) with rfl | later
      · exact Nat.le_of_not_lt behind
      · exact least other later

/-- What is sorted rises. -/
theorem rising_sort (items : List α) : Rising start (sort start items) := by
  have all (sorted : List α) (rising : Rising start sorted) :
      Rising start (items.foldl (fun sorted item => insert start item sorted) sorted) := by
    induction items generalizing sorted with
    | nil => exact rising
    | cons item items ih => exact ih _ (rising_insert rising)
  exact all [] List.Pairwise.nil

section Stable

variable {place : Nat}

private theorem filter_insert (rising : Rising start sorted) :
    (insert start item sorted).filter (start · == place) =
      sorted.filter (start · == place) ++ [item].filter (start · == place) := by
  induction sorted with
  | nil => rfl
  | cons first sorted ih =>
    obtain ⟨least, others⟩ := List.pairwise_cons.mp rising
    rw [insert]
    split
    · next earlier =>
      by_cases here : start item = place
      · have nothing : (first :: sorted).filter (start · == place) = [] := by
          refine List.filter_eq_nil_iff.mpr fun other member => ?_
          rw [beq_iff_eq]
          rcases List.mem_cons.mp member with rfl | later
          · omega
          · have := least other later
            omega
        rw [List.filter_cons, if_pos (by simpa using here), nothing]
        simp [here]
      · simp [here]
    · rw [List.filter_cons, List.filter_cons, ih others]
      split <;> rfl

/-- What begins at one place keeps its order. -/
theorem filter_sort (items : List α) :
    (sort start items).filter (start · == place) = items.filter (start · == place) := by
  have all (sorted : List α) (rising : Rising start sorted) :
      (items.foldl (fun sorted item => insert start item sorted) sorted).filter
          (start · == place) =
        sorted.filter (start · == place) ++ items.filter (start · == place) := by
    induction items generalizing sorted with
    | nil => simp
    | cons item items ih =>
      rw [List.foldl_cons, ih _ (rising_insert rising), filter_insert rising, List.append_assoc,
        ← List.filter_append, List.singleton_append]
  exact all [] List.Pairwise.nil

private theorem Rising.exists_parts {items : List α} (rising : Rising start items) :
    ∃ earlier later, items = earlier ++ items.filter (start · == place) ++ later ∧
      (∀ item ∈ earlier, start item < place) ∧ ∀ item ∈ later, place < start item := by
  induction items with
  | nil => exact ⟨[], [], rfl, by simp, by simp⟩
  | cons first items ih =>
    obtain ⟨least, others⟩ := List.pairwise_cons.mp rising
    obtain ⟨earlier, later, split, inFront, behind⟩ := ih others
    rcases Nat.lt_trichotomy (start first) place with before | here | after
    · refine ⟨first :: earlier, later, ?_, List.forall_mem_cons.mpr ⟨before, inFront⟩, behind⟩
      rw [List.filter_cons, if_neg (by simpa using Nat.ne_of_lt before), List.cons_append,
        List.cons_append, ← split]
    · have nothing : earlier = [] := by
        refine List.eq_nil_iff_forall_not_mem.mpr fun item member => ?_
        have inside : item ∈ items :=
          split ▸ List.mem_append_left _ (List.mem_append_left _ member)
        have := least item inside
        have := inFront item member
        omega
      rw [nothing, List.nil_append] at split
      refine ⟨[], later, ?_, by simp, behind⟩
      rw [List.filter_cons, if_pos (by simpa using here), List.nil_append, List.cons_append,
        ← split]
    · have beyond : ∀ item ∈ first :: items, place < start item :=
        List.forall_mem_cons.mpr
          ⟨after, fun item member => Nat.lt_of_lt_of_le after (least item member)⟩
      have nothing : (first :: items).filter (start · == place) = [] :=
        List.filter_eq_nil_iff.mpr fun item member => by
          simpa using Nat.ne_of_gt (beyond item member)
      exact ⟨[], first :: items, by rw [nothing, List.nil_append, List.nil_append], by simp, beyond⟩

/-- Sorted, things fall into those that begin earlier than a place, those that begin there, and
those that begin later. -/
theorem exists_parts (start : α → Nat) (items : List α) (place : Nat) :
    ∃ earlier later, sort start items = earlier ++ items.filter (start · == place) ++ later ∧
      (∀ item ∈ earlier, start item < place) ∧ ∀ item ∈ later, place < start item := by
  have rising : Rising start (sort start items) := rising_sort items
  obtain ⟨earlier, later, split, others⟩ := @Rising.exists_parts _ _ place _ rising
  rw [filter_sort] at split
  exact ⟨earlier, later, split, others⟩

end Stable

section Once

/-- Nothing is left twice. -/
theorem nodup_eraseDups [BEq α] [LawfulBEq α] (items : List α) : items.eraseDups.Nodup := by
  induction size : items.length using Nat.strongRecOn generalizing items with
  | ind size ih =>
    subst size
    cases items with
    | nil => exact List.nodup_nil
    | cons item items =>
      rw [List.eraseDups_cons]
      refine List.nodup_cons.mpr ⟨by simp, ih _ ?_ _ rfl⟩
      exact Nat.lt_succ_of_le (List.length_filter_le ..)

/-- Of two things, the one that stands first earlier is kept earlier. -/
theorem pair_sublist_eraseDups [BEq α] [LawfulBEq α] {first second : α}
    {earlier later : List α} (firstNew : first ∉ earlier) (secondNew : second ∉ earlier)
    (apart : second ≠ first) (member : second ∈ later) :
    [first, second].Sublist (earlier ++ first :: later).eraseDups := by
  have left : (first :: later).removeAll earlier = first :: later.removeAll earlier := by
    simp [List.removeAll, firstNew]
  have kept : second ∈ ((later.removeAll earlier).filter fun item => !item == first).eraseDups := by
    simp [List.removeAll, member, secondNew, apart]
  rw [List.eraseDups_append, left, List.eraseDups_cons]
  exact ((List.singleton_sublist.mpr kept).cons_cons first).trans (List.sublist_append_right _ _)

private theorem sublist_of_sublist_append {first : α} {others front behind : List α}
    (apart : first ∉ front) (sublist : (first :: others).Sublist (front ++ behind)) :
    (first :: others).Sublist behind := by
  obtain ⟨left, right, split, leftSublist, rightSublist⟩ := List.sublist_append_iff.mp sublist
  cases left with
  | nil =>
    rw [List.nil_append] at split
    rwa [split]
  | cons item left =>
    obtain ⟨rfl, -⟩ := List.cons.inj split
    exact absurd (leftSublist.subset List.mem_cons_self) apart

/-- Things that are in order two by two are in order together, where each of them stands once. -/
theorem sublist_of_pairs {items chosen : List α} (once : items.Nodup)
    (inside : ∀ item ∈ chosen, item ∈ items)
    (ordered : chosen.Pairwise fun first second => [first, second].Sublist items) :
    chosen.Sublist items := by
  induction chosen generalizing items with
  | nil => exact List.nil_sublist items
  | cons item chosen ih =>
    obtain ⟨follows, ordered⟩ := List.pairwise_cons.mp ordered
    obtain ⟨front, behind, rfl⟩ := List.append_of_mem (inside item List.mem_cons_self)
    obtain ⟨-, behindOnce, apart⟩ := List.nodup_append.mp once
    have itemNew : item ∉ front := fun member =>
      apart item member item List.mem_cons_self rfl
    have behindOf {other : α} (member : other ∈ chosen) : other ∈ behind := by
      have pair := sublist_of_sublist_append itemNew (follows other member)
      exact List.singleton_sublist.mp (List.cons_sublist_cons.mp pair)
    have new {other : α} (member : other ∈ chosen) : other ∉ front ++ [item] := by
      intro inside
      rcases List.mem_append.mp inside with earlier | same
      · exact apart other earlier other (List.mem_cons_of_mem _ (behindOf member)) rfl
      · obtain rfl := List.mem_singleton.mp same
        exact (List.nodup_cons.mp behindOnce).1 (behindOf member)
    have rest := ih (List.nodup_cons.mp behindOnce).2 (fun other member => behindOf member)
      (ordered.imp_of_mem fun {first second} member _ pair => by
        rw [List.append_cons] at pair
        exact sublist_of_sublist_append (new member) pair)
    exact (rest.cons_cons item).trans (List.sublist_append_right _ _)

end Once

end BareComponent.SourceOrder
