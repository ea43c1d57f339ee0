import Mathlib.Data.List.Infix
import Mathlib.Data.List.TakeWhile

/-!
# Searching in texts

The first occurrence of a word in a text, and the longest beginning of a text in
a class of characters. A word whose first character does not come again in it
cannot overlap another occurrence, so a search goes past any text that has none.
-/
namespace ScosSensor.TextSearch

variable {α : Type*} [DecidableEq α]

/-- What follows the first occurrence of `word`. -/
def afterFirst (word : List α) : List α → Option (List α)
  | [] => if word = [] then some [] else none
  | c :: rest =>
    if word <+: c :: rest then some ((c :: rest).drop word.length) else afterFirst word rest

variable {word text before after rest : List α} {c : α} {p : α → Bool}

theorem afterFirst_of_prefix (word after : List α) : afterFirst word (word ++ after) = some after := by
  cases word with
  | nil => cases after <;> simp [afterFirst]
  | cons c word => simp [afterFirst]

/-- A found word is in the text. -/
theorem infix_of_afterFirst (h : afterFirst word text = some rest) :
    ∃ before, text = before ++ word ++ rest := by
  induction text with
  | nil =>
    unfold afterFirst at h
    split_ifs at h with hword
    exact ⟨[], by simp [hword, ← Option.some.inj h]⟩
  | cons c text ih =>
    unfold afterFirst at h
    split_ifs at h with hprefix
    · obtain ⟨tail, htail⟩ := hprefix
      refine ⟨[], ?_⟩
      rw [← htail, List.drop_left] at h
      rw [← htail, Option.some.inj h, List.nil_append]
    · obtain ⟨before, hbefore⟩ := ih h
      exact ⟨c :: before, by rw [hbefore]; simp⟩

theorem afterFirst_isSome_iff : (afterFirst word text).isSome ↔ word <:+: text := by
  constructor
  · intro h
    obtain ⟨rest, hrest⟩ := Option.isSome_iff_exists.mp h
    obtain ⟨before, hbefore⟩ := infix_of_afterFirst hrest
    exact ⟨before, rest, hbefore.symm⟩
  · intro h
    induction text with
    | nil => simp [afterFirst, List.infix_nil.mp h]
    | cons c text ih =>
      unfold afterFirst
      split_ifs with hprefix
      · rfl
      · exact ih ((List.infix_cons_iff.mp h).resolve_left hprefix)

/-- A word that is found in a text is found there in every longer text. -/
theorem afterFirst_append (h : afterFirst word text = some rest) (after : List α) :
    afterFirst word (text ++ after) = some (rest ++ after) := by
  induction text with
  | nil =>
    unfold afterFirst at h
    split_ifs at h with hword
    rw [hword, ← Option.some.inj h]
    exact afterFirst_of_prefix [] after
  | cons c text ih =>
    unfold afterFirst at h
    split_ifs at h with hprefix
    · obtain ⟨tail, htail⟩ := hprefix
      rw [← htail, List.drop_left] at h
      rw [← htail, ← Option.some.inj h, List.append_assoc]
      exact afterFirst_of_prefix word (tail ++ after)
    · have hlonger : ¬ word <+: c :: (text ++ after) := by
        intro hlong
        rw [← List.cons_append] at hlong
        obtain ⟨before, hbefore⟩ := infix_of_afterFirst h
        have hlength : word.length ≤ (c :: text).length := by
          rw [hbefore]
          simp only [List.length_cons, List.length_append]
          omega
        exact hprefix ((List.isPrefix_append_of_length hlength).mp hlong)
      rw [List.cons_append, afterFirst, if_neg hlonger]
      exact ih h

/-- A text without the word is passed over, up to an occurrence that follows. -/
theorem afterFirst_of_not_infix (hc : c ∉ word) (hnot : ¬ c :: word <:+: before) :
    afterFirst (c :: word) (before ++ (c :: word) ++ after) = some after := by
  induction before with
  | nil => exact afterFirst_of_prefix (c :: word) after
  | cons a before ih =>
    have hrest : ¬ c :: word <:+: before := fun h => hnot (h.trans (List.suffix_cons a before).isInfix)
    have hhere : ¬ c :: word <+: a :: before ++ (c :: word) ++ after := by
      intro hprefix
      rw [List.append_assoc] at hprefix
      obtain hshort | hlong := Nat.le_total (c :: word).length (a :: before).length
      · exact hnot ((List.isPrefix_append_of_length hshort).mp hprefix).isInfix
      · -- the occurrence would reach the first character of the one that follows
        obtain ⟨tail, htail⟩ : a :: before <+: c :: word :=
          List.prefix_of_prefix_length_le (List.prefix_append _ _) hprefix hlong
        rw [List.cons_append] at htail
        obtain ⟨-, hword⟩ := List.cons.inj htail
        rw [← htail, ← List.cons_append, List.prefix_append_right_inj] at hprefix
        cases tail with
        | nil =>
          rw [← htail, List.append_nil] at hnot
          exact hnot List.infix_rfl
        | cons b tail =>
          rw [List.cons_append, List.cons_append, List.cons_prefix_cons] at hprefix
          apply hc
          obtain ⟨rfl, -⟩ := List.cons.inj htail
          rw [← hword, ← hprefix.1]
          simp
    have hlater := ih hrest
    rw [List.append_assoc] at hlater hhere ⊢
    rw [List.cons_append] at hhere
    rw [List.cons_append, afterFirst, if_neg hhere]
    exact hlater

omit [DecidableEq α] in
/-- A character outside of the class bounds what is read. -/
theorem takeWhile_append_of_mem (h : c ∈ text) (hc : p c = false) (after : List α) :
    (text ++ after).takeWhile p = text.takeWhile p := by
  induction text with
  | nil => cases h
  | cons a text ih =>
    rcases List.mem_cons.mp h with rfl | h
    · simp [hc]
    · rw [List.cons_append, List.takeWhile_cons, List.takeWhile_cons, ih h]

omit [DecidableEq α] in
/-- What is read is all of a text before its end or a character outside of the class. -/
theorem takeWhile_eq_iff : rest.takeWhile p = text ↔
    ∃ after, rest = text ++ after ∧ (∀ c ∈ text, p c = true) ∧ ∀ c ∈ after.head?, p c = false := by
  constructor
  · rintro rfl
    refine ⟨rest.dropWhile p, List.takeWhile_append_dropWhile.symm, ?_, ?_⟩
    · intro c hc
      exact List.mem_takeWhile_imp hc
    · intro c hc
      have hstop := List.head?_dropWhile_not p rest
      rw [Option.mem_def.mp hc] at hstop
      simpa using hstop
  · rintro ⟨after, rfl, htext, hafter⟩
    rw [List.takeWhile_append_of_pos htext]
    cases after with
    | nil => simp
    | cons c after => simp [hafter c rfl]

omit [DecidableEq α] in
/-- A separator splits a text in one way when it is not in what stands before it. -/
theorem append_cons_inj {rest' : List α} (hbefore : c ∉ before) (hafter : c ∉ after) :
    before ++ c :: rest = after ++ c :: rest' ↔ before = after ∧ rest = rest' := by
  constructor
  · intro h
    induction before generalizing after with
    | nil =>
      cases after with
      | nil => exact ⟨rfl, (List.cons.inj h).2⟩
      | cons a after =>
        obtain ⟨rfl, -⟩ := List.cons.inj h
        simp at hafter
    | cons b before ih =>
      cases after with
      | nil =>
        obtain ⟨rfl, -⟩ := List.cons.inj h
        simp at hbefore
      | cons a after =>
        obtain ⟨rfl, htail⟩ := List.cons.inj h
        obtain ⟨rfl, hrest⟩ :=
          ih (List.not_mem_of_not_mem_cons hbefore) (List.not_mem_of_not_mem_cons hafter) htail
        exact ⟨rfl, hrest⟩
  · rintro ⟨rfl, rfl⟩
    rfl

end ScosSensor.TextSearch
