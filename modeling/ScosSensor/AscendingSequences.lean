import Mathlib.Data.Seq.Basic

/-!
# Ascending sequences

A possibly infinite sequence whose items ascend is determined by which items it
has, whatever produced it. So a sequence is a list followed by a rest as soon as
the three ascend and the list has the items on one side of a cut and the rest
has those on the other.
-/
namespace ScosSensor.Ascending

open Stream' (Seq)

variable {α : Type*} {s s' rest : Seq α} {taken : List α} {a : α}

theorem mem_append_ofList : a ∈ (Seq.ofList taken).append rest ↔ a ∈ taken ∨ a ∈ rest := by
  induction taken with
  | nil => simp
  | cons b taken ih =>
    rw [Seq.ofList_cons, Seq.cons_append, Seq.mem_cons_iff, ih, List.mem_cons, or_assoc]

@[simp] theorem mem_ofList : a ∈ Seq.ofList taken ↔ a ∈ taken := by
  rw [← Seq.append_nil (Seq.ofList taken), mem_append_ofList]
  simp [Seq.notMem_nil]

/-- The list comes first, and the rest is counted from its end. -/
theorem get?_append_ofList (taken : List α) (rest : Seq α) (k : ℕ) :
    ((Seq.ofList taken).append rest).get? k =
      if k < taken.length then taken[k]? else rest.get? (k - taken.length) := by
  induction taken generalizing k with
  | nil => simp
  | cons b taken ih =>
    rw [Seq.ofList_cons, Seq.cons_append]
    cases k with
    | zero => simp
    | succ k => simp [ih]

variable [Preorder α]

theorem pairwise_append (htaken : taken.Pairwise (· < ·)) (hrest : rest.Pairwise (· < ·))
    (hcut : ∀ a ∈ taken, ∀ b ∈ rest, a < b) :
    ((Seq.ofList taken).append rest).Pairwise (· < ·) := by
  induction taken with
  | nil => simpa using hrest
  | cons a taken ih =>
    obtain ⟨hfirst, htaken⟩ := List.pairwise_cons.mp htaken
    rw [Seq.ofList_cons, Seq.cons_append]
    refine .cons ?_ (ih htaken fun b hb => hcut b (List.mem_cons_of_mem a hb))
    intro b hb
    rcases mem_append_ofList.mp hb with hmem | hmem
    · exact hfirst b hmem
    · exact hcut a List.mem_cons_self b hmem

theorem pairwise_ofList (h : taken.Pairwise (· < ·)) : (Seq.ofList taken).Pairwise (· < ·) := by
  rw [← Seq.append_nil (Seq.ofList taken)]
  refine pairwise_append h .nil ?_
  intro a _ b hb
  exact absurd hb (Seq.notMem_nil b)

/-- Where two ascending sequences agree so far, and the items of the one are items of the
other, the next item of the one is that of the other. -/
theorem get?_of_agree (hs : s.Pairwise (· < ·)) (hs' : s'.Pairwise (· < ·))
    (hmem : ∀ a, a ∈ s ↔ a ∈ s') {k : ℕ} (hagree : ∀ j < k, s.get? j = s'.get? j)
    (ha : s.get? k = some a) : s'.get? k = some a := by
  obtain ⟨m, hm⟩ := Seq.mem_iff_exists_get?.mp ((hmem a).mp (Seq.get?_mem ha))
  rcases lt_trichotomy m k with hmk | rfl | hkm
  · have hearlier : s.get? m = some a := (hagree m hmk).trans hm.symm
    exact absurd (hs m k hmk a hearlier a ha) (lt_irrefl a)
  · exact hm.symm
  · obtain ⟨b, hb⟩ := s'.ge_stable hkm.le hm.symm
    have hba : b < a := hs' k m hkm b hb a hm.symm
    obtain ⟨n, hn⟩ := Seq.mem_iff_exists_get?.mp ((hmem b).mpr (Seq.get?_mem hb))
    rcases lt_trichotomy n k with hnk | rfl | hkn
    · have hearlier : s'.get? n = some b := (hagree n hnk).symm.trans hn.symm
      exact absurd (hs' n k hnk b hearlier b hb) (lt_irrefl b)
    · obtain rfl := Option.some.inj (ha.symm.trans hn.symm)
      exact absurd hba (lt_irrefl a)
    · exact absurd (hba.trans (hs k n hkn a ha b hn.symm)) (lt_irrefl b)

/-- Ascending sequences with the same items are the same. -/
theorem ext_of_mem (hs : s.Pairwise (· < ·)) (hs' : s'.Pairwise (· < ·))
    (hmem : ∀ a, a ∈ s ↔ a ∈ s') : s = s' := by
  ext k : 1
  induction k using Nat.strongRecOn with
  | _ k ih =>
    ext a
    constructor
    · exact get?_of_agree hs hs' hmem ih
    · exact get?_of_agree hs' hs (fun a => (hmem a).symm) fun j hj => (ih j hj).symm

/-- A sequence is cut where `p` ends to hold. -/
theorem eq_append_of_cut (hs : s.Pairwise (· < ·)) (htaken : taken.Pairwise (· < ·))
    (hrest : rest.Pairwise (· < ·)) (p : α → Prop) (hp : ∀ a b, p a → ¬ p b → a < b)
    (hmem : ∀ a, a ∈ taken ↔ a ∈ s ∧ p a) (hmem' : ∀ a, a ∈ rest ↔ a ∈ s ∧ ¬ p a) :
    s = (Seq.ofList taken).append rest := by
  refine ext_of_mem hs (pairwise_append htaken hrest ?_) ?_
  · intro a ha b hb
    exact hp a b ((hmem a).mp ha).2 ((hmem' b).mp hb).2
  · intro a
    rw [mem_append_ofList, hmem, hmem']
    tauto

end ScosSensor.Ascending
