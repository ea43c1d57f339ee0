import Mathlib.Data.List.Perm.Basic
import Mathlib.Data.List.Basic
import Mathlib.Logic.Relation

/-!
# Binary heaps in a list

The heap operations of Python's `heapq`, on a list and with the comparison `lt`
of the elements as a parameter. The item that a sift moves is carried by swaps,
which leaves the same list as the moving hole of the library. Every operation
is structurally recursive on a bound for the number of moves. A sift is proved
from a heap with one place out of order, which each swap moves along its path.
-/
namespace ScosSensor.Heapq

variable {α : Type*} (lt : α → α → Bool)

/-- Move the item at `pos` towards the root while it is below its parent. -/
def siftdown (startpos : ℕ) : ℕ → ℕ → List α → List α
  | 0, _, heap => heap
  | fuel + 1, pos, heap =>
    if startpos < pos then
      let parentpos := (pos - 1) / 2
      match heap[pos]?, heap[parentpos]? with
      | some newitem, some parent =>
        if lt newitem parent then siftdown startpos fuel parentpos (heap.swap pos parentpos)
        else heap
      | _, _ => heap
    else heap

/-- The smaller child of `pos`: the right one only when the left one is not
below it. -/
def smallerChild (heap : List α) (pos : ℕ) : ℕ :=
  let childpos := 2 * pos + 1
  match heap[childpos]?, heap[childpos + 1]? with
  | some left, some right => if lt left right then childpos else childpos + 1
  | _, _ => childpos

/-- Bubble the smaller child up until the item reaches a leaf. Returns the
heap and the place where the item landed. -/
def bubble : ℕ → ℕ → List α → ℕ × List α
  | 0, pos, heap => (pos, heap)
  | fuel + 1, pos, heap =>
    if 2 * pos + 1 < heap.length then
      let childpos := smallerChild lt heap pos
      bubble fuel childpos (heap.swap pos childpos)
    else (pos, heap)

/-- Bubble the item at `pos` down to a leaf, then sift it back to its place. -/
def siftup (pos : ℕ) (heap : List α) : List α :=
  let leaf := bubble lt heap.length pos heap
  siftdown lt pos leaf.1 leaf.1 leaf.2

def heappush (heap : List α) (item : α) : List α :=
  siftdown lt 0 heap.length heap.length (heap ++ [item])

/-- `none` is the `IndexError` on an empty heap. -/
def heappop (heap : List α) : Option (α × List α) :=
  match heap with
  | [] => none
  | [lastelt] => some (lastelt, [])
  | returnitem :: b :: rest =>
    some (returnitem, siftup lt 0 ((b :: rest).getLast (by simp) :: (b :: rest).dropLast))

/-- Sift every inner node, the last one first. -/
def heapify (heap : List α) : List α :=
  (List.range (heap.length / 2)).reverse.foldl (fun h i => siftup lt i h) heap

/-- Pop `n` times and list the items in the order they come out. -/
def popAll : ℕ → List α → List α
  | 0, _ => []
  | n + 1, heap =>
    match heappop lt heap with
    | none => []
    | some (item, heap) => item :: popAll n heap

variable {lt}

theorem siftdown_perm (startpos fuel pos : ℕ) (heap : List α) :
    (siftdown lt startpos fuel pos heap).Perm heap := by
  induction fuel generalizing pos heap with
  | zero => exact .refl _
  | succ fuel ih =>
    simp only [siftdown]
    split_ifs
    · split
      · split_ifs
        · exact (ih _ _).trans (List.swap_perm _ _ _)
        · exact .refl _
      · exact .refl _
    · exact .refl _

theorem bubble_perm (fuel pos : ℕ) (heap : List α) : (bubble lt fuel pos heap).2.Perm heap := by
  induction fuel generalizing pos heap with
  | zero => exact .refl _
  | succ fuel ih =>
    simp only [bubble]
    split_ifs
    · exact (ih _ _).trans (List.swap_perm _ _ _)
    · exact .refl _

theorem siftup_perm (pos : ℕ) (heap : List α) : (siftup lt pos heap).Perm heap :=
  (siftdown_perm _ _ _ _).trans (bubble_perm _ _ _)

theorem heappush_perm (heap : List α) (item : α) :
    (heappush lt heap item).Perm (item :: heap) :=
  (siftdown_perm _ _ _ _).trans (List.perm_append_singleton item heap)

theorem heapify_perm (heap : List α) : (heapify lt heap).Perm heap := by
  have h (order : List ℕ) (start : List α) :
      (order.foldl (fun h i => siftup lt i h) start).Perm start := by
    induction order generalizing start with
    | nil => exact .refl _
    | cons i order ih => exact (ih _).trans (siftup_perm i start)
  exact h _ heap

/-- Popping takes one item out and keeps the others. -/
theorem heappop_perm {heap rest : List α} {item : α} (h : heappop lt heap = some (item, rest)) :
    (item :: rest).Perm heap := by
  match heap with
  | [] => simp [heappop] at h
  | [a] =>
    obtain ⟨rfl, rfl⟩ : a = item ∧ [] = rest := by simpa [heappop] using h
    exact .refl _
  | a :: b :: tail =>
    obtain ⟨rfl, rfl⟩ : a = item ∧ siftup lt 0 _ = rest := by simpa [heappop] using h
    refine ((siftup_perm 0 _).trans ?_).cons a
    exact (List.perm_append_singleton _ _).symm.trans
      (.of_eq (List.dropLast_append_getLast (by simp)))

theorem heappop_eq_none {heap : List α} : heappop lt heap = none ↔ heap = [] := by
  match heap with
  | [] => simp [heappop]
  | [a] => simp [heappop]
  | a :: b :: tail => simp [heappop]

/-- Popping as often as there are items lists every item once. -/
theorem popAll_perm (heap : List α) : (popAll lt heap.length heap).Perm heap := by
  generalize hn : heap.length = n
  induction n generalizing heap with
  | zero => simp [popAll, List.length_eq_zero_iff.mp hn]
  | succ n ih =>
    cases hpop : heappop lt heap with
    | none => simp [heappop_eq_none.mp hpop] at hn
    | some out =>
      obtain ⟨item, rest⟩ := out
      have hperm := heappop_perm hpop
      have hlen : rest.length = n := by simpa [hn] using hperm.length_eq
      simp only [popAll, hpop]
      exact ((ih rest hlen).cons item).trans hperm

/-! ### The order that the operations keep -/

/-- `lt` compares the items by a key that they may share. -/
structure WeakOrder (lt : α → α → Bool) : Prop where
  asymm : ∀ a b, lt a b = true → lt b a = false
  trans : ∀ a b c, lt b a = false → lt c b = false → lt c a = false

def IsChild (p c : ℕ) : Prop := c = 2 * p + 1 ∨ c = 2 * p + 2

/-- The item at `j`, if there is one, is not below the one at `i`. -/
def Above (lt : α → α → Bool) (heap : List α) (i j : ℕ) : Prop :=
  ∀ a b, heap[i]? = some a → heap[j]? = some b → lt b a = false

/-- No item is below its parent. -/
def IsHeap (lt : α → α → Bool) (heap : List α) : Prop :=
  ∀ p c, IsChild p c → Above lt heap p c

/-- A heap but for the item at `pos`, which may be below its parent. -/
structure Rising (lt : α → α → Bool) (heap : List α) (pos : ℕ) : Prop where
  others : ∀ p c, IsChild p c → c ≠ pos → Above lt heap p c
  bridge : ∀ p c, IsChild p pos → IsChild pos c → Above lt heap p c

/-- A heap but for the item at `pos`, which may be anywhere. -/
structure Sinking (lt : α → α → Bool) (heap : List α) (pos : ℕ) : Prop where
  others : ∀ p c, IsChild p c → p ≠ pos → c ≠ pos → Above lt heap p c
  bridge : ∀ p c, IsChild p pos → IsChild pos c → Above lt heap p c

/-- No item is below its parent, of the parents from `start` on. -/
def HeapFrom (lt : α → α → Bool) (start : ℕ) (heap : List α) : Prop :=
  ∀ p c, start ≤ p → IsChild p c → Above lt heap p c

/-- `pos` is `start`, or below it in the tree. -/
abbrev Descends (start pos : ℕ) : Prop := Relation.ReflTransGen IsChild start pos

/-- A heap from `start` on but for the item at `pos`, which may be below its parent. -/
structure RisingFrom (lt : α → α → Bool) (heap : List α) (start pos : ℕ) : Prop where
  others : ∀ p c, start ≤ p → IsChild p c → c ≠ pos → Above lt heap p c
  bridge : ∀ p c, start ≤ p → IsChild p pos → IsChild pos c → Above lt heap p c

/-- A heap from `start` on but for the item at `pos`, which may be anywhere. -/
structure SinkingFrom (lt : α → α → Bool) (heap : List α) (start pos : ℕ) : Prop where
  others : ∀ p c, start ≤ p → IsChild p c → p ≠ pos → c ≠ pos → Above lt heap p c
  bridge : ∀ p c, start ≤ p → IsChild p pos → IsChild pos c → Above lt heap p c

variable {heap heap' : List α} {i j k p c pos start : ℕ}

theorem IsChild.parent_lt (h : IsChild p c) : p < c := by
  unfold IsChild at h
  omega

theorem IsChild.unique {q : ℕ} (h : IsChild p c) (h' : IsChild q c) : p = q := by
  unfold IsChild at h h'
  omega

theorem Descends.le (h : Descends start pos) : start ≤ pos := by
  induction h with
  | refl => exact Nat.le_refl start
  | tail _ hchild ih => exact Nat.le_trans ih (Nat.le_of_lt hchild.parent_lt)

theorem Descends.parent (h : Descends start c) (hlt : start < c) (hp : IsChild p c) :
    Descends start p := by
  rcases h.cases_tail with heq | ⟨q, hq, hqc⟩
  · omega
  · rwa [hp.unique hqc]

/-- Every place is below the root. -/
theorem descends_zero (pos : ℕ) : Descends 0 pos := by
  induction pos using Nat.strongRecOn with
  | _ pos ih =>
    by_cases hpos : pos = 0
    · subst hpos
      exact .refl
    · have hq : IsChild ((pos - 1) / 2) pos := by unfold IsChild; omega
      exact (ih _ hq.parent_lt).tail hq

theorem heapFrom_zero : HeapFrom lt 0 heap ↔ IsHeap lt heap := by
  constructor
  · intro h p c hc
    exact h p c (Nat.zero_le p) hc
  · intro h p c _ hc
    exact h p c hc

theorem above_of_length (h : heap.length ≤ j) : Above lt heap i j := by
  intro a b _ hb
  rw [List.getElem?_eq_none h] at hb
  cases hb

theorem above_iff (hi : i < heap.length) (hj : j < heap.length) :
    Above lt heap i j ↔ lt heap[j] heap[i] = false := by
  unfold Above
  rw [List.getElem?_eq_getElem hi, List.getElem?_eq_getElem hj]
  simp

theorem above_congr {i' j' : ℕ} (hi : heap'[i']? = heap[i]?) (hj : heap'[j']? = heap[j]?) :
    Above lt heap' i' j' ↔ Above lt heap i j := by
  unfold Above
  rw [hi, hj]

theorem Above.trans (hlt : WeakOrder lt) (hj : j < heap.length) (h : Above lt heap i j)
    (h' : Above lt heap j k) : Above lt heap i k := by
  intro a c ha hc
  have hb := List.getElem?_eq_getElem hj
  exact hlt.trans a heap[j] c (h a _ ha hb) (h' _ c hb hc)

theorem getElem?_swap (hi : i < heap.length) (hj : j < heap.length) (k : ℕ) :
    (heap.swap i j)[k]? = if k = j then heap[i]? else if k = i then heap[j]? else heap[k]? := by
  rw [List.swap_eq_of_lt hi hj, List.getElem?_set, List.getElem?_set]
  by_cases hkj : k = j
  · simp [hkj, hj, List.getElem?_eq_getElem hi]
  · by_cases hki : k = i
    · subst hki
      simp [Ne.symm hkj, hkj, hi, List.getElem?_eq_getElem hj]
    · simp [Ne.symm hkj, Ne.symm hki, hkj, hki]

/-- What a swap of two places leaves there and elsewhere. -/
theorem swap_places (hi : i < heap.length) (hj : j < heap.length) (hne : i ≠ j) :
    (heap.swap i j)[i]? = heap[j]? ∧ (heap.swap i j)[j]? = heap[i]? ∧
      ∀ k, k ≠ i → k ≠ j → (heap.swap i j)[k]? = heap[k]? := by
  refine ⟨?_, ?_, fun k hki hkj => ?_⟩
  · rw [getElem?_swap hi hj, if_neg hne, if_pos rfl]
  · rw [getElem?_swap hi hj, if_pos rfl]
  · rw [getElem?_swap hi hj, if_neg hkj, if_neg hki]

theorem RisingFrom.heapFrom (h : RisingFrom lt heap start pos)
    (hpos : ∀ p, start ≤ p → IsChild p pos → Above lt heap p pos) : HeapFrom lt start heap := by
  intro p c hp hc
  by_cases heq : c = pos
  · subst heq
    exact hpos p hp hc
  · exact h.others p c hp hc heq

/-- An item that is below its parent changes places with it. -/
theorem RisingFrom.swap (hlt : WeakOrder lt) (h : RisingFrom lt heap start pos) {q : ℕ}
    (hq : IsChild q pos) (hstart : start ≤ q) (hlen : pos < heap.length)
    (hbelow : Above lt heap pos q) : RisingFrom lt (heap.swap pos q) start q := by
  have hqpos := hq.parent_lt
  have hqlen : q < heap.length := by omega
  obtain ⟨hatpos, hatq, hother⟩ := swap_places hlen hqlen (by omega)
  constructor
  · intro p c hp hc hcq
    by_cases hcpos : c = pos
    · subst hcpos
      obtain rfl := hc.unique hq
      exact (above_congr hatq hatpos).mpr hbelow
    have hatc := hother c hcpos hcq
    have hqc : Above lt heap p c := h.others p c hp hc hcpos
    by_cases hpq : p = q
    · subst hpq
      exact (above_congr hatq hatc).mpr (hbelow.trans hlt hqlen hqc)
    by_cases hppos : p = pos
    · subst hppos
      exact (above_congr hatpos hatc).mpr (h.bridge q c hstart hq hc)
    · exact (above_congr (hother p hppos hpq) hatc).mpr hqc
  · intro p c hp hpq hc
    have hplt := hpq.parent_lt
    have hatp := hother p (by omega) (by omega)
    have hparent : Above lt heap p q := h.others p q hp hpq (by omega)
    by_cases hcpos : c = pos
    · subst hcpos
      exact (above_congr hatp hatpos).mpr hparent
    · have hatc := hother c hcpos (by have := hc.parent_lt; omega)
      have hqc : Above lt heap q c := h.others q c hstart hc hcpos
      exact (above_congr hatp hatc).mpr (hparent.trans hlt hqlen hqc)

/-- The item rises along its path, which ends at `start`. -/
theorem heapFrom_siftdown (hlt : WeakOrder lt) (fuel pos : ℕ) (heap : List α)
    (h : RisingFrom lt heap start pos) (hpath : Descends start pos) (hlen : pos < heap.length)
    (hfuel : pos ≤ fuel) : HeapFrom lt start (siftdown lt start fuel pos heap) := by
  have hstart := hpath.le
  induction fuel generalizing pos heap with
  | zero => exact h.heapFrom fun p _ hp => by have := hp.parent_lt; omega
  | succ fuel ih =>
    unfold siftdown
    split_ifs with hpos
    · have hq : IsChild ((pos - 1) / 2) pos := by unfold IsChild; omega
      have hqpath := hpath.parent hpos hq
      have hqlen : (pos - 1) / 2 < heap.length := by omega
      dsimp only
      rw [List.getElem?_eq_getElem hlen, List.getElem?_eq_getElem hqlen]
      dsimp only
      split_ifs with hbelow
      · have habove := (above_iff hlen hqlen).mpr (hlt.asymm _ _ hbelow)
        have hswap := h.swap hlt hq hqpath.le hlen habove
        exact ih _ _ hswap hqpath (by simpa using hqlen) (by omega) hqpath.le
      · refine h.heapFrom fun p _ hp => ?_
        obtain rfl := hp.unique hq
        exact (above_iff hqlen hlen).mpr (by simpa using hbelow)
    · exact h.heapFrom fun p _ hp => by have := hp.parent_lt; omega

/-- From the root on, the item rises to a place in the whole heap. -/
theorem isHeap_siftdown (hlt : WeakOrder lt) (fuel pos : ℕ) (heap : List α)
    (h : Rising lt heap pos) (hlen : pos < heap.length) (hfuel : pos ≤ fuel) :
    IsHeap lt (siftdown lt 0 fuel pos heap) := by
  have hrising : RisingFrom lt heap 0 pos :=
    ⟨fun p c _ => h.others p c, fun p c _ => h.bridge p c⟩
  exact heapFrom_zero.mp (heapFrom_siftdown hlt fuel pos heap hrising (descends_zero pos) hlen hfuel)

theorem isHeap_heappush (hlt : WeakOrder lt) (h : IsHeap lt heap) (item : α) :
    IsHeap lt (heappush lt heap item) := by
  refine isHeap_siftdown hlt _ _ _ ⟨?_, ?_⟩ (by simp) (Nat.le_refl _)
  · intro p c hc hne
    by_cases hclen : c < heap.length
    · have hplen : p < heap.length := by have := hc.parent_lt; omega
      have hatp : (heap ++ [item])[p]? = heap[p]? := List.getElem?_append_left hplen
      have hatc : (heap ++ [item])[c]? = heap[c]? := List.getElem?_append_left hclen
      exact (above_congr hatp hatc).mpr (h p c hc)
    · apply above_of_length
      rw [List.length_append, List.length_singleton]
      omega
  · intro p c _ hc
    apply above_of_length
    have := hc.parent_lt
    rw [List.length_append, List.length_singleton]
    omega

/-- The smaller child is a child, and not above the other one. -/
theorem smallerChild_spec (hlt : WeakOrder lt) (hchild : 2 * pos + 1 < heap.length) :
    IsChild pos (smallerChild lt heap pos) ∧ smallerChild lt heap pos < heap.length ∧
      ∀ c, IsChild pos c → c ≠ smallerChild lt heap pos →
        Above lt heap (smallerChild lt heap pos) c := by
  unfold smallerChild
  dsimp only
  rw [List.getElem?_eq_getElem hchild]
  by_cases hright : 2 * pos + 1 + 1 < heap.length
  · rw [List.getElem?_eq_getElem hright]
    dsimp only
    split_ifs with hlr
    · refine ⟨.inl rfl, hchild, fun c hc hne => ?_⟩
      obtain rfl : c = 2 * pos + 1 + 1 := by unfold IsChild at hc; omega
      exact (above_iff hchild hright).mpr (hlt.asymm _ _ hlr)
    · refine ⟨.inr rfl, hright, fun c hc hne => ?_⟩
      obtain rfl : c = 2 * pos + 1 := by unfold IsChild at hc; omega
      exact (above_iff hright hchild).mpr (by simpa using hlr)
  · rw [List.getElem?_eq_none (by omega)]
    refine ⟨.inl rfl, hchild, fun c hc hne => above_of_length ?_⟩
    unfold IsChild at hc
    dsimp only at hne
    omega

/-- The smaller child takes the place of its parent. -/
theorem SinkingFrom.swap (h : SinkingFrom lt heap start pos) (hpc : IsChild pos c) (hstart : start ≤ pos)
    (hlen : c < heap.length) (hsmaller : ∀ i, IsChild pos i → i ≠ c → Above lt heap c i) :
    SinkingFrom lt (heap.swap pos c) start c := by
  have hposc := hpc.parent_lt
  obtain ⟨hatpos, hatc, hother⟩ := swap_places (i := pos) (by omega) hlen (by omega)
  constructor
  · intro p i hp hi hpne hine
    by_cases hipos : i = pos
    · subst hipos
      have hatp := hother p (by have := hi.parent_lt; omega) hpne
      exact (above_congr hatp hatpos).mpr (h.bridge p c hp hi hpc)
    have hati := hother i hipos hine
    by_cases hppos : p = pos
    · subst hppos
      exact (above_congr hatpos hati).mpr (hsmaller i hi hine)
    · exact (above_congr (hother p hppos hpne) hati).mpr (h.others p i hp hi hppos hipos)
  · intro p i _ hp hi
    obtain rfl := hp.unique hpc
    have hlt := hi.parent_lt
    have hati := hother i (by omega) (by omega)
    exact (above_congr hatpos hati).mpr (h.others c i (by omega) hi (by omega) (by omega))

/-- The item ends at a leaf below where it was, from where it may rise. -/
theorem rising_bubble (hlt : WeakOrder lt) (fuel pos : ℕ) (heap : List α)
    (h : SinkingFrom lt heap start pos) (hpath : Descends start pos) (hlen : pos < heap.length)
    (hfuel : heap.length ≤ fuel + pos) :
    RisingFrom lt (bubble lt fuel pos heap).2 start (bubble lt fuel pos heap).1 ∧
      Descends start (bubble lt fuel pos heap).1 ∧ (bubble lt fuel pos heap).1 < heap.length := by
  induction fuel generalizing pos heap with
  | zero => omega
  | succ fuel ih =>
    unfold bubble
    split_ifs with hchild
    · obtain ⟨hpc, hclen, hsmaller⟩ := smallerChild_spec hlt hchild
      have hposc := hpc.parent_lt
      have hrest := ih _ _ (h.swap hpc hpath.le hclen hsmaller) (hpath.tail hpc)
        (by simpa using hclen) (by rw [List.length_swap]; omega)
      rwa [List.length_swap] at hrest
    · refine ⟨⟨fun p c hp hc hne => ?_, fun p c _ _ hc => above_of_length ?_⟩, hpath, hlen⟩
      · by_cases hpos : p = pos
        · subst hpos
          apply above_of_length
          unfold IsChild at hc
          dsimp only
          omega
        · exact h.others p c hp hc hpos hne
      · unfold IsChild at hc
        dsimp only at hc ⊢
        omega

theorem heapFrom_siftup (hlt : WeakOrder lt) (h : SinkingFrom lt heap start start)
    (hlen : start < heap.length) : HeapFrom lt start (siftup lt start heap) := by
  obtain ⟨hrising, hpath, hleaf⟩ := rising_bubble hlt heap.length start heap h .refl hlen (by omega)
  refine heapFrom_siftdown hlt _ _ _ hrising hpath ?_ (Nat.le_refl _)
  rwa [(bubble_perm _ _ _).length_eq]

theorem isHeap_siftup (hlt : WeakOrder lt) (h : Sinking lt heap 0) (hlen : 0 < heap.length) :
    IsHeap lt (siftup lt 0 heap) := by
  have hsinking : SinkingFrom lt heap 0 0 :=
    ⟨fun p c _ => h.others p c, fun p c _ => h.bridge p c⟩
  exact heapFrom_zero.mp (heapFrom_siftup hlt hsinking hlen)

/-- The last inner node that is sifted completes a heap one place further up. -/
theorem HeapFrom.siftup (hlt : WeakOrder lt) (h : HeapFrom lt (start + 1) heap)
    (hlen : start < heap.length) : HeapFrom lt start (siftup lt start heap) := by
  refine heapFrom_siftup hlt ⟨?_, ?_⟩ hlen
  · intro p c hp hc hne _
    exact h p c (by omega) hc
  · intro p c hp hchild _
    have := hchild.parent_lt
    omega

theorem heapFrom_foldl (hlt : WeakOrder lt) (h : HeapFrom lt k heap) (hk : k ≤ heap.length) :
    HeapFrom lt 0 ((List.range k).reverse.foldl (fun h i => siftup lt i h) heap) := by
  induction k generalizing heap with
  | zero => exact h
  | succ k ih =>
    rw [List.range_succ, List.reverse_append, List.reverse_singleton, List.singleton_append,
      List.foldl_cons]
    refine ih (h.siftup hlt (by omega)) ?_
    rw [(siftup_perm k heap).length_eq]
    omega

/-- Any list becomes a heap: its second half are leaves. -/
theorem isHeap_heapify (hlt : WeakOrder lt) (heap : List α) : IsHeap lt (heapify lt heap) := by
  have hleaves : HeapFrom lt (heap.length / 2) heap := by
    intro p c hp hc
    apply above_of_length
    unfold IsChild at hc
    omega
  exact heapFrom_zero.mp (heapFrom_foldl hlt hleaves (by omega))

/-- The root is not above any item. -/
theorem IsHeap.root_le (hlt : WeakOrder lt) (h : IsHeap lt heap) (j : ℕ) :
    Above lt heap 0 j := by
  induction j using Nat.strongRecOn with
  | _ j ih =>
    by_cases hj : j = 0
    · subst hj
      intro a b ha hb
      obtain rfl := Option.some.inj (ha.symm.trans hb)
      by_contra hab
      have hself : lt a a = true := by simpa using hab
      rw [hlt.asymm a a hself] at hself
      cases hself
    · have hq : IsChild ((j - 1) / 2) j := by unfold IsChild; omega
      by_cases hlen : (j - 1) / 2 < heap.length
      · exact (ih _ hq.parent_lt).trans hlt hlen (h _ j hq)
      · exact above_of_length (by have := hq.parent_lt; omega)

/-- A pop takes the least item and leaves a heap. -/
theorem isHeap_heappop (hlt : WeakOrder lt) (h : IsHeap lt heap) {item : α} {rest : List α}
    (hpop : heappop lt heap = some (item, rest)) :
    IsHeap lt rest ∧ ∀ a ∈ rest, lt a item = false := by
  have hleast : ∀ a ∈ heap, heap[0]? = some item → lt a item = false := by
    intro a ha hitem
    obtain ⟨j, hj⟩ := List.mem_iff_getElem?.mp ha
    exact h.root_le hlt j item a hitem hj
  have hroot : heap[0]? = some item := by
    match heap with
    | [] => simp [heappop] at hpop
    | [a] =>
      obtain ⟨rfl, rfl⟩ : a = item ∧ [] = rest := by simpa [heappop] using hpop
      rfl
    | a :: b :: tail =>
      obtain ⟨rfl, rfl⟩ : a = item ∧ siftup lt 0 _ = rest := by simpa [heappop] using hpop
      rfl
  refine ⟨?_, fun a ha => hleast a ((heappop_perm hpop).subset (List.mem_cons_of_mem item ha)) hroot⟩
  match heap with
  | [] => simp [heappop] at hpop
  | [a] =>
    obtain ⟨rfl, rfl⟩ : a = item ∧ [] = rest := by simpa [heappop] using hpop
    intro p c _
    exact above_of_length (Nat.zero_le c)
  | a :: b :: tail =>
    obtain ⟨rfl, rfl⟩ : a = item ∧ siftup lt 0 _ = rest := by simpa [heappop] using hpop
    have hkeep {k : ℕ} {x : α} (hk : k ≠ 0)
        (hx : ((b :: tail).getLast (by simp) :: (b :: tail).dropLast)[k]? = some x) :
        (a :: b :: tail)[k]? = some x := by
      obtain ⟨k, rfl⟩ := Nat.exists_eq_succ_of_ne_zero hk
      rw [Nat.succ_eq_add_one, List.getElem?_cons_succ] at hx ⊢
      rw [List.getElem?_dropLast] at hx
      split_ifs at hx
      exact hx
    refine isHeap_siftup hlt ⟨?_, ?_⟩ (by simp)
    · intro p c hc hp hcne x y hx hy
      exact h p c hc x y (hkeep hp hx) (hkeep hcne hy)
    · intro p c hp
      have := hp.parent_lt
      omega

theorem pairwise_popAll (hlt : WeakOrder lt) (h : IsHeap lt heap) :
    (popAll lt heap.length heap).Pairwise fun a b => lt b a = false := by
  generalize hn : heap.length = n
  induction n generalizing heap with
  | zero => exact .nil
  | succ n ih =>
    cases hpop : heappop lt heap with
    | none => simp [heappop_eq_none.mp hpop] at hn
    | some out =>
      obtain ⟨item, rest⟩ := out
      have hlen : rest.length = n := by simpa [hn] using (heappop_perm hpop).length_eq
      obtain ⟨hrest, hleast⟩ := isHeap_heappop hlt h hpop
      simp only [popAll, hpop]
      refine .cons ?_ (ih hrest hlen)
      intro a ha
      subst hlen
      exact hleast a ((popAll_perm rest).subset ha)

end ScosSensor.Heapq
