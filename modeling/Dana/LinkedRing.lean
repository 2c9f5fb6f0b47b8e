import Mathlib.Data.List.Chain
import Mathlib.Data.List.Nodup
import Mathlib.Logic.Function.Basic

/-! Doubly linked lists, given by their two link functions: circular lists through
a sentinel, insertion after a node, removal, and traversal. -/
namespace LinkedRing

variable {α : Type*}

/-- Consecutive nodes point at each other. -/
def Linked (next prev : α → α) (l : List α) : Prop :=
  l.IsChain fun x y => next x = y ∧ prev y = x

/-- The circular list through the sentinel `b` whose members are `qs`. -/
structure Ring (next prev : α → α) (b : α) (qs : List α) : Prop where
  linked : Linked next prev (b :: qs ++ [b])
  nodup : (b :: qs).Nodup

theorem Linked.congr {next prev next' prev' : α → α} {l : List α} (h : Linked next prev l)
    (hn : ∀ x ∈ l.dropLast, next' x = next x) (hp : ∀ y ∈ l.tail, prev' y = prev y) :
    Linked next' prev' l := by
  induction l with
  | nil => exact .nil
  | cons x l ih =>
    cases l with
    | nil => exact .singleton _
    | cons y l =>
      obtain ⟨⟨h1, h2⟩, h3⟩ := List.isChain_cons_cons.mp h
      refine List.isChain_cons_cons.mpr ⟨⟨?_, ?_⟩, ih h3 ?_ ?_⟩
      · exact (hn x (by simp)).trans h1
      · exact (hp y (by simp)).trans h2
      · exact fun z hz => hn z (by simp [hz])
      · exact fun z hz => hp z (List.mem_of_mem_tail hz)

theorem Ring.congr {next prev next' prev' : α → α} {b : α} {qs : List α}
    (h : Ring next prev b qs) (hn : ∀ x ∈ b :: qs, next' x = next x)
    (hp : ∀ x ∈ b :: qs, prev' x = prev x) : Ring next' prev' b qs := by
  refine ⟨h.linked.congr (fun x hx => hn x ?_) fun x hx => hp x ?_, h.nodup⟩
  · rwa [List.dropLast_concat] at hx
  · simp only [List.cons_append, List.tail_cons, List.mem_append, List.mem_singleton] at hx
    exact List.mem_cons.mpr (hx.symm)

theorem ring_nil {next prev : α → α} {b : α} :
    Ring next prev b [] ↔ next b = b ∧ prev b = b := by
  constructor
  · intro h
    exact (List.isChain_cons_cons.mp h.linked).1
  · rintro ⟨h1, h2⟩
    exact ⟨List.isChain_cons_cons.mpr ⟨⟨h1, h2⟩, .singleton _⟩, by simp⟩

/-- The node after the prefix `xs`: the first of what follows, or the sentinel. -/
theorem Ring.next_eq {next prev : α → α} {b x : α} {xs ys : List α}
    (h : Ring next prev b (xs ++ x :: ys)) : next x = (ys ++ [b]).head (by simp) := by
  have hl := h.linked
  cases ys with
  | nil =>
    have he : b :: (xs ++ [x]) ++ [b] = (b :: xs) ++ x :: b :: [] := by simp
    rw [he] at hl
    exact (List.isChain_append_cons_cons.mp hl).2.1.1
  | cons y ys =>
    have he : b :: (xs ++ x :: y :: ys) ++ [b] = (b :: xs) ++ x :: y :: (ys ++ [b]) := by simp
    rw [he] at hl
    exact (List.isChain_append_cons_cons.mp hl).2.1.1

theorem Ring.next_sentinel {next prev : α → α} {b : α} {qs : List α}
    (h : Ring next prev b qs) : next b = (qs ++ [b]).head (by simp) := by
  have hl := h.linked
  cases qs with
  | nil => exact (List.isChain_cons_cons.mp hl).1.1
  | cons q qs => exact (List.isChain_cons_cons.mp hl).1.1

/-- The node after the last of a prefix, or after the sentinel. -/
theorem Ring.next_getLast {next prev : α → α} {b : α} {xs ys : List α}
    (h : Ring next prev b (xs ++ ys)) :
    next ((b :: xs).getLast (by simp)) = (ys ++ [b]).head (by simp) := by
  rcases List.eq_nil_or_concat xs with rfl | ⟨xs', x, rfl⟩
  · exact h.next_sentinel
  · rw [List.concat_eq_append, List.append_assoc, List.singleton_append] at h
    rw [← h.next_eq]
    exact congrArg next (by simp)

/-- The node before a member: the last of what precedes it, or the sentinel. -/
theorem Ring.prev_eq {next prev : α → α} {b x : α} {xs ys : List α}
    (h : Ring next prev b (xs ++ x :: ys)) : prev x = (b :: xs).getLast (by simp) := by
  have he : b :: (xs ++ x :: ys) ++ [b] =
      (b :: xs).dropLast ++ (b :: xs).getLast (by simp) :: x :: (ys ++ [b]) := by
    conv_lhs => rw [List.cons_append, List.append_assoc, ← List.cons_append,
      ← List.dropLast_append_getLast (l := b :: xs) (by simp)]
    simp
  have hl := h.linked
  rw [he] at hl
  exact (List.isChain_append_cons_cons.mp hl).2.1.2

theorem Ring.prev_sentinel {next prev : α → α} {b : α} {qs : List α}
    (h : Ring next prev b qs) : prev b = (b :: qs).getLast (by simp) := by
  have he : b :: qs ++ [b] = (b :: qs).dropLast ++ (b :: qs).getLast (by simp) :: b :: [] := by
    conv_lhs => rw [← List.dropLast_append_getLast (l := b :: qs) (by simp)]
    simp
  have hl := h.linked
  rw [he] at hl
  exact (List.isChain_append_cons_cons.mp hl).2.1.2

/-- The links of a ring stay in it. -/
theorem Ring.next_mem {next prev : α → α} {b x : α} {qs : List α} (h : Ring next prev b qs)
    (hx : x ∈ b :: qs) : next x ∈ b :: qs := by
  have hhead (l : List α) (hl : ∀ y ∈ l, y ∈ qs) : (l ++ [b]).head (by simp) ∈ b :: qs := by
    cases l with
    | nil => exact List.mem_cons_self
    | cons y l => exact List.mem_cons_of_mem _ (hl y (by simp))
  rcases List.mem_cons.mp hx with rfl | hx
  · rw [h.next_sentinel]
    exact hhead qs fun y hy => hy
  · obtain ⟨xs, ys, rfl⟩ := List.append_of_mem hx
    rw [h.next_eq]
    exact hhead ys fun y hy => by simp [hy]

theorem Ring.prev_mem {next prev : α → α} {b x : α} {qs : List α} (h : Ring next prev b qs)
    (hx : x ∈ b :: qs) : prev x ∈ b :: qs := by
  rcases List.mem_cons.mp hx with rfl | hx
  · rw [h.prev_sentinel]
    exact List.getLast_mem _
  · obtain ⟨xs, ys, rfl⟩ := List.append_of_mem hx
    rw [h.prev_eq]
    have hlast := List.getLast_mem (l := b :: xs) (by simp)
    rcases List.mem_cons.mp hlast with hb | hm
    · rw [hb]
      exact List.mem_cons_self
    · exact List.mem_cons_of_mem _ (List.mem_append_left _ hm)

theorem Ring.reverse {next prev : α → α} {b : α} {qs : List α} (h : Ring next prev b qs) :
    Ring prev next b qs.reverse := by
  refine ⟨?_, ?_⟩
  · have hr : (b :: qs ++ [b]).reverse = b :: qs.reverse ++ [b] := by simp
    rw [Linked, ← hr, List.isChain_reverse]
    exact h.linked.imp fun _ _ hxy => hxy.symm
  · simpa using h.nodup

section Follow
variable [DecidableEq α]

/-- The nodes met from `x` on along the links `f` before `b`; `none` when `b` is
not met within `n` links. -/
def follow (f : α → α) (b : α) : ℕ → α → Option (List α)
  | 0, x => if x = b then some [] else none
  | n+1, x => if x = b then some [] else (follow f b n (f x)).map (x :: ·)

theorem follow_sentinel (f : α → α) (b : α) (n : ℕ) : follow f b n b = some [] := by
  cases n <;> simp [follow]

theorem follow_congr {f g : α → α} {b : α} (h : ∀ x, x ≠ b → f x = g x) {n : ℕ} {x : α} :
    follow f b n x = follow g b n x := by
  induction n generalizing x with
  | zero => rfl
  | succ n ih =>
    by_cases hx : x = b
    · simp [follow, hx]
    · simp [follow, hx, h x hx, ih]

/-- What is read depends on the links of the nodes met only. -/
theorem follow_congr_mem {f g : α → α} {b x : α} {n : ℕ} {l : List α}
    (h : follow f b n x = some l) (hfg : ∀ y ∈ l, g y = f y) : follow g b n x = some l := by
  induction n generalizing x l with
  | zero => exact h
  | succ n ih =>
    by_cases hx : x = b
    · rw [hx, follow_sentinel] at h ⊢
      exact h
    · simp only [follow, hx, ↓reduceIte, Option.map_eq_some_iff] at h ⊢
      obtain ⟨r, hr, rfl⟩ := h
      refine ⟨r, ?_, rfl⟩
      rw [hfg x (by simp)]
      exact ih hr fun y hy => hfg y (by simp [hy])

theorem follow_unique {f : α → α} {b x : α} {m n : ℕ} {l l' : List α}
    (h : follow f b m x = some l) (h' : follow f b n x = some l') : l = l' := by
  induction m generalizing n x l l' with
  | zero =>
    simp only [follow] at h
    split_ifs at h with hx
    rw [hx, follow_sentinel] at h'
    exact (Option.some.inj h).symm.trans (Option.some.inj h')
  | succ m ih =>
    by_cases hx : x = b
    · rw [hx, follow_sentinel] at h h'
      exact (Option.some.inj h).symm.trans (Option.some.inj h')
    · cases n with
      | zero => simp [follow, hx] at h'
      | succ n =>
        simp only [follow, hx, ↓reduceIte, Option.map_eq_some_iff] at h h'
        obtain ⟨r, hr, rfl⟩ := h
        obtain ⟨r', hr', rfl⟩ := h'
        rw [ih hr hr']

/-- A chain of links `f` that ends in `b` is what `follow` reads. -/
theorem follow_chain (f : α → α) (b x : α) (l : List α) (n : ℕ) (hn : (x :: l).length ≤ n)
    (hb : b ∉ x :: l) (h : (x :: l ++ [b]).IsChain fun x y => f x = y) :
    follow f b n x = some (x :: l) := by
  induction l generalizing x n with
  | nil =>
    obtain ⟨m, rfl⟩ : ∃ m, n = m+1 := ⟨n-1, by simp at hn; omega⟩
    have hx : x ≠ b := fun e => hb (by simp [e])
    have hfx : f x = b := (List.isChain_cons_cons.mp h).1
    simp [follow, hx, hfx, follow_sentinel]
  | cons y l ih =>
    obtain ⟨m, rfl⟩ : ∃ m, n = m+1 := ⟨n-1, by simp at hn; omega⟩
    have hx : x ≠ b := fun e => hb (by simp [e])
    obtain ⟨hfx, htl⟩ := List.isChain_cons_cons.mp h
    have := ih y m (by simpa using hn) (fun hm => hb (List.mem_cons_of_mem _ hm)) htl
    simp [follow, hx, hfx, this]

/-- Forward from the sentinel, a ring reads as its members. -/
theorem Ring.follow_next {next prev : α → α} {b : α} {qs : List α} (h : Ring next prev b qs)
    (n : ℕ) (hn : qs.length ≤ n) : follow next b n (next b) = some qs := by
  have hb : b ∉ qs := (List.nodup_cons.mp h.nodup).1
  cases qs with
  | nil => rw [(ring_nil.mp h).1, follow_sentinel]
  | cons q qs =>
    rw [h.next_sentinel]
    exact follow_chain next b q qs n hn hb (h.linked.tail.imp fun _ _ hxy => hxy.1)

/-- Backward from the sentinel, it reads as its members in reverse. -/
theorem Ring.follow_prev {next prev : α → α} {b : α} {qs : List α} (h : Ring next prev b qs)
    (n : ℕ) (hn : qs.length ≤ n) : follow prev b n (prev b) = some qs.reverse :=
  h.reverse.follow_next n (by simpa using hn)

end Follow

section Update
variable [DecidableEq α]

/-- Writing the links of nodes outside a linked list leaves it linked. -/
theorem Linked.update {next prev : α → α} {l : List α} {a b c d : α}
    (h : Linked next prev l) (ha : a ∉ l.dropLast) (hc : c ∉ l.tail) :
    Linked (Function.update next a b) (Function.update prev c d) l := by
  refine h.congr (fun x hx => Function.update_of_ne ?_ _ _)
    fun y hy => Function.update_of_ne ?_ _ _
  · rintro rfl
    exact ha hx
  · rintro rfl
    exact hc hy

/-- Link `n` between the neighbours `p` and `q`. -/
theorem Linked.insert {next prev : α → α} {A B : List α} {p q n : α}
    (h : Linked next prev (A ++ p :: q :: B)) (hp : p ∉ A) (hp' : p ∉ (q :: B).dropLast)
    (hq : q ∉ (A ++ [p]).tail) (hq' : q ∉ B) (hn : n ∉ A ++ p :: q :: B) :
    Linked (Function.update (Function.update next n q) p n)
      (Function.update (Function.update prev n p) q n) (A ++ p :: n :: q :: B) := by
  obtain ⟨h1, h2, h3⟩ := List.isChain_append_cons_cons.mp h
  simp only [List.mem_append, List.mem_cons, not_or] at hn
  obtain ⟨hnA, hnp, hnq, hnB⟩ := hn
  have hn1 : n ∉ A ++ [p] := by simp [hnA, hnp]
  have hn2 : n ∉ q :: B := by simp [hnq, hnB]
  refine List.isChain_append_cons_cons.mpr ⟨?_, ?_, List.isChain_cons_cons.mpr ⟨?_, ?_⟩⟩
  · refine Linked.update (Linked.update h1 ?_ ?_) ?_ hq
    · exact fun hm => hn1 (List.dropLast_subset _ hm)
    · exact fun hm => hn1 (List.mem_of_mem_tail hm)
    · rwa [List.dropLast_concat]
  · rw [Function.update_self, Function.update_of_ne hnq, Function.update_self]
    exact ⟨rfl, rfl⟩
  · rw [Function.update_of_ne hnp, Function.update_self, Function.update_self]
    exact ⟨rfl, rfl⟩
  · refine Linked.update (Linked.update h3 ?_ hnB) hp' hq'
    exact fun hm => hn2 (List.dropLast_subset _ hm)

/-- Take `x` out from between its neighbours. -/
theorem Linked.remove {next prev : α → α} {A B : List α} {p x q : α}
    (h : Linked next prev (A ++ p :: x :: q :: B)) (hp : p ∉ A) (hp' : p ∉ (q :: B).dropLast)
    (hq : q ∉ (A ++ [p]).tail) (hq' : q ∉ B) :
    Linked (Function.update next p q) (Function.update prev q p) (A ++ p :: q :: B) := by
  obtain ⟨h1, _, h3⟩ := List.isChain_append_cons_cons.mp h
  obtain ⟨_, h4⟩ := List.isChain_cons_cons.mp h3
  refine List.isChain_append_cons_cons.mpr ⟨?_, ⟨Function.update_self .., Function.update_self ..⟩,
    Linked.update h4 hp' hq'⟩
  refine Linked.update h1 ?_ hq
  rwa [List.dropLast_concat]

omit [DecidableEq α] in
/-- The neighbours `p` and `q` of a place in a ring occur where they stand only. -/
theorem neighbours_once {A B xs ys : List α} {b p q : α} (hA : b :: xs = A ++ [p])
    (hB : ys ++ [b] = q :: B) (h : (b :: (xs ++ ys)).Nodup) :
    p ∉ A ∧ p ∉ (q :: B).dropLast ∧ q ∉ (A ++ [p]).tail ∧ q ∉ B := by
  have hnd : (b :: xs ++ ys).Nodup := h
  have hnd' : (xs ++ (ys ++ [b])).Nodup := by
    rw [← List.append_assoc, List.nodup_append_comm]
    exact h
  refine ⟨?_, ?_, ?_, ?_⟩
  · rw [hA, List.append_assoc] at hnd
    exact fun hm => List.disjoint_of_nodup_append hnd hm (by simp)
  · rw [← hB, List.dropLast_concat]
    rw [hA] at hnd
    exact fun hm => List.disjoint_of_nodup_append hnd (by simp) hm
  · rw [← hA, List.tail_cons]
    rw [hB] at hnd'
    exact fun hm => List.disjoint_of_nodup_append hnd' hm (by simp)
  · have hlast := (List.nodup_append.mp hnd').2.1
    rw [hB] at hlast
    exact (List.nodup_cons.mp hlast).1

/-- Insert `n` after the prefix `xs` of the members. -/
theorem Ring.insert {next prev : α → α} {b n p q : α} {xs ys : List α}
    (h : Ring next prev b (xs ++ ys)) (hn : n ∉ b :: (xs ++ ys))
    (hp : (b :: xs).getLast (by simp) = p) (hq : (ys ++ [b]).head (by simp) = q) :
    Ring (Function.update (Function.update next n q) p n)
      (Function.update (Function.update prev n p) q n) b (xs ++ n :: ys) := by
  obtain ⟨A, hA⟩ : ∃ A, b :: xs = A ++ [p] :=
    ⟨_, by rw [← hp, List.dropLast_append_getLast]⟩
  obtain ⟨B, hB⟩ : ∃ B, ys ++ [b] = q :: B := ⟨_, by rw [← hq, List.cons_head_tail]⟩
  obtain ⟨hpA, hpB, hqA, hqB⟩ := neighbours_once hA hB h.nodup
  have hl : b :: (xs ++ ys) ++ [b] = A ++ p :: q :: B := by
    rw [← List.cons_append, List.append_assoc, hA, hB, List.append_assoc, List.singleton_append]
  have hl' : b :: (xs ++ n :: ys) ++ [b] = A ++ p :: n :: q :: B := by
    have := congrArg₂ (fun l r => l ++ n :: r) hA hB
    simpa using this
  have hnl : n ∉ A ++ p :: q :: B := by
    rw [← hl]
    simp only [List.mem_append, List.mem_cons, List.not_mem_nil, or_false, not_or] at hn ⊢
    exact ⟨hn, hn.1⟩
  refine ⟨?_, ?_⟩
  · rw [hl']
    exact Linked.insert (hl ▸ h.linked) hpA hpB hqA hqB hnl
  · have hperm : (b :: (xs ++ n :: ys)).Perm (n :: b :: (xs ++ ys)) :=
      (List.Perm.cons b List.perm_middle).trans (List.Perm.swap n b _)
    exact hperm.nodup_iff.mpr (List.nodup_cons.mpr ⟨hn, h.nodup⟩)

/-- Remove the member `x` between the prefix `xs` and what follows. -/
theorem Ring.remove {next prev : α → α} {b x p q : α} {xs ys : List α}
    (h : Ring next prev b (xs ++ x :: ys))
    (hp : (b :: xs).getLast (by simp) = p) (hq : (ys ++ [b]).head (by simp) = q) :
    Ring (Function.update next p q) (Function.update prev q p) b (xs ++ ys) := by
  obtain ⟨A, hA⟩ : ∃ A, b :: xs = A ++ [p] :=
    ⟨_, by rw [← hp, List.dropLast_append_getLast]⟩
  obtain ⟨B, hB⟩ : ∃ B, ys ++ [b] = q :: B := ⟨_, by rw [← hq, List.cons_head_tail]⟩
  have hsub : (b :: (xs ++ ys)).Sublist (b :: (xs ++ x :: ys)) :=
    List.Sublist.cons_cons _ (List.Sublist.append_left (List.sublist_cons_self _ _) _)
  have hnd : (b :: (xs ++ ys)).Nodup := hsub.nodup h.nodup
  obtain ⟨hpA, hpB, hqA, hqB⟩ := neighbours_once hA hB hnd
  have hl : b :: (xs ++ x :: ys) ++ [b] = A ++ p :: x :: q :: B := by
    have := congrArg₂ (fun l r => l ++ x :: r) hA hB
    simpa using this
  have hl' : b :: (xs ++ ys) ++ [b] = A ++ p :: q :: B := by
    rw [← List.cons_append, List.append_assoc, hA, hB, List.append_assoc, List.singleton_append]
  refine ⟨?_, hnd⟩
  rw [hl']
  exact Linked.remove (hl ▸ h.linked) hpA hpB hqA hqB

end Update

end LinkedRing
