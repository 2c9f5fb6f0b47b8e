import Mathlib.Data.List.Basic
import Mathlib.Data.List.Perm.Subperm
import Mathlib.Data.List.Pairwise
import Mathlib.Data.List.TakeWhile
import Mathlib.Order.Lattice
import Mathlib.Tactic.ByContra

/-! Lists of half-open intervals in increasing order: the interval at a point, a new one
put in its place, and some taken out. -/
namespace IntervalList

variable {α ι : Type*} [LinearOrder ι] {lo hi lo' hi' : α → ι} {l : List α}

/-- Non-empty intervals, each of which ends before the later ones start. -/
structure Sorted (lo hi : α → ι) (l : List α) : Prop where
  nonempty : ∀ x ∈ l, lo x < hi x
  ordered : l.Pairwise fun x y => hi x ≤ lo y

/-- The interval of `x` has a point in `[a, b)`, where `a < b`. -/
def Meets (lo hi : α → ι) (a b : ι) (x : α) : Prop := a < hi x ∧ lo x < b

theorem sorted_nil : Sorted lo hi [] := ⟨by simp, List.Pairwise.nil⟩

theorem Sorted.congr (hs : Sorted lo hi l) (h1 : ∀ x ∈ l, lo' x = lo x)
    (h2 : ∀ x ∈ l, hi' x = hi x) : Sorted lo' hi' l := by
  refine ⟨fun x hx => ?_, hs.ordered.imp_of_mem fun {x y} hx hy hxy => ?_⟩
  · rw [h1 x hx, h2 x hx]
    exact hs.nonempty x hx
  · rw [h2 x hx, h1 y hy]
    exact hxy

theorem Sorted.sublist {l' : List α} (hs : Sorted lo hi l) (h : l'.Sublist l) :
    Sorted lo hi l' :=
  ⟨fun x hx => hs.nonempty x (h.subset hx), hs.ordered.sublist h⟩

theorem Sorted.apart (hs : Sorted lo hi l) {x y : α} (hx : x ∈ l) (hy : y ∈ l) (hne : x ≠ y) :
    hi x ≤ lo y ∨ hi y ≤ lo x := by
  have hsymm : Std.Symm fun x y => hi x ≤ lo y ∨ hi y ≤ lo x := ⟨fun _ _ => Or.symm⟩
  have hall : l.Pairwise fun x y => hi x ≤ lo y ∨ hi y ≤ lo x :=
    hs.ordered.imp fun h => Or.inl h
  exact hall.forall hx hy hne

/-- A point lies in one interval at most. -/
theorem Sorted.unique (hs : Sorted lo hi l) {x y : α} {a : ι} (hx : x ∈ l) (hy : y ∈ l)
    (hxa : lo x ≤ a) (hax : a < hi x) (hya : lo y ≤ a) (hay : a < hi y) : x = y := by
  by_contra hne
  rcases hs.apart hx hy hne with h | h
  · exact absurd hax ((h.trans hya).not_gt)
  · exact absurd hay ((h.trans hxa).not_gt)

theorem Sorted.lo_lt (hs : Sorted lo hi l) : l.Pairwise fun x y => lo x < lo y :=
  hs.ordered.imp_of_mem fun {x _} hx _ hxy => (hs.nonempty x hx).trans_le hxy

/-- Between natural numbers there is room for no more than the distance. -/
theorem Sorted.length_le {lo hi : α → ℕ} (hs : Sorted lo hi l) {n : ℕ} (hn : ∀ x ∈ l, hi x ≤ n) :
    l.length ≤ n := by
  have hnd : (l.map lo).Nodup := by
    rw [List.Nodup, List.pairwise_map]
    exact hs.lo_lt.imp fun h => h.ne
  have hsub : l.map lo ⊆ List.range n := by
    intro i hi
    obtain ⟨x, hx, rfl⟩ := List.mem_map.mp hi
    exact List.mem_range.mpr ((hs.nonempty x hx).trans_le (hn x hx))
  calc l.length = (l.map lo).length := (List.length_map lo).symm
    _ ≤ (List.range n).length := (hnd.subperm hsub).length_le
    _ = n := List.length_range

/-- What follows the intervals that start before `a` starts at `a` or later. -/
theorem Sorted.le_of_dropWhile (hs : Sorted lo hi l) {a : ι} {y : α}
    (hy : y ∈ l.dropWhile fun x => decide (lo x < a)) : a ≤ lo y := by
  induction l with
  | nil => simp at hy
  | cons x l ih =>
    by_cases hx : lo x < a
    · rw [List.dropWhile_cons_of_pos (by simpa using hx)] at hy
      exact ih (hs.sublist (List.sublist_cons_self _ _)) hy
    · rw [List.dropWhile_cons_of_neg (by simpa using hx)] at hy
      have hxa : a ≤ lo x := not_lt.mp hx
      rcases List.mem_cons.mp hy with rfl | hy
      · exact hxa
      · exact hxa.trans ((List.pairwise_cons.mp hs.lo_lt).1 y hy).le

/-- An interval that meets none of the others goes before the first that does not start
before it. -/
theorem Sorted.insert (hs : Sorted lo hi l) {n : α} (hn : lo n < hi n)
    (hfree : ∀ x ∈ l, ¬ Meets lo hi (lo n) (hi n) x) :
    Sorted lo hi (l.takeWhile (fun x => decide (lo x < lo n)) ++
      n :: l.dropWhile fun x => decide (lo x < lo n)) := by
  have hsplit := List.takeWhile_append_dropWhile (p := fun x => decide (lo x < lo n)) (l := l)
  have hbefore (x : α) (hx : x ∈ l.takeWhile fun x => decide (lo x < lo n)) : hi x ≤ lo n := by
    have hlt : lo x < lo n := by simpa using List.mem_takeWhile_imp hx
    have hmeets := hfree x (List.takeWhile_subset _ hx)
    exact not_lt.mp fun h => hmeets ⟨h, hlt.trans hn⟩
  have hafter (y : α) (hy : y ∈ l.dropWhile fun x => decide (lo x < lo n)) : hi n ≤ lo y := by
    have hle := hs.le_of_dropWhile hy
    have hyl : y ∈ l := List.dropWhile_subset _ hy
    exact not_lt.mp fun h => hfree y hyl ⟨hle.trans_lt (hs.nonempty y hyl), h⟩
  have hord := hs.ordered
  rw [← hsplit, List.pairwise_append] at hord
  obtain ⟨h1, h2, h3⟩ := hord
  refine ⟨fun x hx => ?_, List.pairwise_append.mpr ⟨h1, List.pairwise_cons.mpr ⟨hafter, h2⟩, ?_⟩⟩
  · rcases List.mem_append.mp hx with hx | hx
    · exact hs.nonempty x (List.takeWhile_subset _ hx)
    · rcases List.mem_cons.mp hx with rfl | hx
      · exact hn
      · exact hs.nonempty x (List.dropWhile_subset _ hx)
  · intro x hx y hy
    rcases List.mem_cons.mp hy with rfl | hy
    · exact hbefore x hx
    · exact h3 x hx y hy

/-- Of a list in order, the one interval that meets a member is the member. -/
theorem Sorted.filter_meets {xs ys : List α} {n : α} (hs : Sorted lo hi (xs ++ n :: ys))
    {p : α → Bool} (hp : ∀ x, p x = true ↔ Meets lo hi (lo n) (hi n) x) :
    (xs ++ n :: ys).filter p = [n] ∧ (xs ++ n :: ys).filter (fun x => !p x) = xs ++ ys := by
  have hn : p n = true := by
    have hne := hs.nonempty n (by simp)
    exact (hp n).mpr ⟨hne, hne⟩
  obtain ⟨_, htail, hcross⟩ := List.pairwise_append.mp hs.ordered
  have hxs (x : α) (hx : x ∈ xs) : p x = false := by
    rw [← Bool.not_eq_true, hp]
    exact fun hm => (hcross x hx n List.mem_cons_self).not_gt hm.1
  have hys (y : α) (hy : y ∈ ys) : p y = false := by
    rw [← Bool.not_eq_true, hp]
    exact fun hm => ((List.pairwise_cons.mp htail).1 y hy).not_gt hm.2
  constructor
  · rw [List.filter_append, List.filter_cons_of_pos hn,
      List.filter_eq_nil_iff.mpr fun x hx => by simp [hxs x hx],
      List.filter_eq_nil_iff.mpr fun y hy => by simp [hys y hy], List.nil_append]
  · rw [List.filter_append, List.filter_cons_of_neg (by simp [hn]),
      List.filter_eq_self.mpr fun x hx => by simp [hxs x hx],
      List.filter_eq_self.mpr fun y hy => by simp [hys y hy]]

end IntervalList
