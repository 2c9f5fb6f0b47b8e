import Mathlib.Data.List.Basic
import Mathlib.Tactic.Tauto

/-! Radix trees stored in a heap of nodes: each node is a table of cells, `ptr` says
which node a cell points to and `val` which value a cell of the last level holds.
Labels give each node its tree and its path, and so keep trees apart. -/
namespace RadixTree

variable {N I E R V : Type*} (ptr : E → Option N) (val : E → Option V)

/-- The node that the path leads to. -/
def node (T : N → I → E) : N → List I → Option N
  | n, [] => some n
  | n, i :: p => (ptr (T n i)).bind fun c => node T c p

/-- The value at index `i` of the node at the end of the path. -/
def leaf (T : N → I → E) (n : N) (p : List I) (i : I) : Option V :=
  (node ptr T n p).bind fun m => val (T m i)

/-- Every step of the path `p`, begun after `q`, is one that `dom` allows. -/
def Path (dom : List I → I → Prop) : List I → List I → Prop
  | _, [] => True
  | q, i :: p => dom q i ∧ Path dom (q ++ [i]) p

/-- Pointers lead from a labelled node to the nodes labelled as its children. -/
def Forest (T : N → I → E) (dom : List I → I → Prop) (lab : N → Option (R × List I)) : Prop :=
  ∀ n r p i c, lab n = some (r, p) → dom p i → ptr (T n i) = some c → lab c = some (r, p ++ [i])

variable {ptr} {val}
variable {T T' : N → I → E} {dom : List I → I → Prop} {lab lab' : N → Option (R × List I)}

@[simp] theorem node_nil (n : N) : node ptr T n [] = some n := rfl

theorem node_cons (n : N) (i : I) (p : List I) :
    node ptr T n (i :: p) = (ptr (T n i)).bind fun c => node ptr T c p := rfl

theorem node_cons_some {n m : N} {i : I} {p : List I} : node ptr T n (i :: p) = some m ↔
    ∃ c, ptr (T n i) = some c ∧ node ptr T c p = some m :=
  Option.bind_eq_some_iff

theorem node_single {n m : N} {i : I} : node ptr T n [i] = some m ↔ ptr (T n i) = some m := by
  simp [node_cons_some]

theorem node_pair {n m : N} {i j : I} : node ptr T n [i, j] = some m ↔
    ∃ c, ptr (T n i) = some c ∧ ptr (T c j) = some m := by
  rw [node_cons_some]
  simp only [node_single]

theorem node_triple {n m : N} {i j l : I} : node ptr T n [i, j, l] = some m ↔
    ∃ c, ptr (T n i) = some c ∧ ∃ d, ptr (T c j) = some d ∧ ptr (T d l) = some m := by
  rw [node_cons_some]
  simp only [node_pair]

theorem node_append (n : N) (p q : List I) :
    node ptr T n (p ++ q) = (node ptr T n p).bind fun m => node ptr T m q := by
  induction p generalizing n with
  | nil => rfl
  | cons i p ih =>
    rw [List.cons_append, node_cons, node_cons, Option.bind_assoc]
    exact Option.bind_congr fun c _ => ih c

theorem node_concat (n : N) (p : List I) (i : I) :
    node ptr T n (p ++ [i]) = (node ptr T n p).bind fun m => ptr (T m i) := by
  rw [node_append]
  refine Option.bind_congr fun m _ => ?_
  rw [node_cons]
  cases ptr (T m i) <;> rfl

/-- A node depends on the pointers on the way to it only. -/
theorem node_congr {ptr' : E → Option N} (n : N) (p : List I)
    (h : ∀ q i s, p = q ++ i :: s → ∀ m, node ptr T n q = some m → ptr' (T' m i) = ptr (T m i)) :
    node ptr' T' n p = node ptr T n p := by
  induction p generalizing n with
  | nil => rfl
  | cons i p ih =>
    rw [node_cons, node_cons, h [] i p rfl n rfl]
    refine Option.bind_congr fun c hc => ih c fun q j s hp m hm => ?_
    refine h (i :: q) j s (by rw [hp, List.cons_append]) m ?_
    rw [node_cons, hc, Option.bind_some, hm]

theorem path_append (q p s : List I) : Path dom q (p ++ s) ↔ Path dom q p ∧ Path dom (q ++ p) s := by
  induction p generalizing q with
  | nil => simp [Path]
  | cons i p ih =>
    rw [List.cons_append, Path, Path, ih, List.append_assoc, List.singleton_append, and_assoc]

theorem Forest.node_lab (hF : Forest ptr T dom lab) {n m : N} {r : R} {q p : List I}
    (hn : lab n = some (r, q)) (hp : Path dom q p) (hm : node ptr T n p = some m) :
    lab m = some (r, q ++ p) := by
  induction p generalizing n q with
  | nil =>
    obtain rfl := Option.some.inj hm
    rw [List.append_nil]
    exact hn
  | cons i p ih =>
    rw [node_cons_some] at hm
    obtain ⟨c, hc, hm⟩ := hm
    have := ih (hF n r q i c hn hp.1 hc) hp.2 hm
    rwa [List.append_assoc] at this

/-- Trees agree where the pointers of the labelled nodes agree. -/
theorem Forest.node_eq {ptr' : E → Option N} (hF : Forest ptr T dom lab)
    (hT : ∀ m r q i, lab m = some (r, q) → dom q i → ptr' (T' m i) = ptr (T m i)) {n : N} {r : R}
    {q p : List I} (hn : lab n = some (r, q)) (hp : Path dom q p) :
    node ptr' T' n p = node ptr T n p := by
  refine node_congr n p fun q' i s hs m hm => ?_
  rw [hs, path_append] at hp
  exact hT m r (q ++ q') i (hF.node_lab hn hp.1 hm) hp.2.1

/-- The same pointers, the same forest. -/
theorem Forest.congr (hF : Forest ptr T dom lab)
    (hT : ∀ m r q i, lab m = some (r, q) → dom q i → ptr (T' m i) = ptr (T m i)) :
    Forest ptr T' dom lab := by
  intro n r p i c hn hd hc
  rw [hT n r p i hn hd] at hc
  exact hF n r p i c hn hd hc

/-- `T'` hangs the new, empty node `c` below cell `i0` of node `n0`. -/
structure Links (ptr : E → Option N) (val : E → Option V) (T T' : N → I → E)
    (dom : List I → I → Prop) (lab lab' : N → Option (R × List I)) (n0 : N) (i0 : I) (c : N)
    (r0 : R) (p0 : List I) : Prop where
  parent : lab n0 = some (r0, p0)
  inner : dom p0 i0
  empty : ptr (T n0 i0) = none
  fresh : lab c = none
  link : ptr (T' n0 i0) = some c
  other : ∀ n i, lab n ≠ none → ¬ (n = n0 ∧ i = i0) → T' n i = T n i
  noPtr : ∀ i, ptr (T' c i) = none
  noVal : ∀ i, val (T' c i) = none
  new : lab' c = some (r0, p0 ++ [i0])
  old : ∀ n, n ≠ c → lab' n = lab n

section Links
variable {n0 c : N} {i0 : I} {r0 : R} {p0 : List I}

theorem Links.labelled_ne (hL : Links ptr val T T' dom lab lab' n0 i0 c r0 p0) {n : N}
    {l : R × List I} (hn : lab n = some l) : n ≠ c := by
  rintro rfl
  rw [hL.fresh] at hn
  cases hn

theorem Links.forest (hL : Links ptr val T T' dom lab lab' n0 i0 c r0 p0)
    (hF : Forest ptr T dom lab) : Forest ptr T' dom lab' := by
  intro n r p i m hn hd hm
  by_cases hnc : n = c
  · rw [hnc, hL.noPtr] at hm
    cases hm
  rw [hL.old n hnc] at hn
  by_cases hcell : n = n0 ∧ i = i0
  · obtain ⟨rfl, rfl⟩ := hcell
    obtain rfl := Option.some.inj (hL.link.symm.trans hm)
    obtain ⟨rfl, rfl⟩ := Prod.mk.inj (Option.some.inj (hL.parent.symm.trans hn))
    exact hL.new
  · rw [hL.other n i (by simp [hn]) hcell] at hm
    have hlab := hF n r p i m hn hd hm
    rw [hL.old m (hL.labelled_ne hlab)]
    exact hlab

/-- What a path led to, it still leads to. -/
theorem Links.node_mono (hL : Links ptr val T T' dom lab lab' n0 i0 c r0 p0)
    (hF : Forest ptr T dom lab) {n m : N} {r : R} {q p : List I} (hn : lab n = some (r, q))
    (hp : Path dom q p) (hm : node ptr T n p = some m) : node ptr T' n p = some m := by
  induction p generalizing n q with
  | nil => exact hm
  | cons i p ih =>
    rw [node_cons_some] at hm
    obtain ⟨d, hd, hm⟩ := hm
    have hcell : ¬ (n = n0 ∧ i = i0) := by
      rintro ⟨rfl, rfl⟩
      rw [hL.empty] at hd
      cases hd
    rw [node_cons, hL.other n i (by simp [hn]) hcell, hd, Option.bind_some]
    exact ih (hF n r q i d hn hp.1 hd) hp.2 hm

/-- A path that leads somewhere led there before, or leads to the new node. -/
theorem Links.node_cases (hL : Links ptr val T T' dom lab lab' n0 i0 c r0 p0)
    (hF : Forest ptr T dom lab) {n m : N} {r : R} {q p : List I} (hn : lab n = some (r, q))
    (hp : Path dom q p) (hm : node ptr T' n p = some m) :
    node ptr T n p = some m ∨ m = c ∧ node ptr T n p = none := by
  induction p generalizing n q with
  | nil => exact Or.inl hm
  | cons i p ih =>
    rw [node_cons_some] at hm
    obtain ⟨d, hd, hm⟩ := hm
    by_cases hcell : n = n0 ∧ i = i0
    · obtain ⟨rfl, rfl⟩ := hcell
      obtain rfl := Option.some.inj (hL.link.symm.trans hd)
      cases p with
      | nil =>
        refine Or.inr ⟨(Option.some.inj hm).symm, ?_⟩
        rw [node_cons, hL.empty, Option.bind_none]
      | cons j p =>
        rw [node_cons, hL.noPtr, Option.bind_none] at hm
        cases hm
    · rw [hL.other n i (by simp [hn]) hcell] at hd
      rw [node_cons, hd, Option.bind_some]
      exact ih (hF n r q i d hn hp.1 hd) hp.2 hm

/-- The new node is empty, so no value of any tree changes, if that of the linking cell does
not. -/
theorem Links.leaf_same (hL : Links ptr val T T' dom lab lab' n0 i0 c r0 p0)
    (hF : Forest ptr T dom lab) {n : N} {r : R} {p : List I} {i : I} (hn : lab n = some (r, []))
    (hp : Path dom [] p) (hcell : p = p0 → i = i0 → val (T' n0 i0) = val (T n0 i0)) :
    leaf ptr val T' n p i = leaf ptr val T n p i := by
  rw [leaf, leaf]
  cases hm' : node ptr T' n p with
  | none =>
    cases hm : node ptr T n p with
    | none => rfl
    | some m =>
      rw [hL.node_mono hF hn hp hm] at hm'
      cases hm'
  | some m =>
    rcases hL.node_cases hF hn hp hm' with hm | ⟨rfl, hm⟩
    · have hlab := hF.node_lab hn hp hm
      rw [hm, Option.bind_some, Option.bind_some]
      by_cases hc : m = n0 ∧ i = i0
      · obtain ⟨rfl, rfl⟩ := hc
        obtain ⟨_, rfl⟩ := Prod.mk.inj (Option.some.inj (hL.parent.symm.trans hlab))
        exact hcell rfl rfl
      · rw [hL.other m i (by simp [hlab]) hc]
    · rw [hm, Option.bind_some, Option.bind_none, hL.noVal]

theorem Links.leaf_eq (hL : Links ptr val T T' dom lab lab' n0 i0 c r0 p0)
    (hF : Forest ptr T dom lab) {n : N} {r : R} {p : List I} {i : I} (hn : lab n = some (r, []))
    (hp : Path dom [] p) (hi : ¬ dom p i) :
    leaf ptr val T' n p i = leaf ptr val T n p i := by
  refine hL.leaf_same hF hn hp ?_
  rintro rfl rfl
  exact absurd hL.inner hi

end Links

section Write
variable {n0 n : N} {i0 : I} {r0 r : R} {p0 p : List I}

/-- Writing a cell of the last level changes no node. -/
theorem Forest.node_write (hF : Forest ptr T dom lab) (h0 : lab n0 = some (r0, p0))
    (hi0 : ¬ dom p0 i0) (hT : ∀ n i, lab n ≠ none → ¬ (n = n0 ∧ i = i0) → T' n i = T n i)
    (hn : lab n = some (r, [])) (hp : Path dom [] p) : node ptr T' n p = node ptr T n p := by
  refine hF.node_eq (fun m r' q j hm hd => ?_) hn hp
  rw [hT m j (by simp [hm])]
  rintro ⟨rfl, rfl⟩
  obtain ⟨_, rfl⟩ := Prod.mk.inj (Option.some.inj (h0.symm.trans hm))
  exact hi0 hd

/-- Nor does it change a value at another place. -/
theorem Forest.leaf_write (val : E → Option V) (hF : Forest ptr T dom lab)
    (h0 : lab n0 = some (r0, p0)) (hi0 : ¬ dom p0 i0)
    (hT : ∀ n i, lab n ≠ none → ¬ (n = n0 ∧ i = i0) → T' n i = T n i) (i : I)
    (hn : lab n = some (r, [])) (hp : Path dom [] p) (hne : ¬ (r = r0 ∧ p = p0 ∧ i = i0)) :
    leaf ptr val T' n p i = leaf ptr val T n p i := by
  rw [leaf, leaf, hF.node_write h0 hi0 hT hn hp]
  refine Option.bind_congr fun m hm => ?_
  have hlab := hF.node_lab hn hp hm
  rw [hT m i (by simp [hlab])]
  rintro ⟨rfl, rfl⟩
  obtain ⟨rfl, rfl⟩ := Prod.mk.inj (Option.some.inj (h0.symm.trans hlab))
  exact hne ⟨rfl, by simp, rfl⟩

/-- Writing a cell of the last level changes that value and no other, in any tree. -/
theorem Forest.leaf_set (val : E → Option V) (hF : Forest ptr T dom lab)
    (h0 : lab n0 = some (r0, p0)) (hi0 : ¬ dom p0 i0)
    (hT : ∀ n i, lab n ≠ none → ¬ (n = n0 ∧ i = i0) → T' n i = T n i) (i : I)
    (hn : lab n = some (r, [])) (hp : Path dom [] p)
    (hroot : r = r0 → node ptr T n p0 = some n0) [Decidable (r = r0 ∧ p = p0 ∧ i = i0)] :
    leaf ptr val T' n p i =
      if r = r0 ∧ p = p0 ∧ i = i0 then val (T' n0 i0) else leaf ptr val T n p i := by
  split_ifs with h
  · obtain ⟨rfl, rfl, rfl⟩ := h
    rw [leaf, hF.node_write h0 hi0 hT hn hp, hroot rfl, Option.bind_some]
  · exact hF.leaf_write val h0 hi0 hT i hn hp h

end Write

end RadixTree
