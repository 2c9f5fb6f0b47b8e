import Dana.Transition
import Mathlib.Data.List.Nodup
import Mathlib.Logic.Function.Basic

/-! Tables of names, each issued at most once and to one object, and what their runs show. -/
namespace NameTable
open Transition

variable {ν α : Type*} {N : ℕ}

/-- The names issued, latest first, and what each denotes now. -/
structure Table (ν α : Type*) where
  issued : List ν
  bound : ν → Option α
  nodup : issued.Nodup
  bound_issued : ∀ n, bound n ≠ none → n ∈ issued

inductive Op (ν α : Type*)
  | insert (a : α) (n : ν)
  | refuse (a : α)
  | lookup (n : ν) (a : Option α)
  | remove (n : ν)

def Table.empty : Table ν α := ⟨[], fun _ => none, List.nodup_nil, fun _ h => absurd rfl h⟩

/-- The names that denote something. -/
def Table.live (t : Table ν α) : List ν := t.issued.filter fun n => (t.bound n).isSome

/-- A table issues `N` names and no more, whatever is removed. -/
inductive Step [DecidableEq ν] (N : ℕ) : Table ν α → Op ν α → Table ν α → Prop
  | insert {t t' : Table ν α} {a : α} {n : ν} (hn : n ∉ t.issued)
    (hi : t'.issued = n :: t.issued) (hb : t'.bound = Function.update t.bound n (some a)) :
    Step N t (.insert a n) t'
  | refuse {t : Table ν α} (a : α) (hf : t.issued.length = N) : Step N t (.refuse a) t
  | lookup (t : Table ν α) (n : ν) : Step N t (.lookup n (t.bound n)) t
  | remove {t t' : Table ν α} {n : ν} (hi : t'.issued = t.issued)
    (hb : t'.bound = Function.update t.bound n none) : Step N t (.remove n) t'

/-- A call that asks nothing of the table leaves it as it is. -/
def Table.Answers [DecidableEq ν] (N : ℕ) (t : Table ν α) : Option (Op ν α) → Table ν α → Prop
  | some op, t' => Step N t op t'
  | none, t' => t' = t

def Op.inserted : Op ν α → Option (ν × α)
  | .insert a n => some (n, a)
  | _ => none

theorem Op.inserted_eq_some {op : Op ν α} {n : ν} {a : α} :
    op.inserted = some (n, a) ↔ op = .insert a n := by
  cases op <;> simp [Op.inserted, and_comm]

/-- The insertions of a list of calls, in order. -/
def inserted (ops : List (Op ν α)) : List (ν × α) := ops.filterMap Op.inserted

theorem mem_inserted {ops : List (Op ν α)} {n : ν} {a : α} :
    (n, a) ∈ inserted ops ↔ .insert a n ∈ ops := by
  rw [inserted, List.mem_filterMap]
  constructor
  · rintro ⟨op, hop, he⟩
    rwa [Op.inserted_eq_some.mp he] at hop
  · exact fun hop => ⟨_, hop, rfl⟩

theorem inserted_append (ops ops' : List (Op ν α)) :
    inserted (ops ++ ops') = inserted ops ++ inserted ops' := List.filterMap_append

/-- The last call of a list that is cut in front of some call: it is behind the cut, or that call. -/
theorem snoc_eq_append_cons {β : Type*} {l l₁ l₂ : List β} {x y : β}
    (h : l ++ [x] = l₁ ++ y :: l₂) :
    (∃ l₃, l₂ = l₃ ++ [x] ∧ l = l₁ ++ y :: l₃) ∨ (l₂ = [] ∧ y = x ∧ l₁ = l) := by
  rcases List.eq_nil_or_concat l₂ with rfl | ⟨l₃, z, rfl⟩
  · obtain ⟨h1, h2⟩ := List.append_inj' h rfl
    exact Or.inr ⟨rfl, (List.cons_eq_cons.mp h2).1.symm, h1.symm⟩
  · rw [List.concat_eq_append, ← List.cons_append, ← List.append_assoc] at h
    obtain ⟨h1, h2⟩ := List.append_inj' h rfl
    obtain rfl := (List.cons_eq_cons.mp h2).1
    exact Or.inl ⟨l₃, List.concat_eq_append, h1⟩

/-- `a` was inserted under `n`, which has not been removed since. -/
def Standing (ops : List (Op ν α)) (n : ν) (a : α) : Prop :=
  ∃ l₁ l₂, ops = l₁ ++ .insert a n :: l₂ ∧ .remove n ∉ l₂

/-- `n` was issued, and removed after that. -/
def Dropped (ops : List (Op ν α)) (n : ν) : Prop :=
  ∃ l₁ l₂ a, ops = l₁ ++ .remove n :: l₂ ∧ .insert a n ∈ l₁

theorem standing_snoc {ops : List (Op ν α)} {op : Op ν α} {n : ν} {a : α} :
    Standing (ops ++ [op]) n a ↔ (Standing ops n a ∧ op ≠ .remove n) ∨ op = .insert a n := by
  constructor
  · intro ⟨l₁, l₂, h, hr⟩
    rcases snoc_eq_append_cons h with ⟨l₃, rfl, hops⟩ | ⟨_, rfl, _⟩
    · rw [List.mem_append, not_or, List.mem_singleton] at hr
      exact Or.inl ⟨⟨l₁, l₃, hops, hr.1⟩, fun he => hr.2 he.symm⟩
    · exact Or.inr rfl
  · intro h
    rcases h with ⟨⟨l₁, l₂, rfl, hr⟩, hne⟩ | rfl
    · refine ⟨l₁, l₂ ++ [op], by simp, ?_⟩
      rw [List.mem_append, not_or, List.mem_singleton]
      exact ⟨hr, fun he => hne he.symm⟩
    · exact ⟨ops, [], rfl, List.not_mem_nil⟩

theorem dropped_snoc {ops : List (Op ν α)} {op : Op ν α} {n : ν} :
    Dropped (ops ++ [op]) n ↔ Dropped ops n ∨ (op = .remove n ∧ ∃ a, .insert a n ∈ ops) := by
  constructor
  · intro ⟨l₁, l₂, a, h, hi⟩
    rcases snoc_eq_append_cons h with ⟨l₃, rfl, hops⟩ | ⟨_, rfl, rfl⟩
    · exact Or.inl ⟨l₁, l₃, a, hops, hi⟩
    · exact Or.inr ⟨rfl, a, hi⟩
  · intro h
    rcases h with ⟨l₁, l₂, a, rfl, hi⟩ | ⟨rfl, a, hi⟩
    · exact ⟨l₁, l₂ ++ [op], a, by simp, hi⟩
    · exact ⟨ops, [], a, rfl, hi⟩

section Run
variable [DecidableEq ν] {t : Table ν α} {ops : List (Op ν α)} (hr : Run (Step N) Table.empty ops t)
include hr

theorem run_issued : t.issued = ((inserted ops).map Prod.fst).reverse := by
  refine hr.inv_trace (I := fun ops t => t.issued = ((inserted ops).map Prod.fst).reverse) ?_ rfl
  intro ops t op t' hs ih
  rw [inserted_append, List.map_append, List.reverse_append, ← ih]
  cases hs with
  | insert hn hi hb => exact hi
  | refuse a hf => rfl
  | lookup n => rfl
  | remove hi hb => exact hi

/-- No name is handed out twice. -/
theorem run_nodup : ((inserted ops).map Prod.fst).Nodup := by
  have h := t.nodup
  rwa [run_issued hr, List.nodup_reverse] at h

/-- Nor is a name ever given to something else. -/
theorem run_unique {n : ν} {a b : α} (ha : .insert a n ∈ ops) (hb : .insert b n ∈ ops) : a = b := by
  have hinj := List.inj_on_of_nodup_map (run_nodup hr) (mem_inserted.mpr ha) (mem_inserted.mpr hb)
  exact (Prod.ext_iff.mp (hinj rfl)).2

theorem run_issued_length : t.issued.length = (inserted ops).length := by
  rw [run_issued hr, List.length_reverse, List.length_map]

/-- A name denotes what was inserted under it, as long as it has not been removed since. -/
theorem run_bound (n : ν) (a : α) : t.bound n = some a ↔ Standing ops n a := by
  refine hr.inv_trace (I := fun ops t => t.bound n = some a ↔ Standing ops n a) ?_ ?_
  · intro ops t op t' hs ih
    rw [standing_snoc, ← ih]
    cases hs with
    | @insert _ b m hm hi hb =>
      rw [hb]
      by_cases hnm : n = m
      · subst hnm
        have hnone : t.bound n = none := not_not.mp fun h => hm (t.bound_issued n h)
        simp [hnone]
      · simp [hnm, Ne.symm hnm]
    | refuse b hf => simp
    | lookup m => simp
    | @remove _ m hi hb =>
      rw [hb]
      by_cases hnm : n = m
      · simp [hnm]
      · simp [hnm, Ne.symm hnm]
  · constructor
    · intro h
      cases h
    · intro ⟨l₁, l₂, h, _⟩
      exact absurd h.symm (by simp)

theorem mem_issued {n : ν} : n ∈ t.issued ↔ ∃ a, .insert a n ∈ ops := by
  rw [run_issued hr, List.mem_reverse, List.mem_map]
  constructor
  · intro ⟨⟨m, a⟩, hm, he⟩
    rw [← he]
    exact ⟨a, mem_inserted.mp hm⟩
  · intro ⟨a, ha⟩
    exact ⟨(n, a), mem_inserted.mpr ha, rfl⟩

end Run

theorem run_dropped [DecidableEq ν] {t : Table ν α} {ops : List (Op ν α)}
    (hr : Run (Step N) Table.empty ops t) (n : ν) :
    n ∈ t.issued ∧ t.bound n = none ↔ Dropped ops n := by
  induction hr with
  | start =>
    constructor
    · intro ⟨h, _⟩
      exact absurd h List.not_mem_nil
    · intro ⟨l₁, l₂, a, h, _⟩
      exact absurd h.symm (by simp)
  | @snoc ops op t t' hr hs ih =>
    rw [dropped_snoc, ← ih, ← mem_issued hr]
    cases hs with
    | @insert _ b m hm hi hb =>
      rw [hi, hb]
      by_cases hnm : n = m
      · simp [hnm, hm]
      · simp [hnm]
    | refuse b hf => simp
    | lookup m => simp
    | @remove _ m hi hb =>
      rw [hi, hb]
      by_cases hnm : n = m
      · subst hnm
        rw [Function.update_self]
        exact ⟨fun h => Or.inr ⟨rfl, h.1⟩, fun h => ⟨h.elim And.left And.right, rfl⟩⟩
      · simp [hnm, Ne.symm hnm]

/-- Every name issued is live exactly when none has been dropped. -/
theorem run_live [DecidableEq ν] {t : Table ν α} {ops : List (Op ν α)}
    (hr : Run (Step N) Table.empty ops t) :
    t.live.length = t.issued.length ↔ ∀ n, ¬ Dropped ops n := by
  rw [Table.live, List.length_filter_eq_length_iff]
  constructor
  · intro h n hd
    obtain ⟨hi, hb⟩ := (run_dropped hr n).mpr hd
    have := h n hi
    rw [hb] at this
    cases this
  · intro h n hi
    cases hb : t.bound n with
    | none => exact absurd ((run_dropped hr n).mp ⟨hi, hb⟩) (h n)
    | some a => rfl

end NameTable
