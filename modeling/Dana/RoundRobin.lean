import Dana.Transition
import Mathlib.Data.List.Nodup

/-! Round-robin queues: whoever is at the front takes a turn and goes to the back, while
others come and go. Two that stay take their turns alternately. -/
namespace RoundRobin
open Transition List

variable {α : Type*} {q q' : List α} {t u : α}

inductive Event (α : Type*)
  | idle
  | push (x : α)
  | drop (x : α)
  | turn (x : α)
  deriving DecidableEq

/-- With nobody queued the turn goes to somebody outside. -/
inductive Step [DecidableEq α] : List α → Event α → List α → Prop
  | idle (q : List α) : Step q .idle q
  | push {q : List α} {x : α} (hx : x ∉ q) : Step q (.push x) (q ++ [x])
  | drop {q : List α} {x : α} (hx : x ∈ q) : Step q (.drop x) (q.erase x)
  | turn (x : α) (rest : List α) : Step (x :: rest) (.turn x) (rest ++ [x])
  | outside (x : α) : Step [] (.turn x) []

/-- Who is at the front is behind nobody. -/
theorem not_ahead_of_front {rest : List α} (hq : (t :: rest).Nodup) (htu : t ≠ u) :
    ¬ [u, t] <+ t :: rest := by
  intro h
  have htail : [u, t] <+ rest := h.of_cons_of_ne htu.symm
  exact (nodup_cons.mp hq).1 (htail.subset (by simp))

/-- Who takes a turn goes behind everybody else. -/
theorem ahead_of_back {rest : List α} (hu : u ∈ t :: rest) (htu : t ≠ u) :
    [u, t] <+ rest ++ [t] := by
  have hrest : [u] <+ rest := singleton_sublist.mpr ((mem_cons.mp hu).resolve_left htu.symm)
  exact hrest.append (Sublist.refl [t])

variable [DecidableEq α]

theorem Step.nodup {e : Event α} (hs : Step q e q') (hq : q.Nodup) : q'.Nodup := by
  cases hs with
  | idle => exact hq
  | push hx => exact nodup_append_comm.mp (nodup_cons.mpr ⟨hx, hq⟩)
  | drop hx => exact hq.erase _
  | turn x rest => exact nodup_append_comm.mp hq
  | outside x => exact hq

/-- A step that is a turn of neither of two that stay keeps their order. -/
theorem Step.ahead {e : Event α} (hs : Step q e q') (ht : t ∈ q') (hu : u ∈ q')
    (hq : q.Nodup) (hnt : e ≠ .turn t) (hnu : e ≠ .turn u) (h : [u, t] <+ q) : [u, t] <+ q' := by
  cases hs with
  | idle => exact h
  | push hx => exact h.trans (sublist_append_left _ _)
  | @drop _ x hx =>
    have hxt : t ≠ x := fun he => hq.not_mem_erase (he ▸ ht)
    have hxu : u ≠ x := fun he => hq.not_mem_erase (he ▸ hu)
    have herase : [u, t].erase x = [u, t] := erase_of_not_mem (by simp [hxt.symm, hxu.symm])
    rw [← herase]
    exact h.erase x
  | turn x rest =>
    have hux : u ≠ x := fun he => hnu (he ▸ rfl)
    exact (h.of_cons_of_ne hux).trans (sublist_append_left _ _)
  | outside x => exact h

/-- Without a turn, whoever is at the front stays there until dropped. -/
theorem Step.front {c : α} {rest : List α} {e : Event α} (hs : Step (c :: rest) e q')
    (hturn : ∀ x, e ≠ .turn x) (hdrop : e ≠ .drop c) : ∃ rest', q' = c :: rest' := by
  cases hs with
  | idle => exact ⟨rest, rfl⟩
  | push hx => exact ⟨_, rfl⟩
  | @drop _ x hx =>
    have hcx : c ≠ x := fun he => hdrop (he ▸ rfl)
    exact ⟨_, erase_cons_tail (by simpa using hcx)⟩
  | turn => exact absurd rfl (hturn c)

/-- Between two turns of one of them, the other has been ahead and taken one turn, or is ahead. -/
theorem run_alternates {es : List (Event α)} (htu : t ≠ u) (hq : q.Nodup)
    (hr : Run (fun q e q' => Step q e q' ∧ (t ∈ q ∧ u ∈ q) ∧ t ∈ q' ∧ u ∈ q') q es q')
    (hmid : .turn t ∉ es) (h : [u, t] <+ q) :
    q'.Nodup ∧ ((es.count (.turn u) = 0 ∧ [u, t] <+ q') ∨
      (es.count (.turn u) = 1 ∧ [t, u] <+ q')) := by
  induction hr with
  | start => exact ⟨hq, Or.inl ⟨rfl, h⟩⟩
  | @snoc es e q₁ q₂ _ hs ih =>
    obtain ⟨hs, ⟨ht, hu⟩, ht', hu'⟩ := hs
    rw [mem_append, not_or, mem_singleton] at hmid
    obtain ⟨hnd, ih⟩ := ih hmid.1
    refine ⟨hs.nodup hnd, ?_⟩
    rw [count_append]
    by_cases hturn : e = .turn u
    · subst hturn
      cases hs with
      | turn _ rest =>
        rcases ih with ⟨hc, _⟩ | ⟨_, ha⟩
        · rw [hc]
          exact Or.inr ⟨by simp, ahead_of_back ht htu.symm⟩
        · exact absurd ha (not_ahead_of_front hnd htu.symm)
      | outside => exact absurd ht not_mem_nil
    · have hcount : [e].count (.turn u) = 0 := by simp [hturn]
      rw [hcount, Nat.add_zero]
      rcases ih with ⟨hc, ha⟩ | ⟨hc, ha⟩
      · exact Or.inl ⟨hc, hs.ahead ht' hu' hnd (Ne.symm hmid.2) hturn ha⟩
      · exact Or.inr ⟨hc, hs.ahead hu' ht' hnd hturn (Ne.symm hmid.2) ha⟩

/-- Fairness: between two consecutive turns of one there is exactly one turn of the other. -/
theorem run_fair {es pre mid post : List (Event α)} (htu : t ≠ u) (hq : q.Nodup)
    (hr : Run (fun q e q' => Step q e q' ∧ (t ∈ q ∧ u ∈ q) ∧ t ∈ q' ∧ u ∈ q') q es q')
    (hes : es = pre ++ .turn t :: (mid ++ .turn t :: post)) (hmid : .turn t ∉ mid) :
    mid.count (.turn u) = 1 := by
  obtain ⟨q₁, h₁, hr⟩ := hr.split hes
  have hnd₁ : q₁.Nodup := h₁.inv (fun _ _ _ hs => hs.1.nodup) hq
  obtain ⟨q₂, ⟨hs, ⟨ht, hu⟩, _⟩, hr⟩ := hr.cons_inv rfl
  obtain ⟨q₃, hmidr, hr⟩ := hr.split rfl
  obtain ⟨q₄, ⟨hs', ⟨ht', _⟩, _⟩, _⟩ := hr.cons_inv rfl
  have hahead : [u, t] <+ q₂ := by
    cases hs with
    | turn _ rest => exact ahead_of_back hu htu
    | outside => exact absurd ht not_mem_nil
  obtain ⟨hnd₃, h⟩ := run_alternates htu (hs.nodup hnd₁) hmidr hmid hahead
  rcases h with ⟨_, ha⟩ | ⟨hc, _⟩
  · cases hs' with
    | turn _ rest => exact absurd ha (not_ahead_of_front hnd₃ htu)
    | outside => exact absurd ht' not_mem_nil
  · exact hc

/-- Whoever has had the last turn is at the front, and others wait. -/
def Stuck (c : α) (q : List α) : Prop := ∃ x rest, q = c :: x :: rest

section Stuck
variable {c x : α}

omit [DecidableEq α] in
theorem stuck_push (h : ¬ Stuck c q) : Stuck c (q ++ [x]) ↔ q = [c] := by
  constructor
  · intro ⟨y, rest, he⟩
    cases q with
    | nil => simp at he
    | cons a q =>
      cases q with
      | nil => rw [(cons_eq_cons.mp he).1]
      | cons b q => exact absurd ⟨b, q, by rw [(cons_eq_cons.mp he).1]⟩ h
  · intro he
    exact ⟨x, [], by rw [he]; rfl⟩

theorem stuck_drop (hx : x ∈ q) (h : ¬ Stuck c q) :
    Stuck c (q.erase x) ↔ ∃ y rest, q = x :: c :: y :: rest := by
  cases q with
  | nil => exact absurd hx not_mem_nil
  | cons a q =>
    by_cases hax : a = x
    · subst hax
      rw [erase_cons_head]
      constructor
      · intro ⟨y, rest, he⟩
        exact ⟨y, rest, by rw [he]⟩
      · intro ⟨y, rest, he⟩
        exact ⟨y, rest, (cons_eq_cons.mp he).2⟩
    · rw [erase_cons_tail (by simpa using hax)]
      constructor
      · intro ⟨y, rest, he⟩
        -- what waits behind the front has waited there before
        obtain ⟨rfl, hrest⟩ := cons_eq_cons.mp he
        cases q with
        | nil => simp at hrest
        | cons b q => exact absurd ⟨b, q, rfl⟩ h
      · intro ⟨y, rest, he⟩
        exact absurd (cons_eq_cons.mp he).1 hax

omit [DecidableEq α] in
theorem not_stuck_turn {rest : List α} (hq : (x :: rest).Nodup) : ¬ Stuck x (rest ++ [x]) := by
  intro ⟨y, ys, he⟩
  cases rest with
  | nil => simp at he
  | cons a rest =>
    rw [(cons_eq_cons.mp he).1] at hq
    exact (nodup_cons.mp hq).1 mem_cons_self

end Stuck

end RoundRobin
