import Dana.Transition
import Mathlib.Data.List.Basic
import Mathlib.Logic.Function.Basic

/-! First-in first-out mailboxes, and the ledger of a run: what became of each message. -/
namespace Mailbox
open Transition

variable {P M : Type*} [DecidableEq P]

inductive Event (P M : Type*)
  | sent (p : P) (m : M)
  | received (p : P) (m : M)
  | closed (p : P)

/-- The mailboxes of all ports; a step of the system that touches none has no event. -/
inductive Step : (P → List M) → Option (Event P M) → (P → List M) → Prop
  | idle (b : P → List M) : Step b none b
  | sent (b : P → List M) (p : P) (m : M) :
    Step b (some (.sent p m)) (Function.update b p (b p ++ [m]))
  | received (b : P → List M) {p : P} {m : M} {ms : List M} (hb : b p = m :: ms) :
    Step b (some (.received p m)) (Function.update b p ms)
  | closed (b : P → List M) (p : P) : Step b (some (.closed p)) (Function.update b p [])

inductive Fate
  | waiting
  | delivered (step : ℕ)
  | discarded (step : ℕ)
  deriving DecidableEq

structure Letter (P M : Type*) where
  port : P
  msg : M
  fate : Fate

def Event.letter : Option (Event P M) → Option (P × M)
  | some (.sent p m) => some (p, m)
  | _ => none

/-- The letters still waiting for `p`. -/
def waitingFor (p : P) (ls : List (Letter P M)) : List (Letter P M) :=
  ls.filter fun l => l.port = p ∧ l.fate = .waiting

/-- One letter for each message sent, in order: those that wait are the mailboxes' contents,
each reception delivers one, and what else is gone was closed with its mailbox. -/
structure Ledger (es : List (Option (Event P M))) (b : P → List M) (ls : List (Letter P M)) :
    Prop where
  sent : ls.map (fun l => (l.port, l.msg)) = es.filterMap Event.letter
  waiting : ∀ p, b p = (waitingFor p ls).map Letter.msg
  delivered : ∀ k p m, es[k]? = some (some (.received p m)) ↔ ⟨p, m, .delivered k⟩ ∈ ls
  once : ∀ k, (ls.filter fun l => l.fate = .delivered k).length ≤ 1
  discarded : ∀ l ∈ ls, ∀ k, l.fate = .discarded k → es[k]? = some (some (.closed l.port))

section Ledger
variable {es : List (Option (Event P M))} {b : P → List M} {ls : List (Letter P M)}

theorem getElem?_of_append {α : Type*} {l : List α} {k : ℕ} {a : α} (e : α)
    (h : l[k]? = some a) : (l ++ [e])[k]? = some a := by
  rw [List.getElem?_append_left (List.getElem?_eq_some_iff.mp h).1]
  exact h

theorem Ledger.delivered_lt (hl : Ledger es b ls) {l : Letter P M} {k : ℕ} (hm : l ∈ ls)
    (hf : l.fate = .delivered k) : k < es.length := by
  have hmem : ⟨l.port, l.msg, .delivered k⟩ ∈ ls := hf ▸ hm
  exact (List.getElem?_eq_some_iff.mp ((hl.delivered k _ _).mpr hmem)).1

/-- An event that is no reception leaves the deliveries as they are. -/
theorem Ledger.delivered_snoc (hl : Ledger es b ls) {e : Option (Event P M)}
    (he : ∀ p m, e ≠ some (.received p m)) (k : ℕ) (p : P) (m : M) :
    (es ++ [e])[k]? = some (some (.received p m)) ↔ ⟨p, m, .delivered k⟩ ∈ ls := by
  rw [← hl.delivered]
  constructor
  · intro h
    rcases List.getElem?_eq_some_iff.mp h with ⟨hk, hv⟩
    rw [List.length_append, List.length_singleton] at hk
    by_cases hlt : k < es.length
    · rwa [List.getElem?_append_left hlt] at h
    · obtain rfl : k = es.length := by omega
      rw [List.getElem?_concat_length] at h
      exact absurd (Option.some.inj h) (he p m)
  · exact getElem?_of_append e

theorem Ledger.nil : Ledger [] (fun _ : P => ([] : List M)) [] := by
  refine ⟨rfl, fun _ => rfl, fun k p m => ?_, fun k => Nat.zero_le _, fun l hl => ?_⟩
  · simp
  · simp at hl

theorem Ledger.idle (hl : Ledger es b ls) : Ledger (es ++ [none]) b ls := by
  refine ⟨?_, hl.waiting, hl.delivered_snoc (by simp), hl.once, fun l hm k hf => ?_⟩
  · rw [List.filterMap_append, hl.sent]
    simp [Event.letter]
  · exact getElem?_of_append none (hl.discarded l hm k hf)

theorem Ledger.post (hl : Ledger es b ls) (p : P) (m : M) :
    Ledger (es ++ [some (.sent p m)]) (Function.update b p (b p ++ [m]))
      (ls ++ [⟨p, m, .waiting⟩]) := by
  refine ⟨?_, fun q => ?_, fun k q x => ?_, fun k => ?_, fun l hm k hf => ?_⟩
  · rw [List.filterMap_append, List.map_append, hl.sent]
    simp [Event.letter]
  · rw [waitingFor, List.filter_append, List.map_append, ← waitingFor, ← hl.waiting,
      Function.update_apply]
    by_cases hq : q = p
    · rw [hq]
      simp
    · rw [if_neg hq]
      simp [Ne.symm hq]
  · rw [hl.delivered_snoc (by simp), List.mem_append]
    simp
  · rw [List.filter_append]
    simpa using hl.once k
  · rw [List.mem_append, List.mem_singleton] at hm
    rcases hm with hm | rfl
    · exact getElem?_of_append _ (hl.discarded l hm k hf)
    · cases hf

/-- No step to come has delivered anything. -/
theorem Ledger.not_delivered (hl : Ledger es b ls) {k : ℕ} (hk : es.length ≤ k)
    {l : Letter P M} (hm : l ∈ ls) : l.fate ≠ .delivered k := by
  intro hf
  exact absurd (hl.delivered_lt hm hf) (by omega)

section Deliver
variable {l1 l2 : List (Letter P M)} {a : Letter P M}

/-- The delivery of the letter `a` is the only one that a reception adds. -/
theorem Ledger.delivered_deliver (hl : Ledger es b (l1 ++ a :: l2)) (hfate : a.fate = .waiting)
    (k : ℕ) (q : P) (x : M) :
    (es ++ [some (.received a.port a.msg)])[k]? = some (some (.received q x)) ↔
      ⟨q, x, .delivered k⟩ ∈ l1 ++ { a with fate := .delivered es.length } :: l2 := by
  have hmem : (⟨q, x, .delivered k⟩ : Letter P M) ∈
      l1 ++ { a with fate := .delivered es.length } :: l2 ↔
      ⟨q, x, .delivered k⟩ ∈ l1 ++ a :: l2 ∨
        k = es.length ∧ q = a.port ∧ x = a.msg := by
    have hne : (⟨q, x, .delivered k⟩ : Letter P M) ≠ a := by
      rintro rfl
      cases hfate
    simp only [List.mem_append, List.mem_cons, hne, false_or, Letter.mk.injEq, Fate.delivered.injEq]
    tauto
  rw [hmem, ← hl.delivered]
  rcases Nat.lt_trichotomy k es.length with hk | hk | hk
  · rw [List.getElem?_append_left hk]
    exact (or_iff_left fun hc => absurd hc.1 (by omega)).symm
  · subst hk
    rw [List.getElem?_concat_length, List.getElem?_eq_none (Nat.le_refl _)]
    simp [eq_comm]
  · rw [List.getElem?_eq_none (by simp; omega), List.getElem?_eq_none (Nat.le_of_lt hk)]
    simp
    omega

theorem Ledger.once_deliver (hl : Ledger es b (l1 ++ a :: l2)) (hfate : a.fate = .waiting)
    (k : ℕ) : ((l1 ++ { a with fate := .delivered es.length } :: l2).filter
      fun l => l.fate = .delivered k).length ≤ 1 := by
  have hold := hl.once k
  rw [List.filter_append, List.filter_cons] at hold ⊢
  by_cases hk : k = es.length
  · have hnone (l' : List (Letter P M)) (hsub : ∀ l ∈ l', l ∈ l1 ++ a :: l2) :
        l'.filter (fun l => decide (l.fate = .delivered k)) = [] := by
      refine List.filter_eq_nil_iff.mpr fun l hm => ?_
      simpa using hl.not_delivered (Nat.le_of_eq hk.symm) (hsub l hm)
    rw [hnone l1 fun l hm => List.mem_append_left _ hm,
      hnone l2 fun l hm => List.mem_append_right _ (List.mem_cons_of_mem _ hm)]
    split_ifs <;> simp
  · simpa [hfate, Ne.symm hk] using hold

end Deliver

/-- The first letter that waits is the one delivered. -/
theorem Ledger.deliver (hl : Ledger es b ls) {p : P} {m : M} {ms : List M} (hb : b p = m :: ms) :
    ∃ ls', Ledger (es ++ [some (.received p m)]) (Function.update b p ms) ls' := by
  obtain ⟨a, rest, hw, ham, hrest⟩ :=
    List.map_eq_cons_iff.mp ((hl.waiting p).symm.trans hb)
  obtain ⟨l1, l2, rfl, hl1, ha, hl2⟩ := List.filter_eq_cons_iff.mp hw
  obtain ⟨rfl, hfate⟩ : a.port = p ∧ a.fate = .waiting := by simpa using ha
  subst ham hrest
  refine ⟨l1 ++ { a with fate := .delivered es.length } :: l2, ?_, fun q => ?_,
    hl.delivered_deliver hfate, hl.once_deliver hfate, fun l hm k hf => ?_⟩
  · have hs := hl.sent
    rw [List.map_append, List.map_cons] at hs
    rw [List.filterMap_append, List.map_append, List.map_cons, ← hs]
    simp [Event.letter]
  · have hold := hl.waiting q
    rw [waitingFor, List.filter_append, List.filter_cons] at hold ⊢
    by_cases hq : q = a.port
    · have h1 : l1.filter (fun l => decide (l.port = q ∧ l.fate = .waiting)) = [] := by
        rw [hq]
        exact List.filter_eq_nil_iff.mpr hl1
      rw [hq] at h1
      rw [hq, Function.update_self, h1, ← hl2]
      simp
    · rw [Function.update_of_ne hq, hold]
      simp [Ne.symm hq]
  · have hold : l ∈ l1 ++ a :: l2 := by
      rw [List.mem_append, List.mem_cons] at hm ⊢
      rcases hm with hm | rfl | hm
      · exact Or.inl hm
      · cases hf
      · exact Or.inr (Or.inr hm)
    exact getElem?_of_append _ (hl.discarded l hold k hf)

/-- What becomes of a letter when the mailbox of `p` is closed in step `k`. -/
def Letter.discard (p : P) (k : ℕ) (l : Letter P M) : Letter P M :=
  if l.port = p ∧ l.fate = .waiting then { l with fate := .discarded k } else l

theorem Letter.discard_delivered (p : P) (k j : ℕ) (l : Letter P M) :
    (l.discard p k).fate = .delivered j ↔ l.fate = .delivered j := by
  unfold Letter.discard
  split_ifs with h
  · simp [h.2]
  · rfl

theorem Letter.discard_same (p : P) (k : ℕ) (l : Letter P M) :
    (l.discard p k).port = l.port ∧ (l.discard p k).msg = l.msg := by
  unfold Letter.discard
  split_ifs <;> exact ⟨rfl, rfl⟩

theorem Letter.discard_of_delivered (p : P) {k j : ℕ} {l : Letter P M}
    (h : l.fate = .delivered j) : l.discard p k = l := by
  rw [Letter.discard, if_neg]
  simp [h]

theorem Ledger.close (hl : Ledger es b ls) (p : P) :
    Ledger (es ++ [some (.closed p)]) (Function.update b p [])
      (ls.map (Letter.discard p es.length)) := by
  have hw (q : P) : waitingFor q (ls.map (Letter.discard p es.length)) =
      if q = p then [] else waitingFor q ls := by
    split_ifs with hq
    · refine List.filter_eq_nil_iff.mpr fun l hm => ?_
      obtain ⟨l', _, rfl⟩ := List.mem_map.mp hm
      unfold Letter.discard
      split_ifs with hd
      · simp
      · simpa [hq] using hd
    · rw [waitingFor, List.filter_map, waitingFor]
      have hsame : ((fun l : Letter P M => decide (l.port = q ∧ l.fate = .waiting)) ∘
          Letter.discard p es.length) = fun l => decide (l.port = q ∧ l.fate = .waiting) := by
        funext l
        simp only [Function.comp, Letter.discard]
        split_ifs with hd
        · simp [hd.1, Ne.symm hq]
        · rfl
      rw [hsame]
      refine (List.map_congr_left fun l hm => ?_).trans (List.map_id _)
      have hp : l.port = q := (by simpa using (List.mem_filter.mp hm).2 : _ ∧ _).1
      rw [Letter.discard, if_neg (fun hd => hq (hp.symm.trans hd.1))]
      rfl
  refine ⟨?_, fun q => ?_, fun k q x => ?_, fun k => ?_, fun l hm k hf => ?_⟩
  · rw [List.map_map, List.filterMap_append, ← hl.sent]
    simp [Event.letter, Function.comp_def, Letter.discard_same]
  · rw [hw, Function.update_apply]
    split_ifs
    · rfl
    · exact hl.waiting q
  · rw [hl.delivered_snoc (by simp), List.mem_map]
    constructor
    · exact fun h => ⟨_, h, Letter.discard_of_delivered p rfl⟩
    · rintro ⟨l, hm, he⟩
      have hf : l.fate = .delivered k :=
        (Letter.discard_delivered p es.length k l).mp (congrArg Letter.fate he)
      rw [Letter.discard_of_delivered p hf] at he
      exact he ▸ hm
  · rw [List.filter_map, List.length_map]
    have hsame : ((fun l : Letter P M => decide (l.fate = .delivered k)) ∘
        Letter.discard p es.length) = fun l => decide (l.fate = .delivered k) := by
      funext l
      simp only [Function.comp, Letter.discard_delivered]
    rw [hsame]
    exact hl.once k
  · obtain ⟨l', hm', rfl⟩ := List.mem_map.mp hm
    rw [(l'.discard_same p es.length).1]
    unfold Letter.discard at hf
    split_ifs at hf with hd
    · obtain rfl : es.length = k := Fate.discarded.inj hf
      rw [List.getElem?_concat_length, hd.1]
    · exact getElem?_of_append _ (hl.discarded l' hm' k hf)

/-- Every run of the mailboxes has a ledger. -/
theorem run_ledger (hr : Run Step (fun _ : P => ([] : List M)) es b) : ∃ ls, Ledger es b ls := by
  refine hr.inv_trace (I := fun es b => ∃ ls, Ledger es b ls) ?_ ⟨[], Ledger.nil⟩
  rintro es b e b' hs ⟨ls, hl⟩
  cases hs with
  | idle => exact ⟨ls, hl.idle⟩
  | sent p m => exact ⟨_, hl.post p m⟩
  | received hb => exact hl.deliver hb
  | closed p => exact ⟨_, hl.close p⟩

/-- Every letter waits in its mailbox, or was received, or was closed with its mailbox. -/
theorem Ledger.accounted (hl : Ledger es b ls) {l : Letter P M} (hm : l ∈ ls) :
    l.msg ∈ b l.port ∨ (∃ k : ℕ, es[k]? = some (some (Event.received l.port l.msg))) ∨
      ∃ k : ℕ, es[k]? = some (some (Event.closed l.port)) := by
  rcases hf : l.fate with _ | k | k
  · left
    rw [hl.waiting]
    exact List.mem_map_of_mem (List.mem_filter.mpr ⟨hm, by simp [hf]⟩)
  · have hmem : ⟨l.port, l.msg, .delivered k⟩ ∈ ls := hf ▸ hm
    exact Or.inr (Or.inl ⟨k, (hl.delivered k _ _).mpr hmem⟩)
  · exact Or.inr (Or.inr ⟨k, hl.discarded l hm k hf⟩)

end Ledger
end Mailbox
