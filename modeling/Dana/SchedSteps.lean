import Dana.RoundRobin
import Dana.SchedLinks
import Dana.SchedRuns

/-! The scheduler as a system of steps, in which the idle thread may be blocked like any
other, and the round-robin queue that its run queue is. -/
namespace Dana
open ByteMem LinkedRing Sched Transition

/-- The kernel with the threads that `thread_create` has returned. -/
structure SchedWorld where
  kern : Kern
  created : List Word

/-- A call with its result: the thread made, or the thread switched to. -/
inductive SchedOp
  | create (thread : Option Word)
  | run (next : Option Word)
  | yield (next : Option Word)
  | block (t : Word)
  | unblock (t : Word)

namespace SchedWorld

def sched (w : SchedWorld) : Sched := w.kern.sched

def withSched (w : SchedWorld) (s : Sched) : SchedWorld := { w with kern := { w.kern with sched := s } }

end SchedWorld

/-- `sched_block` is called on a queued thread, `sched_unblock` on a blocked one. -/
inductive SchedStep (h : Hhdm) (threadTrampoline : Word) : SchedWorld → SchedOp → SchedWorld → Prop
  | create (w : SchedWorld) {task entry arg : Word} {kr : KernReturn} {t : Option Word} {k : Kern}
    (he : threadCreate h threadTrampoline task entry arg w.kern = (kr, t, k)) :
    SchedStep h threadTrampoline w (.create t) ⟨k, t.toList ++ w.created⟩
  | run (w : SchedWorld) :
    SchedStep h threadTrampoline w (.run ((schedRun w.sched).1.map Prod.snd))
      (w.withSched (schedRun w.sched).2)
  | yield (w : SchedWorld) :
    SchedStep h threadTrampoline w (.yield ((threadYield w.sched).1.map Prod.snd))
      (w.withSched (threadYield w.sched).2)
  | block (w : SchedWorld) {t : Word} (hq : Queued w.sched t) :
    SchedStep h threadTrampoline w (.block t) (w.withSched (schedBlock w.sched t))
  | unblock (w : SchedWorld) {t : Word} (ht : t ∈ w.created) (hst : w.sched.state t = .blocked) :
    SchedStep h threadTrampoline w (.unblock t) (w.withSched (schedUnblock w.sched t))

/-- What holds of the run queue whoever is blocked: it is well formed, nobody in it is BLOCKED,
and whoever is not in it is linked to nothing. -/
structure QueueInv (s : Sched) (created qs : List Word) : Prop where
  queue : s.Queue qs
  mem_created : ∀ t ∈ qs, t ∈ created
  awake : ∀ t ∈ qs, s.state t ≠ .blocked
  unlinked : ∀ t ∈ created, t ≠ threadNull → t ∉ qs →
    s.next t = threadNull ∧ s.prev t = threadNull
  idle : s.cpuIdleThread = threadNull ∨ s.cpuIdleThread ∈ created

section Queue
variable {s s' : Sched} {created qs : List Word} {t : Word}

theorem QueueInv.nodup (hI : QueueInv s created qs) : qs.Nodup :=
  (List.nodup_cons.mp hI.queue.ring.nodup).2

/-- The states in which no thread has been taken off the queue but by blocking it. -/
theorem SchedInv.queueInv (hs : SchedInv s created qs) (hu : Unlinked s created) :
    QueueInv s created qs := by
  refine ⟨hs.queue, fun t ht => ((hs.mem_iff t).mp ht).1, fun t ht hb => ?_,
    fun t ht ht0 hq => hu t ht ht0 fun hrun => hq ((hs.mem_iff t).mpr ⟨ht, hrun⟩), ?_⟩
  · have hrun := ((hs.mem_iff t).mp ht).2
    rw [hb] at hrun
    simp [ThreadState.CanRun] at hrun
  · exact hs.idle.imp id fun hq => ((hs.mem_iff _).mp hq).1

theorem QueueInv.congr (hI : QueueInv s created qs) (hu : Untouched created s s') :
    QueueInv s' created qs := by
  refine ⟨hu.queue hI.queue hI.mem_created, hI.mem_created, fun t ht => ?_, fun t ht ht0 hq => ?_, ?_⟩
  · rw [hu.state (hI.mem_created t ht)]
    exact hI.awake t ht
  · rw [next_of_ne _ _ ht0, prev_of_ne _ _ ht0, hu.threads t ht, ← next_of_ne _ _ ht0,
      ← prev_of_ne _ _ ht0]
    exact hI.unlinked t ht ht0 hq
  · rw [hu.idle]
    exact hI.idle

/-- A thread that joins the queue: newly created, or unblocked. -/
theorem QueueInv.enqueue (hI : QueueInv s created qs) (ht : t ≠ threadNull) (hnew : t ∉ qs)
    (hst : s.state t ≠ .blocked) {created' : List Word}
    (hc : ∀ x, x ∈ created' ↔ x = t ∨ x ∈ created) :
    QueueInv (schedEnqueue s t).2 created' (qs ++ [t]) := by
  obtain ⟨_, _, _, _, hsame⟩ := schedEnqueue_spec s t ht
  refine ⟨hI.queue.enqueue ht hnew, fun x hx => ?_, fun x hx => ?_, fun x hx hx0 hq => ?_, ?_⟩
  · rw [List.mem_append, List.mem_singleton] at hx
    exact (hc x).mpr (hx.elim (fun h => Or.inr (hI.mem_created x h)) Or.inl)
  · rw [List.mem_append, List.mem_singleton] at hx
    rw [hsame.state]
    rcases hx with hx | rfl
    · exact hI.awake x hx
    · exact hst
  · rw [List.mem_append, not_or, List.mem_singleton] at hq
    obtain ⟨hn, hp⟩ := schedEnqueue_outside hI.queue ht hx0 hq.2 hq.1
    rw [hn, hp]
    exact hI.unlinked x (((hc x).mp hx).resolve_left hq.2) hx0 hq.1
  · rw [hsame.idle]
    exact hI.idle.imp id fun h => (hc _).mpr (Or.inr h)

/-- A thread may change its state, but not to BLOCKED inside the queue. -/
theorem QueueInv.setState (hI : QueueInv s created qs) {st : ThreadState}
    (hst : t ∈ qs → st ≠ .blocked) : QueueInv (s.setState t st) created qs := by
  refine ⟨hI.queue.setState t st, hI.mem_created, fun x hx => ?_, ?_, hI.idle⟩
  · rw [setState_state, Function.update_apply]
    split_ifs with hxt
    · exact hst (hxt ▸ hx)
    · exact hI.awake x hx
  · rw [setState_next, setState_prev]
    exact hI.unlinked

/-- `sched_dequeue` takes a queued thread out, wherever it stands. -/
theorem Sched.Queue.erase (hq : s.Queue qs) (ht : t ∈ qs) :
    (schedDequeue s t).2.Queue (qs.erase t) := by
  obtain ⟨xs, ys, rfl⟩ := List.append_of_mem ht
  have hnd := (List.nodup_cons.mp hq.ring.nodup).2
  rw [List.nodup_middle, List.nodup_cons, List.mem_append, not_or] at hnd
  rw [List.erase_append_right _ hnd.1.1, List.erase_cons_head]
  exact hq.dequeue

theorem QueueInv.block (hI : QueueInv s created qs) (ht : t ∈ qs) :
    QueueInv (schedBlock s t) created (qs.erase t) := by
  have ht0 := hI.queue.ne_null ht
  obtain ⟨hstate, _, hidle⟩ := schedBlock_spec s ht0
  have hb : schedBlock s t = (schedDequeue (s.setState t .blocked) t).2 := by
    rw [schedBlock, if_neg ht0, schedSetState_of_ne s t _ ht0]
  refine ⟨?_, fun x hx => hI.mem_created x (List.mem_of_mem_erase hx), fun x hx => ?_,
    fun x hx hx0 hq => ?_, ?_⟩
  · rw [hb]
    exact (hI.queue.setState t .blocked).erase ht
  · rw [hI.nodup.mem_erase_iff] at hx
    rw [hstate, Function.update_of_ne hx.1]
    exact hI.awake x hx.2
  · rw [hb]
    by_cases hxt : x = t
    · rw [hxt]
      exact schedDequeue_self _ ht0
    · have hout : x ∉ qs := fun h => hq ((List.mem_erase_of_ne hxt).mpr h)
      obtain ⟨hn, hp⟩ := schedDequeue_outside (hI.queue.setState t .blocked) ht hx0 hout
      rw [hn, hp, setState_next, setState_prev]
      exact hI.unlinked x hx hx0 hout
  · rw [hidle]
    exact hI.idle

theorem QueueInv.unblock (hI : QueueInv s created qs) (ht : t ∈ created) (ht0 : t ≠ threadNull)
    (hst : s.state t = .blocked) : t ∉ qs ∧ QueueInv (schedUnblock s t) created (qs ++ [t]) := by
  have hnew : t ∉ qs := fun hq => hI.awake t hq hst
  refine ⟨hnew, ?_⟩
  rw [schedUnblock, if_neg ht0, schedSetState_of_ne s t _ ht0]
  refine (hI.setState fun _ => ?_).enqueue ht0 hnew ?_ fun x => ?_
  · decide
  · rw [setState_state, Function.update_self]
    decide
  · exact ⟨Or.inr, fun h => h.elim (fun he => he ▸ ht) id⟩

/-- A dispatch from the queue moves its first thread to the back. -/
theorem QueueInv.turn {n : Word} {rest : List Word} (hI : QueueInv s created (n :: rest))
    (hcur : n ≠ s.cpuCurrentThread) :
    (schedRun s).1 = some (s.cpuCurrentThread, n) ∧ (schedRun s).2.cpuCurrentThread = n ∧
      QueueInv (schedRun s).2 created (rest ++ [n]) := by
  have hn0 := hI.queue.ne_null (t := n) (by simp)
  obtain ⟨s1, hs1⟩ : ∃ s1, s1 = (schedRetire s s.cpuCurrentThread).setState n .running := ⟨_, rfl⟩
  have hq1 : s1.Queue ([] ++ n :: rest) := by
    rw [hs1]
    exact ((schedRetire_spec hI.queue _).1).setState n _
  obtain ⟨_, _, _, _, hsame⟩ := schedDequeue_spec s1 n hn0
  obtain ⟨_, _, _, _, hsame'⟩ := schedEnqueue_spec (schedDequeue s1 n).2 n hn0
  have hrun := schedRun_eq hI.queue hcur
  rw [← hs1] at hrun
  have hstate : (schedRun s).2.state =
      Function.update (schedRetire s s.cpuCurrentThread).state n .running := by
    rw [hrun]
    change (schedEnqueue _ n).2.state = _
    rw [hsame'.state, hsame.state, hs1, setState_state]
  have hmem (x : Word) : x ∈ rest ++ [n] ↔ x ∈ n :: rest := by
    simp [or_comm]
  refine ⟨by rw [hrun], by rw [hrun], ?_, fun x hx => ?_, fun x hx => ?_, fun x hx hx0 hq => ?_, ?_⟩
  · have hnew : n ∉ rest := (List.nodup_cons.mp hI.nodup).1
    rw [hrun]
    exact (hq1.dequeue.enqueue hn0 hnew).congr rfl rfl rfl
  · exact hI.mem_created x ((hmem x).mp hx)
  · rw [hstate, Function.update_apply]
    split_ifs with hxn
    · decide
    · rw [ne_eq, schedRetire_blocked]
      exact hI.awake x ((hmem x).mp hx)
  · have hout : x ∉ n :: rest := fun h => hq ((hmem x).mpr h)
    obtain ⟨hn, hp⟩ := schedRun_outside hI.queue hcur hx0 hout
    rw [hn, hp]
    exact hI.unlinked x hx hx0 hout
  · rw [schedRun_idle]
    exact hI.idle

/-- With the queue empty the idle thread is dispatched, unless it is current; it stays out of
the queue. -/
theorem QueueInv.outside (hI : QueueInv s created []) :
    (schedRun s = (none, s) ∧
      (s.cpuIdleThread = threadNull ∨ s.cpuIdleThread = s.cpuCurrentThread)) ∨
    (s.cpuIdleThread ≠ s.cpuCurrentThread ∧
      (schedRun s).1 = some (s.cpuCurrentThread, s.cpuIdleThread) ∧
      (schedRun s).2.cpuCurrentThread = s.cpuIdleThread ∧ QueueInv (schedRun s).2 created []) := by
  have hhead : s.runqueue.head = threadNull := hI.queue.head_eq
  have hchoose : schedChoose s = s.cpuIdleThread := by
    rw [schedChoose, if_neg (not_not.mpr hhead)]
    split_ifs with h
    · rfl
    · exact (not_not.mp h).symm
  by_cases hno : s.cpuIdleThread = threadNull ∨ s.cpuIdleThread = s.cpuCurrentThread
  · left
    rw [schedRun, hchoose, if_pos hno]
    exact ⟨rfl, hno⟩
  right
  obtain ⟨h0, hne⟩ := not_or.mp hno
  have hidle : s.cpuIdleThread ∈ created := hI.idle.resolve_left h0
  obtain ⟨s1, hs1⟩ : ∃ s1, s1 =
    (schedRetire s s.cpuCurrentThread).setState s.cpuIdleThread .running := ⟨_, rfl⟩
  obtain ⟨hq, hrq, hid, _⟩ := schedRetire_spec hI.queue s.cpuCurrentThread
  obtain ⟨hn, hp⟩ := schedRetire_links s s.cpuCurrentThread
  have hnext : s1.next = s.next := by
    rw [hs1, setState_next, hn]
  have hprev : s1.prev = s.prev := by
    rw [hs1, setState_prev, hp]
  have hq1 : s1.Queue [] := by
    rw [hs1]
    exact hq.setState _ _
  obtain ⟨hn0, hp0⟩ := hI.unlinked _ hidle h0 List.not_mem_nil
  have hin : ¬ ((s1.threads s.cpuIdleThread).prev ≠ threadNull ∨
      (s1.threads s.cpuIdleThread).next ≠ threadNull ∨ s1.runqueue.head = s.cpuIdleThread) := by
    rw [← next_of_ne _ _ h0, ← prev_of_ne _ _ h0, hnext, hprev, hn0, hp0,
      show s1.runqueue.head = threadNull from hq1.head_eq]
    simp [Ne.symm h0]
  have hrun : schedRun s = (some (s.cpuCurrentThread, s.cpuIdleThread),
      { s1 with cpuCurrentThread := s.cpuIdleThread }) := by
    rw [schedRun, hchoose, if_neg hno]
    simp only [schedSetState_of_ne _ s.cpuIdleThread _ h0, ← hs1]
    rw [if_neg hin]
  rw [hrun]
  refine ⟨hne, rfl, rfl, hq1.congr rfl rfl rfl, hI.mem_created, fun x hx => ?_, ?_, ?_⟩
  · exact absurd hx List.not_mem_nil
  · change ∀ t ∈ created, t ≠ threadNull → t ∉ [] → s1.next t = _ ∧ s1.prev t = _
    rw [hnext, hprev]
    exact hI.unlinked
  · change s1.cpuIdleThread = _ ∨ s1.cpuIdleThread ∈ created
    rw [hs1]
    change (schedRetire s _).cpuIdleThread = _ ∨ (schedRetire s _).cpuIdleThread ∈ created
    rw [hid]
    exact hI.idle

end Queue

/-- What a dispatch is to the queue. -/
def turnOf : Option Word → RoundRobin.Event Word
  | none => .idle
  | some n => .turn n

/-- What a step is to the queue. -/
def SchedOp.event : SchedOp → RoundRobin.Event Word
  | .create none => .idle
  | .create (some t) => .push t
  | .run next => turnOf next
  | .yield next => turnOf next
  | .block t => .drop t
  | .unblock t => .push t

/-- The thread that a step switches to. -/
def SchedOp.next : SchedOp → Option Word
  | .run next => next
  | .yield next => next
  | _ => none

structure SchedOk (h : Hhdm) (w : SchedWorld) (qs : List Word) : Prop where
  queue : QueueInv w.sched w.created qs
  zones : KernZone h w.kern w.created

section Step
variable {h : Hhdm} {tr : Word} {w w' : SchedWorld} {qs : List Word} {op : SchedOp}

theorem SchedOk.withSched (hw : SchedOk h w qs) {s : Sched} {qs' : List Word}
    (hs : QueueInv s w.created qs') : SchedOk h (w.withSched s) qs' :=
  ⟨hs, hw.zones.pageZero, hw.zones.noZone, hw.zones.zone⟩

/-- A call of `sched_run` or `thread_yield` is a turn of the first in the queue, or nothing. -/
theorem SchedOk.run (hw : SchedOk h w qs) :
    ∃ qs', RoundRobin.Step qs (turnOf ((schedRun w.sched).1.map Prod.snd)) qs' ∧
      SchedOk h (w.withSched (schedRun w.sched).2) qs' ∧
      (schedRun w.sched).2.cpuCurrentThread =
        ((schedRun w.sched).1.map Prod.snd).getD w.sched.cpuCurrentThread ∧
      (schedRun w.sched).1.map Prod.snd ≠ some w.sched.cpuCurrentThread := by
  cases qs with
  | nil =>
    rcases hw.queue.outside with ⟨he, _⟩ | ⟨hne, hsw, hcur, hI⟩
    · rw [he]
      exact ⟨_, .idle _, hw, rfl, by simp⟩
    · rw [hsw, hcur]
      exact ⟨_, .outside _, hw.withSched hI, rfl, by simpa using hne⟩
  | cons n rest =>
    by_cases hn : n = w.sched.cpuCurrentThread
    · have he : schedRun w.sched = (none, w.sched) := by
        rw [schedRun, hw.queue.queue.choose, if_pos (Or.inr hn)]
      rw [he]
      exact ⟨_, .idle _, hw, rfl, by simp⟩
    · obtain ⟨hsw, hcur, hI⟩ := hw.queue.turn hn
      rw [hsw, hcur]
      exact ⟨_, .turn n rest, hw.withSched hI, rfl, by simpa using hn⟩

/-- Every step is one of the round-robin queue. -/
theorem SchedOk.step (hw : SchedOk h w qs) (hs : SchedStep h tr w op w') :
    ∃ qs', RoundRobin.Step qs op.event qs' ∧ SchedOk h w' qs' ∧
      w'.sched.cpuCurrentThread = op.next.getD w.sched.cpuCurrentThread ∧
      op.next ≠ some w.sched.cpuCurrentThread ∧
      w'.sched.cpuIdleThread = w.sched.cpuIdleThread := by
  cases hs with
  | @create task entry arg kr t k he =>
    rcases threadCreate_effect hw.zones tr task entry arg with
      ⟨t', k', s, he', htc, hk', hunt, hst, hsched⟩ | ⟨k', he', hk', hunt⟩
    · cases he'.symm.trans he
      have ht0 : t' ≠ threadNull := hk'.ne_null List.mem_cons_self
      have hnew : t' ∉ qs := fun hq => htc (hw.queue.mem_created t' hq)
      obtain ⟨_, _, _, _, hsame⟩ := schedEnqueue_spec s t' ht0
      have hI : QueueInv k.sched (t' :: w.created) (qs ++ [t']) := by
        rw [hsched]
        refine (hw.queue.congr hunt).enqueue ht0 hnew ?_ fun x => List.mem_cons
        rw [hst]
        decide
      refine ⟨_, .push hnew, ⟨hI, hk'⟩, ?_, by simp [SchedOp.next], ?_⟩
      · change k.sched.cpuCurrentThread = _
        rw [hsched, hsame.current, hunt.current]
        rfl
      · change k.sched.cpuIdleThread = _
        rw [hsched, hsame.idle, hunt.idle]
        rfl
    · cases he'.symm.trans he
      exact ⟨qs, .idle qs, ⟨hw.queue.congr hunt, hk'⟩, hunt.current, by simp [SchedOp.next],
        hunt.idle⟩
  | run =>
    obtain ⟨qs', hstep, hw', hcur, hne⟩ := hw.run
    exact ⟨qs', hstep, hw', hcur, hne, schedRun_idle _⟩
  | yield =>
    rw [threadYield_eq]
    obtain ⟨qs', hstep, hw', hcur, hne⟩ := hw.run
    exact ⟨qs', hstep, hw', hcur, hne, schedRun_idle _⟩
  | @block t hq =>
    have ht := (hw.queue.queue.queued_iff t).mp hq
    obtain ⟨_, hcur, hid⟩ := schedBlock_spec w.sched (hw.queue.queue.ne_null ht)
    exact ⟨_, .drop ht, hw.withSched (hw.queue.block ht), hcur, by simp [SchedOp.next], hid⟩
  | @unblock t ht hst =>
    have ht0 := hw.zones.ne_null ht
    obtain ⟨hnew, hI⟩ := hw.queue.unblock ht ht0 hst
    obtain ⟨_, hcur, hid⟩ := schedUnblock_spec w.sched ht0
    exact ⟨_, .push hnew, hw.withSched hI, hcur, by simp [SchedOp.next], hid⟩

end Step

end Dana
