import Dana.SchedSteps

/-! Who gets the CPU: fairness between queued threads, and when a yield finds somebody to
switch to. -/
namespace Dana
open ByteMem LinkedRing Sched Transition RoundRobin

/-- The run queue from its head on, as long as its count says. -/
def runQueue (s : Sched) : List Word :=
  (follow (fun t => (s.threads t).next) threadNull s.runqueue.count.toNat s.runqueue.head).getD []

/-- If anybody but the current thread is queued, a yield switches to somebody else. -/
def YieldProgress (s : Sched) : Prop :=
  (∃ t ∈ runQueue s, t ≠ s.cpuCurrentThread) →
    ∃ next, (threadYield s).1 = some (s.cpuCurrentThread, next) ∧ next ≠ s.cpuCurrentThread

/-- A step does not bring the current thread to the front with others behind it: nobody joins
while it alone is queued, and the last one in front of it does not leave while others wait. -/
def KeepsTurn (s : Sched) : SchedOp → Prop
  | .create (some _) => runQueue s ≠ [s.cpuCurrentThread]
  | .unblock _ => runQueue s ≠ [s.cpuCurrentThread]
  | .block t => ∀ x rest, runQueue s ≠ t :: s.cpuCurrentThread :: x :: rest
  | _ => True

/-- The kernel after `sched_init` and `sched_create_idle`. -/
def SchedWorld.boot (h : Hhdm) (threadTrampoline idleThreadEntry : Word) (k : Kern) : SchedWorld where
  kern := (schedCreateIdle h threadTrampoline idleThreadEntry
    { k with sched := schedInit k.sched }).2.2
  created := (schedCreateIdle h threadTrampoline idleThreadEntry
    { k with sched := schedInit k.sched }).2.1.toList

section Run
variable {h : Hhdm} {tr : Word} {w w' : SchedWorld} {qs : List Word} {op : SchedOp}

theorem SchedOk.runQueue_eq (hw : SchedOk h w qs) : runQueue w.sched = qs := by
  have hcount : w.sched.runqueue.count.toNat = qs.length := by
    rw [hw.queue.queue.count, BitVec.toNat_ofNat,
      Nat.mod_eq_of_lt (hw.zones.length_lt hw.queue.nodup hw.queue.mem_created)]
  rw [runQueue, hcount, hw.queue.queue.follow_next _ le_rfl]
  rfl

theorem SchedOk.yieldProgress (hw : SchedOk h w qs) :
    YieldProgress w.sched ↔ ¬ Stuck w.sched.cpuCurrentThread qs := by
  rw [YieldProgress, hw.runQueue_eq, threadYield_eq]
  cases qs with
  | nil => simp [Stuck]
  | cons n rest =>
    by_cases hn : n = w.sched.cpuCurrentThread
    · have he : schedRun w.sched = (none, w.sched) := by
        rw [schedRun, hw.queue.queue.choose, if_pos (Or.inr hn)]
      have hnew : n ∉ rest := (List.nodup_cons.mp hw.queue.nodup).1
      rw [he, ← hn]
      cases rest with
      | nil => simp [Stuck]
      | cons x rest =>
        have hx : x ≠ n := fun he => hnew (he ▸ List.mem_cons_self)
        simp [Stuck, hx]
    · obtain ⟨hsw, _, _⟩ := hw.queue.turn hn
      rw [hsw]
      simp [Stuck, hn]

theorem schedBoot_ok {k : Kern} (hk : SchedBoot k) (idleEntry : Word) :
    SchedOk h (SchedWorld.boot h tr idleEntry k) (SchedWorld.boot h tr idleEntry k).created := by
  obtain ⟨hI, _⟩ := schedCreateIdle_inv (h := h) hk tr idleEntry
  refine ⟨hI.sched.queueInv fun t ht ht0 hrun => ?_, hI.zones⟩
  exact absurd ((hI.sched.mem_iff t).mp ht).2 hrun

/-- Where the current thread is not stuck, the step says whether it becomes so. -/
theorem SchedOk.keepsTurn (hw : SchedOk h w qs) (hs : SchedStep h tr w op w')
    (hst : ¬ Stuck w.sched.cpuCurrentThread qs) :
    YieldProgress w'.sched ↔ KeepsTurn w.sched op := by
  obtain ⟨qs', hstep, hw', hcur, _⟩ := hw.step hs
  rw [hw'.yieldProgress, hcur]
  have hdispatch {next : Option Word} (hstep : RoundRobin.Step qs (turnOf next) qs') :
      ¬ Stuck (next.getD w.sched.cpuCurrentThread) qs' := by
    cases next with
    | none =>
      cases hstep
      exact hst
    | some n =>
      cases hstep with
      | turn _ rest => exact not_stuck_turn hw.queue.nodup
      | outside => simp [Stuck]
  have hpush {t : Word} (hstep : RoundRobin.Step qs (.push t) qs') :
      ¬ Stuck w.sched.cpuCurrentThread qs' ↔ runQueue w.sched ≠ [w.sched.cpuCurrentThread] := by
    rw [hw.runQueue_eq]
    cases hstep with
    | push => exact not_congr (stuck_push hst)
  cases op with
  | create t =>
    cases t with
    | none =>
      cases hstep
      exact iff_of_true hst trivial
    | some t => exact hpush hstep
  | run next => exact iff_of_true (hdispatch hstep) trivial
  | yield next => exact iff_of_true (hdispatch hstep) trivial
  | block t =>
    rw [KeepsTurn, hw.runQueue_eq]
    cases hstep with
    | drop ht =>
      change ¬ Stuck w.sched.cpuCurrentThread _ ↔ _
      rw [stuck_drop ht hst]
      simp only [not_exists, ne_eq]
  | unblock t => exact hpush hstep

/-- A step switches to a thread exactly when it is a turn of it. -/
theorem SchedOp.event_eq_turn {x : Word} : op.event = .turn x ↔ op.next = some x := by
  cases op with
  | create t => cases t <;> simp [SchedOp.event, SchedOp.next]
  | run next => cases next <;> simp [SchedOp.event, SchedOp.next, turnOf]
  | yield next => cases next <;> simp [SchedOp.event, SchedOp.next, turnOf]
  | block t => simp [SchedOp.event, SchedOp.next]
  | unblock t => simp [SchedOp.event, SchedOp.next]

theorem SchedOp.event_ne_drop {t : Word} (hop : op ≠ .block t) : op.event ≠ .drop t := by
  cases op with
  | create x => cases x <;> simp [SchedOp.event]
  | run next => cases next <;> simp [SchedOp.event, turnOf]
  | yield next => cases next <;> simp [SchedOp.event, turnOf]
  | block x => simpa [SchedOp.event] using hop
  | unblock x => simp [SchedOp.event]

/-- Two threads that stay in the run queue are dispatched alternately: between two consecutive
switches to one there is exactly one switch to the other. -/
theorem sched_run_fair {t u : Word} {ops pre mid post : List SchedOp} {a b : SchedOp}
    (hw : SchedOk h w qs) (htu : t ≠ u)
    (hr : Run (fun w op w' => SchedStep h tr w op w' ∧
      (Queued w.sched t ∧ Queued w.sched u) ∧ Queued w'.sched t ∧ Queued w'.sched u) w ops w')
    (hops : ops = pre ++ a :: (mid ++ b :: post)) (ha : a.next = some t) (hb : b.next = some t)
    (hmid : ∀ op ∈ mid, op.next ≠ some t) : mid.countP (fun op => op.next = some u) = 1 := by
  -- the run queue makes the same run, event by event
  have hsim : ∃ q, Run (fun q e q' => RoundRobin.Step q e q' ∧ (t ∈ q ∧ u ∈ q) ∧ t ∈ q' ∧ u ∈ q')
      qs (ops.map SchedOp.event) q ∧ SchedOk h w' q := by
    refine hr.inv_trace (I := fun ops w => ∃ q, Run _ qs (ops.map SchedOp.event) q ∧
      SchedOk h w q) ?_ ⟨qs, Run.start, hw⟩
    intro ops w op w' ⟨hs, hin, hin'⟩ ⟨q, hq, hw⟩
    obtain ⟨q', hstep, hw', _⟩ := hw.step hs
    rw [hw.queue.queue.queued_iff, hw.queue.queue.queued_iff] at hin
    rw [hw'.queue.queue.queued_iff, hw'.queue.queue.queued_iff] at hin'
    rw [List.map_append]
    exact ⟨q', hq.snoc ⟨hstep, hin, hin'⟩, hw'⟩
  obtain ⟨q, hq, _⟩ := hsim
  have hes : ops.map SchedOp.event = pre.map SchedOp.event ++
      .turn t :: (mid.map SchedOp.event ++ .turn t :: post.map SchedOp.event) := by
    rw [hops, List.map_append, List.map_cons, List.map_append, List.map_cons,
      SchedOp.event_eq_turn.mpr ha, SchedOp.event_eq_turn.mpr hb]
  have hnone : .turn t ∉ mid.map SchedOp.event := by
    intro hm
    obtain ⟨op, hop, he⟩ := List.mem_map.mp hm
    exact hmid op hop (SchedOp.event_eq_turn.mp he)
  have hfair := run_fair htu hw.queue.nodup hq hes hnone
  rw [List.count, List.countP_map] at hfair
  rw [← hfair]
  refine List.countP_congr fun op _ => ?_
  simp [SchedOp.event_eq_turn]

/-- In every run from boot whose steps keep the turn, a yield makes progress wherever the run
gets, and it does after one step more exactly when that one keeps the turn too. -/
theorem thread_yield_progress {k : Kern} (hk : SchedBoot k) (idleEntry : Word)
    {ops : List SchedOp} (hr : Run (fun w op w' => SchedStep h tr w op w' ∧ KeepsTurn w.sched op)
      (SchedWorld.boot h tr idleEntry k) ops w) :
    YieldProgress w.sched ∧
      ∀ op w', SchedStep h tr w op w' → (YieldProgress w'.sched ↔ KeepsTurn w.sched op) := by
  have hboot : SchedOk h _ (SchedWorld.boot h tr idleEntry k).created := schedBoot_ok hk idleEntry
  have hinv : ∃ qs, SchedOk h w qs ∧ YieldProgress w.sched := by
    refine hr.inv (I := fun w => ∃ qs, SchedOk h w qs ∧ YieldProgress w.sched) ?_ ⟨_, hboot, ?_⟩
    · intro w op w' ⟨hs, hkeep⟩ ⟨qs, hw, hy⟩
      obtain ⟨qs', _, hw', _⟩ := hw.step hs
      exact ⟨qs', hw', (hw.keepsTurn hs (hw.yieldProgress.mp hy)).mpr hkeep⟩
    · rw [hboot.yieldProgress]
      intro ⟨x, rest, he⟩
      have hlen : (SchedWorld.boot h tr idleEntry k).created.length ≤ 1 :=
        Option.length_toList_le
      rw [he] at hlen
      simp at hlen
  obtain ⟨qs, hw, hy⟩ := hinv
  exact ⟨hy, fun op w' hs => hw.keepsTurn hs (hw.yieldProgress.mp hy)⟩

/-- As long as the idle thread is not blocked it keeps the CPU it was given at boot. -/
theorem sched_run_idle_keeps_cpu {k : Kern} (hk : SchedBoot k) (idleEntry : Word)
    (hidle : (SchedWorld.boot h tr idleEntry k).created ≠ []) {ops : List SchedOp}
    (hr : Run (fun w op w' => SchedStep h tr w op w' ∧ op ≠ .block w.sched.cpuIdleThread)
      (SchedWorld.boot h tr idleEntry k) ops w) : ∀ op ∈ ops, op.next = none := by
  -- the idle thread is current, and at the front of the queue
  have hinv : (∃ rest, SchedOk h w (w.sched.cpuIdleThread :: rest)) ∧
      w.sched.cpuCurrentThread = w.sched.cpuIdleThread ∧ ∀ op ∈ ops, op.next = none := by
    refine hr.inv_trace (I := fun ops w => (∃ rest, SchedOk h w (w.sched.cpuIdleThread :: rest)) ∧
      w.sched.cpuCurrentThread = w.sched.cpuIdleThread ∧ ∀ op ∈ ops, op.next = none) ?_ ?_
    · intro ops w op w' ⟨hs, hne⟩ ⟨⟨rest, hw⟩, hcur, hnone⟩
      obtain ⟨qs', hstep, hw', hcur', hother, hid⟩ := hw.step hs
      have hnext : op.next = none := by
        cases hn : op.next with
        | none => rfl
        | some n =>
          rw [SchedOp.event_eq_turn.mpr hn] at hstep
          cases hstep
          exact absurd (hcur ▸ hn) hother
      have hturn (x : Word) : op.event ≠ .turn x := by
        rw [ne_eq, SchedOp.event_eq_turn, hnext]
        exact (Option.some_ne_none x).symm
      obtain ⟨rest', rfl⟩ := hstep.front hturn (SchedOp.event_ne_drop hne)
      refine ⟨⟨rest', hid ▸ hw'⟩, ?_, fun x hx => ?_⟩
      · rw [hcur', hnext, hid]
        exact hcur
      · rw [List.mem_append, List.mem_singleton] at hx
        rcases hx with hx | rfl
        · exact hnone x hx
        · exact hnext
    · have hboot : SchedOk h _ (SchedWorld.boot h tr idleEntry k).created := schedBoot_ok hk idleEntry
      obtain ⟨_, hcpu⟩ := schedCreateIdle_inv (h := h) hk tr idleEntry
      cases hc : (schedCreateIdle h tr idleEntry { k with sched := schedInit k.sched }).2.1 with
      | none => exact absurd (congrArg Option.toList hc) hidle
      | some t =>
        have hcreated : (SchedWorld.boot h tr idleEntry k).created = [t] := congrArg Option.toList hc
        obtain ⟨hcur, hid⟩ := hcpu t hc
        rw [hcreated] at hboot
        exact ⟨⟨[], hid ▸ hboot⟩, hcur.trans hid.symm, fun op hop => absurd hop List.not_mem_nil⟩
  exact hinv.2.2

end Run

/-- The machine that has just booted, with its idle thread. -/
def schedIdle : SchedWorld := SchedWorld.boot higherHalf 0x1000 0x2000 kernBoot

/-- A call of `thread_create` for a thread of no task. -/
def SchedWorld.made (w : SchedWorld) : SchedWorld where
  kern := (threadCreate higherHalf 0x1000 taskNull 0x3000 0 w.kern).2.2
  created := (threadCreate higherHalf 0x1000 taskNull 0x3000 0 w.kern).2.1.toList ++ w.created

def SchedWorld.blocked (w : SchedWorld) (t : Word) : SchedWorld := w.withSched (schedBlock w.sched t)

theorem kernBoot_boot : SchedBoot kernBoot := ⟨by decide, rfl, rfl⟩

theorem SchedWorld.made_step (w : SchedWorld) : SchedStep higherHalf 0x1000 w
    (.create (threadCreate higherHalf 0x1000 taskNull 0x3000 0 w.kern).2.1) w.made := .create w rfl

/-- A thread that is made goes to the end of the queue. -/
theorem SchedOk.made {w : SchedWorld} {qs : List Word} (hw : SchedOk higherHalf w qs)
    (hlen : w.created.length < w.made.created.length) : ∃ t,
      SchedStep higherHalf 0x1000 w (.create (some t)) w.made ∧
      SchedOk higherHalf w.made (qs ++ [t]) ∧ t ∉ w.created ∧ w.made.created = t :: w.created ∧
      w.made.sched.cpuCurrentThread = w.sched.cpuCurrentThread ∧
      w.made.sched.cpuIdleThread = w.sched.cpuIdleThread := by
  cases ht : (threadCreate higherHalf 0x1000 taskNull 0x3000 0 w.kern).2.1 with
  | none =>
    rw [SchedWorld.made, ht] at hlen
    exact absurd hlen (Nat.lt_irrefl _)
  | some t =>
    have hs := w.made_step
    rw [ht] at hs
    obtain ⟨qs', hstep, hw', hcur, _, hid⟩ := hw.step hs
    cases hstep
    have hnew : t ∉ w.created := by
      rcases threadCreate_effect hw.zones 0x1000 taskNull 0x3000 0 with
        ⟨t', k', s, he, htc, _⟩ | ⟨k', he, _⟩
      · rw [he] at ht
        exact Option.some.inj ht ▸ htc
      · rw [he] at ht
        cases ht
    have hcreated : w.made.created = t :: w.created := by
      rw [SchedWorld.made, ht]
      rfl
    exact ⟨t, hs, hw', hnew, hcreated, hcur, hid⟩

/-- Both threads asked for are made, and so is one that is asked for with the idle one blocked. -/
theorem schedIdle_made : schedIdle.created.length = 1 ∧ schedIdle.made.created.length = 2 ∧
    schedIdle.made.made.created.length = 3 ∧
    (schedIdle.blocked schedIdle.sched.cpuIdleThread).made.created.length = 2 := by
  decide +kernel

theorem schedIdle_ok : ∃ i, SchedOk higherHalf schedIdle [i] ∧ i ∈ schedIdle.created ∧
    schedIdle.sched.cpuCurrentThread = i ∧ schedIdle.sched.cpuIdleThread = i := by
  obtain ⟨hlen, _⟩ := schedIdle_made
  obtain ⟨i, hi⟩ := List.length_eq_one_iff.mp hlen
  have hok : SchedOk higherHalf schedIdle schedIdle.created := schedBoot_ok kernBoot_boot 0x2000
  obtain ⟨_, hcpu⟩ := schedCreateIdle_inv (h := higherHalf) kernBoot_boot 0x1000 0x2000
  have hmem : i ∈ schedIdle.created := hi ▸ List.mem_cons_self
  obtain ⟨hcur, hid⟩ := hcpu i (Option.mem_toList.mp hmem)
  exact ⟨i, hi ▸ hok, hmem, hcur, hid⟩

/-- A dispatch of the first in the queue. -/
theorem SchedOk.turned {h : Hhdm} {n : Word} {w : SchedWorld} {rest : List Word}
    (hw : SchedOk h w (n :: rest)) (hn : n ≠ w.sched.cpuCurrentThread) (tr : Word) : ∃ w',
      SchedStep h tr w (.run (some n)) w' ∧ SchedOk h w' (rest ++ [n]) ∧
      w'.sched.cpuCurrentThread = n := by
  obtain ⟨hsw, hcur, hI⟩ := hw.queue.turn hn
  have hs : SchedStep h tr w (.run ((schedRun w.sched).1.map Prod.snd))
    (w.withSched (schedRun w.sched).2) := .run w
  rw [hsw] at hs
  exact ⟨_, hs, hw.withSched hI, hcur⟩

theorem SchedOk.blocked {h : Hhdm} {t : Word} {w : SchedWorld} {qs : List Word}
    (hw : SchedOk h w qs) (ht : t ∈ qs) : SchedOk h (w.blocked t) (qs.erase t) ∧
      (w.blocked t).sched.cpuCurrentThread = w.sched.cpuCurrentThread :=
  ⟨hw.withSched (hw.queue.block ht), (schedBlock_spec _ (hw.queue.queue.ne_null ht)).2.1⟩

/-- Two threads are made after the idle one, which is current. -/
theorem schedTwo_ok : ∃ i t u, SchedOk higherHalf schedIdle.made.made [i, t, u] ∧
    schedIdle.made.made.sched.cpuCurrentThread = i ∧
    schedIdle.made.made.sched.cpuIdleThread = i ∧ [i, t, u].Nodup ∧
    u ∈ schedIdle.made.made.created.head? ∧
    Run (SchedStep higherHalf 0x1000) schedIdle [.create (some t), .create (some u)]
      schedIdle.made.made := by
  obtain ⟨i, hw₀, _, hcur₀, hid₀⟩ := schedIdle_ok
  obtain ⟨hlen₁, hlen₂, hlen₃, _⟩ := schedIdle_made
  obtain ⟨t, hs₁, hw₁, _, _, hcur₁, hid₁⟩ := hw₀.made (by omega)
  obtain ⟨u, hs₂, hw₂, _, hcreated, hcur₂, hid₂⟩ := hw₁.made (by omega)
  exact ⟨i, t, u, hw₂, hcur₂.trans (hcur₁.trans hcur₀), hid₂.trans (hid₁.trans hid₀),
    hw₂.queue.nodup, by rw [hcreated]; rfl,
    (Run.start.snoc hs₁).snoc hs₂⟩

/-- With the idle thread out of the way, two threads take turns. -/
theorem sched_run_fair_two : ∃ w w' qs t u, SchedOk higherHalf w qs ∧ t ≠ u ∧
    Run (fun w op w' => SchedStep higherHalf 0x1000 w op w' ∧
      (Queued w.sched t ∧ Queued w.sched u) ∧ Queued w'.sched t ∧ Queued w'.sched u) w
      [.run (some t), .run (some u), .run (some t)] w' ∧
    [SchedOp.run (some u)].countP (fun op => op.next = some u) = 1 := by
  obtain ⟨i, t, u, hw, hcur, _, hnd, _, _⟩ := schedTwo_ok
  have htu : t ≠ u := fun he => by simp [he] at hnd
  have hti : t ≠ i := fun he => by simp [he] at hnd
  obtain ⟨hw₀, hcur₀⟩ := hw.blocked List.mem_cons_self
  rw [List.erase_cons_head] at hw₀
  rw [hcur] at hcur₀
  obtain ⟨w₁, hs₁, hw₁, hcur₁⟩ := hw₀.turned (by rw [hcur₀]; exact hti) 0x1000
  obtain ⟨w₂, hs₂, hw₂, hcur₂⟩ := hw₁.turned (by rw [hcur₁]; exact htu.symm) 0x1000
  obtain ⟨w₃, hs₃, hw₃, _⟩ := hw₂.turned (by rw [hcur₂]; exact htu) 0x1000
  have hin {w : SchedWorld} {qs : List Word} (hw : SchedOk higherHalf w qs)
      (hqs : qs = [t, u] ∨ qs = [u, t]) : Queued w.sched t ∧ Queued w.sched u := by
    rw [hw.queue.queue.queued_iff, hw.queue.queue.queued_iff]
    rcases hqs with rfl | rfl <;> simp
  have hin₀ := hin hw₀ (Or.inl rfl)
  have hin₁ := hin hw₁ (Or.inr rfl)
  have hin₂ := hin hw₂ (Or.inl rfl)
  have hin₃ := hin hw₃ (Or.inr rfl)
  have hr : Run (fun w op w' => SchedStep higherHalf 0x1000 w op w' ∧
      (Queued w.sched t ∧ Queued w.sched u) ∧ Queued w'.sched t ∧ Queued w'.sched u) _
      [.run (some t), .run (some u), .run (some t)] w₃ :=
    ((Run.start.snoc ⟨hs₁, hin₀, hin₁⟩).snoc ⟨hs₂, hin₁, hin₂⟩).snoc ⟨hs₃, hin₂, hin₃⟩
  have hmid (op : SchedOp) (hop : op ∈ [SchedOp.run (some u)]) : op.next ≠ some t := by
    rw [List.mem_singleton.mp hop]
    simpa [SchedOp.next] using htu.symm
  have hops : [.run (some t), .run (some u), .run (some t)] =
      [] ++ SchedOp.run (some t) :: ([.run (some u)] ++ .run (some t) :: []) := rfl
  exact ⟨_, w₃, _, t, u, hw₀, htu, hr, sched_run_fair hw₀ htu hr hops rfl rfl hmid⟩

/-- The idle thread is blocked while it is alone, and then a thread is made: a yield would
switch to that one. -/
theorem thread_yield_progress_blocked : ∃ w ops, Run (fun w op w' =>
    SchedStep higherHalf 0x1000 w op w' ∧ KeepsTurn w.sched op) schedIdle ops w ∧
    (∃ t ∈ runQueue w.sched, t ≠ w.sched.cpuCurrentThread) ∧ YieldProgress w.sched := by
  obtain ⟨i, hw₀, hi, hcur₀, hid₀⟩ := schedIdle_ok
  obtain ⟨hlen₁, _, _, hlen⟩ := schedIdle_made
  rw [hid₀] at hlen
  have hs₁ : SchedStep higherHalf 0x1000 schedIdle (.block i) (schedIdle.blocked i) :=
    .block _ ((hw₀.queue.queue.queued_iff i).mpr List.mem_cons_self)
  obtain ⟨hw₁, hcur₁⟩ := hw₀.blocked List.mem_cons_self
  rw [List.erase_cons_head] at hw₁
  have hmore : (schedIdle.blocked i).created.length < (schedIdle.blocked i).made.created.length := by
    rw [hlen]
    exact Nat.lt_of_le_of_lt hlen₁.le (by decide)
  obtain ⟨t, hs₂, hw₂, hnew, _, hcur₂, _⟩ := hw₁.made hmore
  have hkeep₁ : KeepsTurn schedIdle.sched (.block i) := by
    rw [KeepsTurn, hw₀.runQueue_eq]
    simp
  have hkeep₂ : KeepsTurn (schedIdle.blocked i).sched (.create (some t)) := by
    rw [KeepsTurn, hw₁.runQueue_eq]
    simp
  have hr : Run (fun w op w' => SchedStep higherHalf 0x1000 w op w' ∧ KeepsTurn w.sched op) schedIdle
      [.block i, .create (some t)] (schedIdle.blocked i).made :=
    (Run.start.snoc ⟨hs₁, hkeep₁⟩).snoc ⟨hs₂, hkeep₂⟩
  have hti : t ≠ i := fun he => hnew (he ▸ hi)
  refine ⟨_, _, hr, ⟨t, ?_, ?_⟩, (thread_yield_progress kernBoot_boot 0x2000 hr).1⟩
  · rw [hw₂.runQueue_eq]
    exact List.mem_cons_self
  · rw [hcur₂, hcur₁, hcur₀]
    exact hti

/-- A thread is made after the idle one: the idle thread is current and heads the queue, so
its yields switch to nobody. -/
theorem thread_yield_stuck : ∃ w ops, Run (SchedStep higherHalf 0x1000) schedIdle ops w ∧
    (∃ t ∈ runQueue w.sched, t ≠ w.sched.cpuCurrentThread) ∧ (threadYield w.sched).1 = none ∧
    ¬ YieldProgress w.sched := by
  obtain ⟨i, t, u, hw, hcur, _, hnd, _, hr⟩ := schedTwo_ok
  have hti : t ≠ i := fun he => by simp [he] at hnd
  have hstuck : Stuck schedIdle.made.made.sched.cpuCurrentThread [i, t, u] := ⟨t, [u], by rw [hcur]⟩
  refine ⟨_, _, hr, ⟨t, ?_, ?_⟩, ?_, fun hy => hw.yieldProgress.mp hy hstuck⟩
  · rw [hw.runQueue_eq]
    simp
  · rw [hcur]
    exact hti
  · rw [threadYield_eq, schedRun, hw.queue.queue.choose, if_pos (Or.inr hcur.symm)]

end Dana
