import Dana.FbShows
import Dana.FormatMeaning

/-! The console: hal_console_putc of hal.c writes each character to the serial line, where
serial_putc of serial.c waits for the UART, and then to the framebuffer. The UART sends what it
holds at any time of its own. -/
namespace Dana
open ByteMem

/-- The transmitter of COM1: the byte that it holds, what it has sent, and what was overwritten
before that. -/
structure Uart where
  thr : Option Byte
  line : List Byte
  lost : List Byte
deriving DecidableEq

/-- `serial_tx_empty()`. -/
def Uart.txEmpty (u : Uart) : Bool := u.thr.isNone

/-- `cpu_outb(COM1, b)`. -/
def Uart.outb (u : Uart) (b : Byte) : Uart :=
  {u with thr := some b, lost := u.lost ++ u.thr.toList}

def Uart.send (u : Uart) : Uart := {u with thr := none, line := u.line ++ u.thr.toList}

/-- Where `hal_console_putc(c)` is. -/
inductive ConsolePc
  | idle
  | wait (c : Byte)
  | cr
  | waitCr
  | out (c : Byte)
  | draw (c : Byte)
deriving DecidableEq

/-- The console with the characters that are still to be written. -/
structure Console where
  pc : ConsolePc
  todo : List Byte
  uart : Uart
  fb : Fb

/-- One access to a port, or `fb_putc` as a whole. -/
def Console.cpu (s : Console) : Console :=
  match s.pc with
  | .idle =>
    match s.todo with
    | [] => s
    | c :: todo => {s with pc := .wait c, todo := todo}
  | .wait c =>
    if s.uart.txEmpty then {s with pc := if c = chr '\n' then .cr else .out c} else s
  | .cr => {s with pc := .waitCr, uart := s.uart.outb (chr '\r')}
  | .waitCr => if s.uart.txEmpty then {s with pc := .out (chr '\n')} else s
  | .out c => {s with pc := .draw c, uart := s.uart.outb c}
  | .draw c => {s with pc := .idle, fb := if s.fb.vars.ready then fbPutc s.fb c else s.fb}

inductive Actor
  | cpu
  | uart
deriving DecidableEq

def Console.step (s : Console) : Actor → Console
  | .cpu => s.cpu
  | .uart => {s with uart := s.uart.send}

/-- The state when the actors have acted in turn. -/
def Console.after (s : Console) (sched : List Actor) : Console := sched.foldl Console.step s

def Console.start (text : List Byte) (fb : Fb) : Console := ⟨.idle, text, ⟨none, [], []⟩, fb⟩

def Console.Done (s : Console) : Prop := s.pc = .idle ∧ s.todo = []

/-- What goes out on the line for a text. -/
def crlf (text : List Byte) : List Byte :=
  text.flatMap fun c => if c = chr '\n' then [chr '\r', chr '\n'] else [c]

/-- The character that is being written. -/
def ConsolePc.current : ConsolePc → List Byte
  | .idle => []
  | .wait c | .out c | .draw c => [c]
  | .cr | .waitCr => [chr '\n']

/-- What of it the UART has been given. -/
def ConsolePc.given : ConsolePc → List Byte
  | .idle | .wait _ | .cr => []
  | .waitCr => [chr '\r']
  | .out c => if c = chr '\n' then [chr '\r'] else []
  | .draw c => crlf [c]

/-- The text is what has been written, the current character and what is still to be written. -/
structure ConsoleInv (text : List Byte) (fb : Fb) (s : Console) (done : List Byte) : Prop where
  text : done ++ (s.pc.current ++ s.todo) = text
  line : s.uart.line ++ s.uart.thr.toList = crlf done ++ s.pc.given
  lost : s.uart.lost = []
  empty : s.pc = .cr ∨ (∃ c, s.pc = .out c) → s.uart.thr = none
  fb : s.fb = done.foldl fbPutc fb

section Run
variable {text : List Byte} {fb : Fb} {s : Console} {done : List Byte}

theorem crlf_append (s t : List Byte) : crlf (s ++ t) = crlf s ++ crlf t := List.flatMap_append

theorem Uart.txEmpty_iff {u : Uart} : u.txEmpty = true ↔ u.thr = none := Option.isNone_iff_eq_none

/-- A byte that is given to an empty transmitter overwrites nothing. -/
theorem Uart.outb_line {u : Uart} (h : u.thr = none) (b : Byte) :
    (u.outb b).line ++ (u.outb b).thr.toList = u.line ++ u.thr.toList ++ [b] ∧
      (u.outb b).lost = u.lost := by
  rw [Uart.outb, h]
  exact ⟨by simp, List.append_nil _⟩

theorem fbPutc_ready (fb : Fb) (c : Byte) :
    (if fb.vars.ready then fbPutc fb c else fb) = fbPutc fb c := by
  rw [fbPutc]
  split_ifs <;> rfl

/-- A step of the CPU. -/
theorem ConsoleInv.cpu (h : ConsoleInv text fb s done) : ∃ done', ConsoleInv text fb s.cpu done' := by
  obtain ⟨pc, todo, u, f⟩ := s
  obtain ⟨htext, hline, hlost, hempty, hfb⟩ := h
  simp only at htext hline hlost hempty hfb
  cases pc with
  | idle =>
    cases todo with
    | nil => exact ⟨done, htext, hline, hlost, hempty, hfb⟩
    | cons c todo => exact ⟨done, htext, hline, hlost, by simp [Console.cpu], hfb⟩
  | wait c =>
    rw [Console.cpu]
    simp only
    split_ifs with hthr hc
    · subst hc
      exact ⟨done, htext, hline, hlost, fun _ => Uart.txEmpty_iff.mp hthr, hfb⟩
    · refine ⟨done, htext, hline.trans ?_, hlost, fun _ => Uart.txEmpty_iff.mp hthr, hfb⟩
      rw [ConsolePc.given, ConsolePc.given, if_neg hc]
    · exact ⟨done, htext, hline, hlost, hempty, hfb⟩
  | cr =>
    obtain ⟨hout, hkept⟩ := Uart.outb_line (hempty (Or.inl rfl)) (chr '\r')
    refine ⟨done, htext, hout.trans ?_, hkept.trans hlost, by simp [Console.cpu], hfb⟩
    rw [hline]
    exact congrArg (· ++ [chr '\r']) (List.append_nil _)
  | waitCr =>
    rw [Console.cpu]
    simp only
    split_ifs with hthr
    · exact ⟨done, htext, hline, hlost, fun _ => Uart.txEmpty_iff.mp hthr, hfb⟩
    · exact ⟨done, htext, hline, hlost, hempty, hfb⟩
  | out c =>
    obtain ⟨hout, hkept⟩ := Uart.outb_line (hempty (Or.inr ⟨c, rfl⟩)) c
    refine ⟨done, htext, hout.trans ?_, hkept.trans hlost, by simp [Console.cpu], hfb⟩
    rw [hline, List.append_assoc, ConsolePc.given]
    change _ = crlf done ++ crlf [c]
    rw [crlf, crlf, List.flatMap_singleton]
    split_ifs with hc
    · rw [hc]
      rfl
    · rfl
  | draw c =>
    refine ⟨done ++ [c], ?_, ?_, hlost, by simp [Console.cpu], ?_⟩
    · rw [← htext]
      exact List.append_assoc _ _ _
    · rw [crlf_append]
      exact hline.trans (List.append_nil _).symm
    · rw [List.foldl_append, ← hfb]
      exact fbPutc_ready f c

theorem ConsoleInv.send (h : ConsoleInv text fb s done) : ConsoleInv text fb (s.step .uart) done :=
  ⟨h.text, (List.append_nil _).trans h.line, h.lost, fun _ => rfl, h.fb⟩

theorem ConsoleInv.step (h : ConsoleInv text fb s done) (a : Actor) :
    ∃ done', ConsoleInv text fb (s.step a) done' := by
  cases a with
  | cpu => exact h.cpu
  | uart => exact ⟨done, h.send⟩

theorem consoleInv_start (text : List Byte) (fb : Fb) :
    ConsoleInv text fb (Console.start text fb) [] :=
  ⟨rfl, rfl, rfl, fun _ => rfl, rfl⟩

theorem Console.after_snoc (s : Console) (sched : List Actor) (a : Actor) :
    s.after (sched ++ [a]) = (s.after sched).step a := List.foldl_concat _ _ _ _

/-- The invariant holds whatever the order of the steps. -/
theorem consoleInv_after (text : List Byte) (fb : Fb) (sched : List Actor) :
    ∃ done, ConsoleInv text fb ((Console.start text fb).after sched) done := by
  induction sched using List.reverseRecOn with
  | nil => exact ⟨[], consoleInv_start text fb⟩
  | append_singleton sched a ih =>
    obtain ⟨done, h⟩ := ih
    rw [Console.after_snoc]
    exact h.step a

theorem ConsolePc.given_prefix (pc : ConsolePc) : pc.given <+: crlf pc.current := by
  cases pc with
  | idle => exact List.prefix_refl _
  | wait c => exact List.nil_prefix
  | cr => exact List.nil_prefix
  | waitCr => exact ⟨[chr '\n'], rfl⟩
  | out c =>
    change (if c = chr '\n' then _ else _) <+: crlf [c]
    split_ifs with hc
    · exact hc ▸ ⟨[chr '\n'], rfl⟩
    · exact List.nil_prefix
  | draw c => exact List.prefix_refl _

/-- The line never has more than the text. -/
theorem ConsoleInv.line_prefix (h : ConsoleInv text fb s done) : s.uart.line <+: crlf text := by
  have hgiven : s.uart.line <+: crlf done ++ s.pc.given := ⟨_, h.line⟩
  apply hgiven.trans
  rw [← h.text, crlf_append, crlf_append, ← List.append_assoc]
  exact ((List.prefix_append_right_inj _).mpr s.pc.given_prefix).trans (List.prefix_append _ _)

theorem ConsoleInv.done_text (h : ConsoleInv text fb s done) (hd : s.Done) :
    s.uart.line ++ s.uart.thr.toList = crlf text ∧ s.fb = text.foldl fbPutc fb := by
  have htext := h.text
  have hline := h.line
  rw [hd.1, hd.2] at htext
  rw [hd.1] at hline
  have hdone : done = text := (List.append_nil _).symm.trans htext
  subst hdone
  exact ⟨hline.trans (List.append_nil _), h.fb⟩

end Run

section Fair
variable {s : Console} {sched : ℕ → Actor}

/-- The steps that the CPU still has to take, when it need not wait. -/
def ConsolePc.left : ConsolePc → ℕ
  | .idle => 0
  | .draw _ => 1
  | .out _ => 2
  | .waitCr => 3
  | .cr => 4
  | .wait _ => 5

def Console.left (s : Console) : ℕ := 6*s.todo.length+s.pc.left

/-- The state at each time, under an endless schedule. -/
def Console.at (s : Console) (sched : ℕ → Actor) (n : ℕ) : Console :=
  s.after ((List.range n).map sched)

theorem Console.at_succ (s : Console) (sched : ℕ → Actor) (n : ℕ) :
    s.at sched (n+1) = (s.at sched n).step (sched n) := by
  rw [Console.at, List.range_succ, List.map_append, List.map_singleton, Console.after_snoc]
  rfl

theorem Console.cpu_left (s : Console) : s.cpu.left ≤ s.left ∧
    (s.uart.thr = none → ¬ s.Done → s.cpu.left < s.left) := by
  obtain ⟨pc, todo, u, f⟩ := s
  cases pc with
  | idle =>
    cases todo with
    | nil => exact ⟨le_rfl, fun _ hd => absurd ⟨rfl, rfl⟩ hd⟩
    | cons c todo => simp [Console.cpu, Console.left, ConsolePc.left]; omega
  | wait c =>
    by_cases hc : c = chr '\n' <;> by_cases hthr : u.thr = none <;>
      simp [Console.cpu, Console.left, ConsolePc.left, Uart.txEmpty, hc, hthr]
  | cr => simp [Console.cpu, Console.left, ConsolePc.left]
  | waitCr =>
    by_cases hthr : u.thr = none <;>
      simp [Console.cpu, Console.left, ConsolePc.left, Uart.txEmpty, hthr]
  | out c => simp [Console.cpu, Console.left, ConsolePc.left]
  | draw c => simp [Console.cpu, Console.left, ConsolePc.left]

theorem Console.at_left_le {n m : ℕ} (hnm : n ≤ m) : (s.at sched m).left ≤ (s.at sched n).left := by
  induction m, hnm using Nat.le_induction with
  | base => exact le_rfl
  | succ m _ ih =>
    apply le_trans _ ih
    rw [Console.at_succ]
    cases sched m with
    | cpu => exact (s.at sched m).cpu_left.1
    | uart => exact le_rfl

/-- Both the CPU and the UART always act again. -/
def Fair (sched : ℕ → Actor) : Prop := ∀ a n, ∃ m, n ≤ m ∧ sched m = a

/-- Once the UART has sent its byte it is empty when the CPU next acts, which then need not
wait. -/
theorem Console.at_falls (hf : Fair sched) (n : ℕ) : ∃ m, n ≤ m ∧
    ((s.at sched m).Done ∨ (s.at sched m).left < (s.at sched n).left) := by
  obtain ⟨t, hnt, ht⟩ := hf .uart n
  have hcpu : ∃ d, sched (t+1+d) = .cpu := by
    obtain ⟨m, hm, hc⟩ := hf .cpu (t+1)
    exact ⟨m-(t+1), by rwa [Nat.add_sub_cancel' hm]⟩
  -- until then only the UART acts
  have hempty : ∀ d ≤ Nat.find hcpu, (s.at sched (t+1+d)).uart.thr = none := by
    intro d hd
    induction d with
    | zero =>
      rw [Nat.add_zero, Console.at_succ, ht]
      rfl
    | succ d _ =>
      have hd' : sched (t+1+d) = .uart := by
        have hne := Nat.find_min hcpu hd
        cases ha : sched (t+1+d) with
        | cpu => exact absurd ha hne
        | uart => rfl
      rw [← Nat.add_assoc, Console.at_succ, hd']
      rfl
  by_cases hdone : (s.at sched (t+1+Nat.find hcpu)).Done
  · exact ⟨_, by omega, Or.inl hdone⟩
  · refine ⟨t+1+Nat.find hcpu+1, by omega, Or.inr ?_⟩
    rw [Console.at_succ, Nat.find_spec hcpu]
    exact ((s.at sched _).cpu_left.2 (hempty _ le_rfl) hdone).trans_le (Console.at_left_le (by omega))

theorem Console.done_step (hd : s.Done) (a : Actor) :
    (s.step a).Done ∧ (s.uart.thr = none → (s.step a).uart.thr = none) := by
  obtain ⟨pc, todo, u, f⟩ := s
  obtain ⟨hpc, htodo⟩ := hd
  simp only at hpc htodo
  subst hpc htodo
  cases a with
  | cpu => exact ⟨⟨rfl, rfl⟩, id⟩
  | uart => exact ⟨⟨rfl, rfl⟩, fun _ => rfl⟩

/-- Under a fair schedule the console is done some time, and the last byte has been sent. -/
theorem Console.at_done (hf : Fair sched) :
    ∃ n, ∀ m ≥ n, (s.at sched m).Done ∧ (s.at sched m).uart.thr = none := by
  obtain ⟨n, -, hdone⟩ := Transition.eventually_of_measure Console.left
    (fun n => Console.at_falls (s := s) hf n) 0
  have hkeep : ∀ m ≥ n, (s.at sched m).Done := by
    intro m hm
    induction m, hm using Nat.le_induction with
    | base => exact hdone
    | succ m _ ih =>
      rw [Console.at_succ]
      exact (Console.done_step ih _).1
  obtain ⟨t, hnt, ht⟩ := hf .uart n
  refine ⟨t+1, fun m hm => ⟨hkeep m (by omega), ?_⟩⟩
  induction m, hm using Nat.le_induction with
  | base =>
    rw [Console.at_succ, ht]
    rfl
  | succ m hm ih =>
    rw [Console.at_succ]
    exact (Console.done_step (hkeep m (by omega)) _).2 ih

end Fair

/-- Whatever the order in which the CPU and the UART act, no byte is overwritten before it is
sent, and the line has only what the text puts there, in order. Once the text has been written,
the line and the transmitter have all of it, and so has the framebuffer. -/
theorem console_writes (text : List Byte) (fb : Fb) (sched : List Actor) :
    let s := (Console.start text fb).after sched
    s.uart.lost = [] ∧ s.uart.line <+: crlf text ∧
      (s.Done → s.uart.line ++ s.uart.thr.toList = crlf text ∧ s.fb = text.foldl fbPutc fb) := by
  obtain ⟨done, h⟩ := consoleInv_after text fb sched
  exact ⟨h.lost, h.line_prefix, fun hd => h.done_text hd⟩

/-- The CPU and the UART in turn. -/
def turns (n : ℕ) : Actor := if n%2 = 0 then .cpu else .uart

theorem turns_fair : Fair turns := by
  intro a n
  cases a with
  | cpu => exact ⟨2*n, by omega, if_pos (by omega)⟩
  | uart => exact ⟨2*n+1, by omega, if_neg (by omega)⟩

end Dana
