import Mathlib.Data.BitVec
import Mathlib.Tactic.Ring

/-! Loops over 64-bit addresses with a fixed stride, and over chains of nodes,
each with the rule that carries an invariant through it. -/
namespace AddrLoop

variable {σ ρ : Type*}

/-- `for (a = start; a < stop; a += stride) body`. The body goes on (`.ok`) or
leaves the loop (`.error`); `none` when `fuel` rounds do not end it. -/
def forAddr (stride stop : BitVec 64) (body : BitVec 64 → σ → Except ρ σ) :
    ℕ → BitVec 64 → σ → Option (Except ρ σ)
  | 0, a, s => if a < stop then none else some (.ok s)
  | n+1, a, s =>
    if a < stop then
      match body a s with
      | .ok s' => forAddr stride stop body n (a+stride) s'
      | .error r => some (.error r)
    else some (.ok s)

/-- Whatever the fuel, a finished loop ends where its invariant says. -/
theorem forAddr_inv (stride stop : BitVec 64) (body : BitVec 64 → σ → Except ρ σ)
    (I : BitVec 64 → σ → Prop) (Q : Except ρ σ → Prop)
    (hstep : ∀ a s, a < stop → I a s → (∀ s', body a s = .ok s' → I (a+stride) s') ∧
      ∀ r, body a s = .error r → Q (.error r))
    (hexit : ∀ a s, ¬ a < stop → I a s → Q (.ok s)) (n : ℕ) (a : BitVec 64) (s : σ)
    (hI : I a s) (r : Except ρ σ) (hr : forAddr stride stop body n a s = some r) : Q r := by
  induction n generalizing a s with
  | zero =>
    simp only [forAddr] at hr
    split_ifs at hr with ha
    obtain rfl := Option.some.inj hr
    exact hexit a s ha hI
  | succ n ih =>
    simp only [forAddr] at hr
    split_ifs at hr with ha
    · obtain ⟨hok, herr⟩ := hstep a s ha hI
      cases hb : body a s with
      | ok s' =>
        rw [hb] at hr
        exact ih (a+stride) s' (hok s' hb) hr
      | error e =>
        rw [hb] at hr
        obtain rfl := Option.some.inj hr
        exact herr e hb
    · obtain rfl := Option.some.inj hr
      exact hexit a s ha hI

/-- A stride that cannot jump over the end of the address space ends the loop. -/
theorem forAddr_terminates (stride stop : BitVec 64) (body : BitVec 64 → σ → Except ρ σ)
    (hwrap : stop.toNat+stride.toNat ≤ 2^64) (n : ℕ) (a : BitVec 64) (s : σ)
    (hn : stop.toNat ≤ a.toNat+n*stride.toNat) :
    ∃ r, forAddr stride stop body n a s = some r := by
  induction n generalizing a s with
  | zero =>
    have ha : ¬ a < stop := by rw [BitVec.lt_def]; omega
    exact ⟨.ok s, by simp only [forAddr, ha, ↓reduceIte]⟩
  | succ n ih =>
    by_cases ha : a < stop
    · simp only [forAddr, ha, ↓reduceIte]
      cases body a s with
      | ok s' =>
        apply ih
        rw [BitVec.lt_def] at ha
        have hsum : (a+stride).toNat = a.toNat+stride.toNat := by
          rw [BitVec.toNat_add, Nat.mod_eq_of_lt (by omega)]
        rw [hsum]
        calc stop.toNat ≤ a.toNat+(n+1)*stride.toNat := hn
          _ = a.toNat+stride.toNat+n*stride.toNat := by ring
      | error e => exact ⟨.error e, rfl⟩
    · exact ⟨.ok s, by simp only [forAddr, ha, ↓reduceIte]⟩

/-- A loop that never breaks off and whose addresses stay below `stop` does not end. -/
theorem forAddr_diverges (stride stop : BitVec 64) (body : BitVec 64 → σ → Except ρ σ)
    (P : BitVec 64 → Prop) (hstep : ∀ a, P a → a < stop ∧ P (a+stride))
    (hbody : ∀ a s, ∃ s', body a s = .ok s') (n : ℕ) (a : BitVec 64) (s : σ) (ha : P a) :
    forAddr stride stop body n a s = none := by
  induction n generalizing a s with
  | zero => simp only [forAddr, (hstep a ha).1, ↓reduceIte]
  | succ n ih =>
    obtain ⟨s', hs'⟩ := hbody a s
    simp only [forAddr, (hstep a ha).1, ↓reduceIte, hs']
    exact ih (a+stride) s' (hstep a ha).2

/-- The addresses from `a` on in steps of `stride` that are below `stop`, `n` at most. -/
def addrs (stride stop : BitVec 64) : ℕ → BitVec 64 → List (BitVec 64)
  | 0, _ => []
  | n+1, a => if a < stop then a :: addrs stride stop n (a+stride) else []

/-- A stride that cannot jump over the end makes the loop a fold over its addresses. -/
theorem forAddr_eq_foldlM (stride stop : BitVec 64) (body : BitVec 64 → σ → Except ρ σ)
    (hwrap : stop.toNat+stride.toNat ≤ 2^64) (n : ℕ) (a : BitVec 64) (s : σ)
    (hn : stop.toNat ≤ a.toNat+n*stride.toNat) :
    forAddr stride stop body n a s =
      some ((addrs stride stop n a).foldlM (fun s a => body a s) s) := by
  induction n generalizing a s with
  | zero =>
    have ha : ¬ a < stop := by rw [BitVec.lt_def]; omega
    simp only [forAddr, ha, ↓reduceIte, addrs, List.foldlM_nil]
    rfl
  | succ n ih =>
    by_cases ha : a < stop
    · simp only [forAddr, ha, ↓reduceIte, addrs, List.foldlM_cons]
      cases body a s with
      | ok s' =>
        apply ih
        rw [BitVec.lt_def] at ha
        have hsum : (a+stride).toNat = a.toNat+stride.toNat := by
          rw [BitVec.toNat_add, Nat.mod_eq_of_lt (by omega)]
        rw [hsum]
        calc stop.toNat ≤ a.toNat+(n+1)*stride.toNat := hn
          _ = a.toNat+stride.toNat+n*stride.toNat := by ring
      | error e => rfl
    · simp only [forAddr, ha, ↓reduceIte, addrs, List.foldlM_nil]
      rfl

/-- The addresses of a loop that does not wrap are the start and whole strides from it. -/
theorem mem_addrs {stride stop : BitVec 64} (hwrap : stop.toNat+stride.toNat ≤ 2^64) {n : ℕ}
    {a x : BitVec 64} (hn : stop.toNat ≤ a.toNat+n*stride.toNat) : x ∈ addrs stride stop n a ↔
      x < stop ∧ ∃ k : ℕ, x.toNat = a.toNat+k*stride.toNat := by
  induction n generalizing a with
  | zero =>
    simp only [addrs, List.not_mem_nil, false_iff, not_and, not_exists, BitVec.lt_def]
    intro hx k he
    have := Nat.zero_le (k*stride.toNat)
    omega
  | succ n ih =>
    by_cases ha : a < stop
    · have hlt := ha
      rw [BitVec.lt_def] at hlt
      have hsum : (a+stride).toNat = a.toNat+stride.toNat := by
        rw [BitVec.toNat_add, Nat.mod_eq_of_lt (by omega)]
      have hn' : stop.toNat ≤ (a+stride).toNat+n*stride.toNat := by
        rw [hsum]
        calc stop.toNat ≤ a.toNat+(n+1)*stride.toNat := hn
          _ = a.toNat+stride.toNat+n*stride.toNat := by ring
      simp only [addrs, ha, ↓reduceIte, List.mem_cons, ih hn', hsum]
      constructor
      · rintro (rfl | ⟨hx, k, he⟩)
        · exact ⟨ha, 0, by simp⟩
        · exact ⟨hx, k+1, by rw [he]; ring⟩
      · rintro ⟨hx, k, he⟩
        cases k with
        | zero => exact Or.inl (BitVec.eq_of_toNat_eq (by simpa using he))
        | succ k => exact Or.inr ⟨hx, k, by rw [he]; ring⟩
    · simp only [addrs, ha, ↓reduceIte, List.not_mem_nil, false_iff, not_and, not_exists]
      intro hx k he
      rw [BitVec.lt_def] at ha hx
      have := Nat.zero_le (k*stride.toNat)
      omega

theorem le_of_mem_addrs {stride stop : BitVec 64} (hwrap : stop.toNat+stride.toNat ≤ 2^64) {n : ℕ}
    {a x : BitVec 64} (hx : x ∈ addrs stride stop n a) : a.toNat ≤ x.toNat := by
  induction n generalizing a with
  | zero => simp [addrs] at hx
  | succ n ih =>
    by_cases ha : a < stop
    · simp only [addrs, ha, ↓reduceIte, List.mem_cons] at hx
      rw [BitVec.lt_def] at ha
      have hsum : (a+stride).toNat = a.toNat+stride.toNat := by
        rw [BitVec.toNat_add, Nat.mod_eq_of_lt (by omega)]
      rcases hx with rfl | hx
      · exact le_rfl
      · have := ih hx
        omega
    · simp [addrs, ha] at hx

/-- The addresses of the loop are a stride apart. -/
theorem addrs_pairwise {stride stop : BitVec 64} (hwrap : stop.toNat+stride.toNat ≤ 2^64) (n : ℕ)
    (a : BitVec 64) :
    (addrs stride stop n a).Pairwise fun x y => x.toNat+stride.toNat ≤ y.toNat := by
  induction n generalizing a with
  | zero => exact List.Pairwise.nil
  | succ n ih =>
    by_cases ha : a < stop
    · simp only [addrs, ha, ↓reduceIte]
      refine List.pairwise_cons.mpr ⟨fun y hy => ?_, ih _⟩
      rw [BitVec.lt_def] at ha
      have hsum : (a+stride).toNat = a.toNat+stride.toNat := by
        rw [BitVec.toNat_add, Nat.mod_eq_of_lt (by omega)]
      have := le_of_mem_addrs hwrap hy
      omega
    · simp only [addrs, ha, ↓reduceIte]
      exact List.Pairwise.nil

theorem add_stride (a stride : BitVec 64) (k : ℕ) :
    a+stride+BitVec.ofNat 64 k*stride = a+BitVec.ofNat 64 (k+1)*stride := by
  have hone : BitVec.ofNat 64 1*stride = stride := BitVec.one_mul stride
  rw [BitVec.ofNat_add, BitVec.add_mul, hone, BitVec.add_assoc, BitVec.add_comm stride]

theorem addrs_length_le (stride stop : BitVec 64) (n : ℕ) (a : BitVec 64) :
    (addrs stride stop n a).length ≤ n := by
  induction n generalizing a with
  | zero => exact le_rfl
  | succ n ih =>
    rw [addrs]
    split_ifs
    · exact Nat.succ_le_succ (ih _)
    · exact Nat.zero_le _

/-- The addresses of a loop are whole strides from its start, whether it wraps or not. -/
theorem addrs_stride {stride stop : BitVec 64} {n : ℕ} {a b : BitVec 64}
    (hb : b ∈ addrs stride stop n a) : b < stop ∧ ∃ k < n, b = a+BitVec.ofNat 64 k*stride := by
  induction n generalizing a with
  | zero => exact absurd hb List.not_mem_nil
  | succ n ih =>
    rw [addrs] at hb
    split_ifs at hb with ha
    · rcases List.mem_cons.mp hb with rfl | hb
      · exact ⟨ha, 0, n.succ_pos, by simp⟩
      · obtain ⟨hlt, k, hk, rfl⟩ := ih hb
        exact ⟨hlt, k+1, by omega, add_stride a stride k⟩
    · exact absurd hb List.not_mem_nil

theorem addrs_length {stride stop : BitVec 64} {n : ℕ} {a : BitVec 64}
    (hall : ∀ k < n, a+BitVec.ofNat 64 k*stride < stop) : (addrs stride stop n a).length = n := by
  induction n generalizing a with
  | zero => rfl
  | succ n ih =>
    have ha : a < stop := by simpa using hall 0 n.succ_pos
    rw [addrs, if_pos ha, List.length_cons, ih fun k hk => ?_]
    rw [add_stride]
    exact hall (k+1) (by omega)

/-- The addresses at which `forAddr` runs its body. -/
def visited (stride stop : BitVec 64) (body : BitVec 64 → σ → Except ρ σ) :
    ℕ → BitVec 64 → σ → List (BitVec 64)
  | 0, _, _ => []
  | n+1, a, s =>
    if a < stop then
      a :: match body a s with
        | .ok s' => visited stride stop body n (a+stride) s'
        | .error _ => []
    else []

/-- A loop whose addresses come to `stop` in `n` steps without a wrap ends after at most `n`
rounds, at addresses from its start on and below `stop`. -/
theorem visited_bounded (stride stop : BitVec 64) (body : BitVec 64 → σ → Except ρ σ) {n fuel : ℕ}
    (hfuel : n ≤ fuel) {a : BitVec 64} (s : σ) (hn : stop.toNat ≤ a.toNat+n*stride.toNat)
    (hwrap : a.toNat+n*stride.toNat < 2^64) :
    (∃ r, forAddr stride stop body fuel a s = some r) ∧
      (visited stride stop body fuel a s).length ≤ n ∧
      ∀ b ∈ visited stride stop body fuel a s, a.toNat ≤ b.toNat ∧ b.toNat < stop.toNat := by
  induction n generalizing fuel a s with
  | zero =>
    have ha : ¬ a < stop := by
      rw [BitVec.lt_def]
      omega
    cases fuel with
    | zero => exact ⟨⟨.ok s, if_neg ha⟩, le_rfl, fun b hb => absurd hb List.not_mem_nil⟩
    | succ fuel =>
      rw [forAddr, visited, if_neg ha, if_neg ha]
      exact ⟨⟨_, rfl⟩, le_rfl, fun b hb => absurd hb List.not_mem_nil⟩
  | succ n ih =>
    obtain ⟨m, rfl⟩ : ∃ m, fuel = m+1 := ⟨fuel-1, by omega⟩
    rw [forAddr, visited]
    by_cases ha : a < stop
    swap
    · rw [if_neg ha, if_neg ha]
      exact ⟨⟨_, rfl⟩, Nat.zero_le _, fun b hb => absurd hb List.not_mem_nil⟩
    rw [if_pos ha, if_pos ha]
    rw [BitVec.lt_def] at ha
    cases hb : body a s with
    | error r =>
      refine ⟨⟨_, rfl⟩, Nat.le_add_left _ _, fun b hb => ?_⟩
      obtain rfl := List.mem_singleton.mp hb
      exact ⟨le_rfl, ha⟩
    | ok s' =>
      have hstep : a.toNat+(n+1)*stride.toNat = a.toNat+stride.toNat+n*stride.toNat := by ring
      have hsum : (a+stride).toNat = a.toNat+stride.toNat := by
        rw [BitVec.toNat_add, Nat.mod_eq_of_lt]
        have := Nat.zero_le (n*stride.toNat)
        omega
      obtain ⟨hr, hlen, hin⟩ := ih (Nat.le_of_succ_le_succ hfuel) (a := a+stride) s'
        (by rw [hsum]; omega) (by rw [hsum]; omega)
      refine ⟨hr, Nat.succ_le_succ hlen, fun b hb => ?_⟩
      rcases List.mem_cons.mp hb with rfl | hb
      · exact ⟨le_rfl, ha⟩
      · obtain ⟨h1, h2⟩ := hin b hb
        rw [hsum] at h1
        exact ⟨by omega, h2⟩

/-- A loop that breaks off in its first `n` rounds has visited no more than these. -/
theorem visited_error {stride stop : BitVec 64} {body : BitVec 64 → σ → Except ρ σ} {n fuel : ℕ}
    (hfuel : n ≤ fuel) {a : BitVec 64} {s : σ} {r : ρ}
    (hr : (addrs stride stop n a).foldlM (fun s a => body a s) s = .error r) :
    forAddr stride stop body fuel a s = some (.error r) ∧
      visited stride stop body fuel a s <+: addrs stride stop n a := by
  induction n generalizing fuel a s with
  | zero => cases hr
  | succ n ih =>
    obtain ⟨m, rfl⟩ : ∃ m, fuel = m+1 := ⟨fuel-1, by omega⟩
    rw [addrs] at hr ⊢
    rw [forAddr, visited]
    by_cases ha : a < stop
    swap
    · rw [if_neg ha] at hr
      cases hr
    rw [if_pos ha] at hr ⊢
    rw [if_pos ha, if_pos ha]
    rw [List.foldlM_cons] at hr
    cases hb : body a s with
    | error e =>
      rw [hb] at hr
      cases hr
      exact ⟨rfl, List.prefix_cons_inj a |>.mpr List.nil_prefix⟩
    | ok s' =>
      rw [hb] at hr
      obtain ⟨hf, hpre⟩ := ih (Nat.le_of_succ_le_succ hfuel) hr
      exact ⟨hf, (List.prefix_cons_inj a).mpr hpre⟩

/-- A loop that runs through its first `n` addresses goes on from there. -/
theorem visited_ok {stride stop : BitVec 64} {body : BitVec 64 → σ → Except ρ σ} (n : ℕ) {m : ℕ}
    {a : BitVec 64} {s s' : σ} (hall : ∀ k < n, a+BitVec.ofNat 64 k*stride < stop)
    (hr : (addrs stride stop n a).foldlM (fun s a => body a s) s = .ok s') :
    visited stride stop body (n+m) a s =
      addrs stride stop n a ++ visited stride stop body m (a+BitVec.ofNat 64 n*stride) s' := by
  induction n generalizing a s with
  | zero =>
    obtain rfl := Except.ok.inj hr
    simp [addrs]
  | succ n ih =>
    have ha : a < stop := by simpa using hall 0 n.succ_pos
    rw [addrs, if_pos ha, List.foldlM_cons] at hr
    rw [addrs, if_pos ha, show n+1+m = n+m+1 by omega, visited, if_pos ha]
    cases hb : body a s with
    | error e =>
      rw [hb] at hr
      cases hr
    | ok t =>
      rw [hb] at hr
      have hrest := ih (a := a+stride) (s := t) (fun k hk => ?_) hr
      swap
      · rw [add_stride]
        exact hall (k+1) (by omega)
      rw [add_stride] at hrest
      rw [List.cons_append]
      exact congrArg (a :: ·) hrest

/-- `for (e = first; e != stop; e = next) body`, where the body says which node
comes next. -/
def forNodes {α : Type*} [DecidableEq α] (stop : α) (body : α → σ → Except ρ (σ × α)) :
    ℕ → α → σ → Option (Except ρ σ)
  | 0, e, s => if e = stop then some (.ok s) else none
  | n+1, e, s =>
    if e = stop then some (.ok s)
    else match body e s with
      | .ok (s', e') => forNodes stop body n e' s'
      | .error r => some (.error r)

theorem forNodes_stop {α : Type*} [DecidableEq α] (stop : α) (body : α → σ → Except ρ (σ × α))
    (n : ℕ) (s : σ) : forNodes stop body n stop s = some (.ok s) := by
  cases n <;> simp [forNodes]

/-- Whatever the fuel, a finished loop ends where its invariant says, which may name the node. -/
theorem forNodes_inv_node {α : Type*} [DecidableEq α] (stop : α) (body : α → σ → Except ρ (σ × α))
    (I : α → σ → Prop) (Q : Except ρ σ → Prop)
    (hstep : ∀ e s, I e s → (∀ s' e', body e s = .ok (s', e') → I e' s') ∧
      ∀ r, body e s = .error r → Q (.error r))
    (hexit : ∀ s, I stop s → Q (.ok s)) (n : ℕ) (e : α) (s : σ) (hI : I e s) (r : Except ρ σ)
    (hr : forNodes stop body n e s = some r) : Q r := by
  induction n generalizing e s with
  | zero =>
    simp only [forNodes] at hr
    split_ifs at hr with he
    obtain rfl := Option.some.inj hr
    exact hexit s (he ▸ hI)
  | succ n ih =>
    simp only [forNodes] at hr
    split_ifs at hr with he
    · obtain rfl := Option.some.inj hr
      exact hexit s (he ▸ hI)
    · obtain ⟨hok, herr⟩ := hstep e s hI
      cases hb : body e s with
      | ok x =>
        rw [hb] at hr
        exact ih x.2 x.1 (hok x.1 x.2 hb) hr
      | error q =>
        rw [hb] at hr
        obtain rfl := Option.some.inj hr
        exact herr q hb

theorem forNodes_inv {α : Type*} [DecidableEq α] (stop : α) (body : α → σ → Except ρ (σ × α))
    (I : σ → Prop) (Q : Except ρ σ → Prop)
    (hstep : ∀ e s, I s → (∀ s' e', body e s = .ok (s', e') → I s') ∧
      ∀ r, body e s = .error r → Q (.error r))
    (hexit : ∀ s, I s → Q (.ok s)) (n : ℕ) (e : α) (s : σ) (hI : I s) (r : Except ρ σ)
    (hr : forNodes stop body n e s = some r) : Q r :=
  forNodes_inv_node stop body (fun _ => I) Q hstep hexit n e s hI r hr

/-- Along a chain of nodes that ends in `stop`, the loop visits the chain. -/
theorem forNodes_chain {α : Type*} [DecidableEq α] (stop : α)
    (body : α → σ → Except ρ (σ × α)) (I : List α → σ → Prop) (Q : Except ρ σ → Prop)
    (hstep : ∀ e es s, e ≠ stop → I (e :: es) s →
      (∃ s' e', body e s = .ok (s', e') ∧ e' = (es ++ [stop]).head (by simp) ∧ I es s') ∨
      ∃ r, body e s = .error r ∧ Q (.error r))
    (hexit : ∀ s, I [] s → Q (.ok s)) (n : ℕ) (es : List α) (s : σ)
    (hn : es.length ≤ n) (hs : stop ∉ es) (hI : I es s) :
    ∃ r, forNodes stop body n ((es ++ [stop]).head (by simp)) s = some r ∧ Q r := by
  induction es generalizing n s with
  | nil =>
    refine ⟨.ok s, ?_, hexit s hI⟩
    cases n <;> simp [forNodes]
  | cons e es ih =>
    obtain ⟨m, rfl⟩ : ∃ m, n = m+1 := ⟨n-1, by simp only [List.length_cons] at hn; omega⟩
    have he : e ≠ stop := fun h => hs (by simp [h])
    rcases hstep e es s he hI with ⟨s', e', hb, rfl, hI'⟩ | ⟨r, hb, hQ⟩
    · obtain ⟨r, hr, hQ⟩ := ih m s' (by simpa using hn) (fun h => hs (by simp [h])) hI'
      exact ⟨r, by simpa [forNodes, he, hb] using hr, hQ⟩
    · exact ⟨.error r, by simp [forNodes, he, hb], hQ⟩

theorem chain_head {α : Type*} {next : α → α} {e stop : α} {es : List α}
    (hl : (e :: es ++ [stop]).IsChain fun x y => next x = y) :
    next e = (es ++ [stop]).head (by simp) ∧ (es ++ [stop]).IsChain fun x y => next x = y := by
  cases es with
  | nil => exact List.isChain_cons_cons.mp hl
  | cons y es => exact List.isChain_cons_cons.mp hl

/-- A search along a chain of nodes finds the first that `p` holds of. -/
theorem forNodes_find {α : Type*} [DecidableEq α] (stop : α) (next : α → α) (p : α → Bool)
    (n : ℕ) (es : List α) (hn : es.length ≤ n) (hs : stop ∉ es)
    (hl : (es ++ [stop]).IsChain fun x y => next x = y) :
    forNodes stop (fun e (_ : Unit) => if p e then .error e else .ok ((), next e)) n
      ((es ++ [stop]).head (by simp)) () =
        some ((es.find? p).elim (.ok ()) .error) := by
  induction es generalizing n with
  | nil => cases n <;> simp [forNodes]
  | cons e es ih =>
    obtain ⟨m, rfl⟩ : ∃ m, n = m+1 := ⟨n-1, by simp only [List.length_cons] at hn; omega⟩
    have he : e ≠ stop := fun h => hs (by simp [h])
    simp only [List.cons_append, List.head_cons, forNodes, he, ↓reduceIte]
    by_cases hp : p e = true
    · simp [hp]
    · obtain ⟨hnext, htail⟩ := chain_head hl
      have := ih m (by simpa using hn) (fun h => hs (by simp [h])) htail
      simpa [hp, hnext] using this

/-- A walk along a chain of nodes while `p` holds ends at the last node that it passed. -/
theorem forNodes_while {α : Type*} [DecidableEq α] (stop : α) (next : α → α) (p : α → Bool)
    (n : ℕ) (es : List α) (pos : α) (hn : es.length ≤ n) (hs : stop ∉ es)
    (hl : (es ++ [stop]).IsChain fun x y => next x = y) :
    ∃ r, forNodes stop (fun e (pos : α) => if p e then .ok (e, next e) else .error pos) n
      ((es ++ [stop]).head (by simp)) pos = some r ∧
        (r = .ok ((pos :: es.takeWhile p).getLast (by simp)) ∨
          r = .error ((pos :: es.takeWhile p).getLast (by simp))) := by
  induction es generalizing n pos with
  | nil => cases n <;> exact ⟨_, by simp [forNodes], Or.inl rfl⟩
  | cons e es ih =>
    obtain ⟨m, rfl⟩ : ∃ m, n = m+1 := ⟨n-1, by simp only [List.length_cons] at hn; omega⟩
    have he : e ≠ stop := fun h => hs (by simp [h])
    simp only [List.cons_append, List.head_cons, forNodes, he, ↓reduceIte]
    by_cases hp : p e = true
    swap
    · exact ⟨.error pos, by simp [hp], Or.inr (by simp [hp])⟩
    · obtain ⟨hnext, htail⟩ := chain_head hl
      obtain ⟨r, hr, hres⟩ := ih m e (by simpa using hn) (fun h => hs (by simp [h])) htail
      refine ⟨r, by simpa [hp, hnext] using hr, ?_⟩
      simpa [hp] using hres

/-- Two bodies that do the same up to a change of state make loops that do. -/
theorem forAddr_map {σ' ρ' : Type*} {stride stop : BitVec 64} (body : BitVec 64 → σ → Except ρ σ)
    {body' : BitVec 64 → σ' → Except ρ' σ'} (f : σ → σ') (g : ρ → ρ')
    (hbody : ∀ a s, body' a (f s) = ((body a s).map f).mapError g) (n : ℕ) (a : BitVec 64) (s : σ) :
    forAddr stride stop body' n a (f s) =
      (forAddr stride stop body n a s).map fun r => (r.map f).mapError g := by
  induction n generalizing a s with
  | zero =>
    rw [forAddr, forAddr]
    split_ifs <;> rfl
  | succ n ih =>
    rw [forAddr, forAddr]
    split_ifs
    · rw [hbody]
      cases body a s with
      | ok s' => exact ih (a+stride) s'
      | error r => rfl
    · rfl

theorem forNodes_map {σ' ρ' α : Type*} [DecidableEq α] (stop : α) {body : α → σ → Except ρ (σ × α)}
    {body' : α → σ' → Except ρ' (σ' × α)} (f : σ → σ') (g : ρ → ρ')
    (hbody : ∀ e s, body' e (f s) = ((body e s).map fun x => (f x.1, x.2)).mapError g)
    (n : ℕ) (e : α) (s : σ) :
    forNodes stop body' n e (f s) =
      (forNodes stop body n e s).map fun r => (r.map f).mapError g := by
  induction n generalizing e s with
  | zero =>
    rw [forNodes, forNodes]
    split_ifs <;> rfl
  | succ n ih =>
    rw [forNodes, forNodes]
    split_ifs
    · rfl
    · rw [hbody]
      cases body e s with
      | ok x => exact ih x.2 x.1
      | error r => rfl

end AddrLoop
