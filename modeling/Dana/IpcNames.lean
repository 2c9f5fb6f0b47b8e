import Dana.IpcInv
import Dana.NameTable
import Mathlib.Data.Set.Card

/-! The names of a port space as a table, whatever else runs between the calls, and when the
space is out of names. -/
namespace Dana
open ByteMem Sched NameTable Transition

/-- A space whose bytes are all 0. -/
def IpcSpace.zero : IpcSpace := ⟨0, fun _ => ⟨0, 0, 0⟩⟩

/-- A call on a space with its result, or other code. -/
inductive NameCall
  | insert (port : Word) (kr : KernReturn) (name : Option Word)
  | lookup (name : Word) (kr : KernReturn) (port : Option Word)
  | remove (name : Word) (kr : KernReturn)
  | other

/-- Code between the calls may do anything but write the space. -/
inductive NameStep (space : Word) : Ipc → NameCall → Ipc → Prop
  | insert (s : Ipc) {port : Word} {kr : KernReturn} {name : Option Word} {s' : Ipc}
    (he : ipcSpaceInsert s space port = (kr, name, s')) :
    NameStep space s (.insert port kr name) s'
  | lookup (s : Ipc) {name : Word} {kr : KernReturn} {port : Option Word}
    (he : ipcSpaceLookup s space name = (kr, port)) : NameStep space s (.lookup name kr port) s
  | remove (s : Ipc) {name : Word} {kr : KernReturn} {s' : Ipc}
    (he : ipcSpaceRemove s space name = (kr, s')) : NameStep space s (.remove name kr) s'
  | other {s s' : Ipc} (hsame : s'.spaces space = s.spaces space) : NameStep space s .other s'

/-- What a call asks of the table; an insertion of no port asks nothing. -/
def NameCall.op : NameCall → Option (Op Word Word)
  | .insert port _ (some name) => some (.insert port name)
  | .insert port _ none => if port = ipcPortNull then none else some (.refuse port)
  | .lookup name _ port => some (.lookup name port)
  | .remove name _ => some (.remove name)
  | .other => none

/-- The name behind entry `i`. -/
def nameOf (i : ℕ) : Word := BitVec.ofNat 64 (i+1)

/-- The count and the entries of a space stand for the table `t`. -/
structure SpaceHolds (v : IpcSpace) (t : Table Word Word) : Prop where
  count : v.portCount.toNat = t.issued.length
  count_le : v.portCount.toNat ≤ ipcSpaceMaxPorts.toNat
  issued : ∀ n : Word, n ∈ t.issued ↔ 0 < n.toNat ∧ n.toNat ≤ v.portCount.toNat
  entry : ∀ i < v.portCount.toNat, v.entries i =
    ⟨(t.bound (nameOf i)).getD ipcPortNull, nameOf i, if (t.bound (nameOf i)).isSome then 1 else 0⟩
  ports : ∀ n p, t.bound n = some p → p ≠ ipcPortNull

@[simp] theorem Ipc.setSpace_self (s : Ipc) (sp : Word) (v : IpcSpace) :
    (s.setSpace sp v).spaces sp = v := Function.update_self ..

theorem nameOf_pred {n : Word} (h : 0 < n.toNat) : nameOf (n-1).toNat = n := by
  rw [nameOf]
  bv_omega

theorem nameOf_toNat {i : ℕ} (h : i ≤ 1024) : (nameOf i).toNat = i+1 := by
  rw [nameOf, BitVec.toNat_ofNat]
  omega

section Holds
variable {s : Ipc} {space : Word} {t : Table Word Word}

theorem SpaceHolds.zero : SpaceHolds IpcSpace.zero Table.empty := by
  refine ⟨rfl, Nat.zero_le _, fun n => ?_, fun i hi => absurd hi (Nat.not_lt_zero i), ?_⟩
  · constructor
    · intro h
      exact absurd h List.not_mem_nil
    · intro ⟨h1, h2⟩
      exact absurd h1 (Nat.not_lt.mpr h2)
  · intro n p h
    cases h

/-- A name resolves to what the table says. -/
theorem SpaceHolds.lookup (hv : SpaceHolds (s.spaces space) t) (hsp : space ≠ ipcSpaceNull)
    (name : Word) : ipcSpaceLookup s space name =
      (if (t.bound name).isSome then .success else .invalidArgument, t.bound name) := by
  have hcount := hv.count_le
  rw [show ipcSpaceMaxPorts.toNat = 1024 from rfl] at hcount
  rw [ipcSpaceLookup, if_neg hsp]
  by_cases hi : name ∈ t.issued
  · obtain ⟨h1, h2⟩ := (hv.issued name).mp hi
    have hin : ¬ (name = machPortNull ∨ (s.spaces space).portCount.setWidth 64 < name) := by
      rw [machPortNull]
      bv_omega
    have hentry := hv.entry (name-1).toNat (by bv_omega)
    rw [nameOf_pred h1] at hentry
    rw [if_neg hin]
    simp only [hentry]
    cases hb : t.bound name with
    | none => rfl
    | some p =>
      have hp := hv.ports name p hb
      simp [hp]
  · have hout : name = machPortNull ∨ (s.spaces space).portCount.setWidth 64 < name := by
      rw [hv.issued] at hi
      rw [machPortNull]
      bv_omega
    have hnone : t.bound name = none := not_not.mp fun h => hi (t.bound_issued name h)
    rw [if_pos hout, hnone]
    rfl

/-- The table with the name after the last issued bound to `port`. -/
theorem Table.issue (t : Table Word Word) {n : Word} (hn : n ∉ t.issued) (port : Word) :
    ∃ t' : Table Word Word, t'.issued = n :: t.issued ∧
      t'.bound = Function.update t.bound n (some port) := by
  refine ⟨⟨n :: t.issued, Function.update t.bound n (some port), ?_, fun m hm => ?_⟩, rfl, rfl⟩
  · exact List.nodup_cons.mpr ⟨hn, t.nodup⟩
  · by_cases hmn : m = n
    · exact hmn ▸ List.mem_cons_self
    · rw [Function.update_of_ne hmn] at hm
      exact List.mem_cons_of_mem _ (t.bound_issued m hm)

/-- While fewer than 1024 names have been issued an insertion issues the next one. -/
theorem SpaceHolds.insert (hv : SpaceHolds (s.spaces space) t) (hsp : space ≠ ipcSpaceNull)
    {port : Word} (hp : port ≠ ipcPortNull) :
    (t.issued.length = ipcSpaceMaxPorts.toNat ∧
      ipcSpaceInsert s space port = (.noSpace, none, s)) ∨
    (t.issued.length < ipcSpaceMaxPorts.toNat ∧ ∃ s' t',
      ipcSpaceInsert s space port = (.success, some (nameOf t.issued.length), s') ∧
      Step ipcSpaceMaxPorts.toNat t (.insert port (nameOf t.issued.length)) t' ∧
      SpaceHolds (s'.spaces space) t') := by
  have hmax : ipcSpaceMaxPorts.toNat = 1024 := rfl
  have hle := hv.count_le
  have hcount := hv.count
  rw [hmax] at hle
  rw [ipcSpaceInsert, if_neg (not_or.mpr ⟨hsp, hp⟩), hmax]
  simp only
  by_cases hfull : ipcSpaceMaxPorts ≤ (s.spaces space).portCount
  · rw [if_pos hfull]
    have h1024 : 1024 ≤ (s.spaces space).portCount.toNat := hfull
    exact Or.inl ⟨by omega, rfl⟩
  · have hlt : (s.spaces space).portCount.toNat < 1024 := by
      rw [BitVec.le_def, hmax] at hfull
      omega
    have hnext : ((s.spaces space).portCount+1).toNat = (s.spaces space).portCount.toNat+1 := by
      bv_omega
    have hname : ((s.spaces space).portCount+1).setWidth 64 = nameOf t.issued.length := by
      rw [nameOf, ← hcount]
      bv_omega
    have htoNat : (nameOf t.issued.length).toNat = (s.spaces space).portCount.toNat+1 := by
      rw [nameOf_toNat (by omega), hcount]
    have hnew : nameOf t.issued.length ∉ t.issued := by
      rw [hv.issued, htoNat]
      omega
    obtain ⟨t', hi, hb⟩ := Table.issue t hnew port
    rw [if_neg hfull, hname]
    refine Or.inr ⟨by omega, _, t', rfl, .insert hnew hi hb, ?_⟩
    rw [Ipc.setSpace_self]
    refine ⟨?_, ?_, fun n => ?_, fun i hlt' => ?_, fun n p hn => ?_⟩
    · rw [hi, List.length_cons, ← hcount]
      exact hnext
    · change ((s.spaces space).portCount+1).toNat ≤ 1024
      omega
    · rw [hi, List.mem_cons, hv.issued]
      change _ ↔ 0 < n.toNat ∧ n.toNat ≤ ((s.spaces space).portCount+1).toNat
      rw [← BitVec.toNat_inj, htoNat, hnext]
      omega
    · change i < ((s.spaces space).portCount+1).toNat at hlt'
      rw [hb]
      by_cases hlast : i = (s.spaces space).portCount.toNat
      · rw [hlast]
        change Function.update _ _ _ (s.spaces space).portCount.toNat = _
        rw [Function.update_self, hcount, Function.update_self]
        rfl
      · have hne : nameOf i ≠ nameOf t.issued.length := by
          rw [ne_eq, ← BitVec.toNat_inj, htoNat, nameOf_toNat (by omega)]
          omega
        simp only [Function.update_of_ne hlast, Function.update_of_ne hne]
        exact hv.entry i (by omega)
    · rw [hb] at hn
      by_cases hnn : n = nameOf t.issued.length
      · rw [hnn, Function.update_self] at hn
        exact Option.some.inj hn ▸ hp
      · rw [Function.update_of_ne hnn] at hn
        exact hv.ports n p hn

theorem ipcPortDrain_spaces (port : Word) (n : ℕ) (s : Ipc) :
    (ipcPortDrain port n s).spaces = s.spaces := by
  induction n generalizing s with
  | zero => rfl
  | succ n ih =>
    have hdeq : (ipcPortDequeue s port).2.spaces = s.spaces := by
      unfold ipcPortDequeue
      split_ifs <;> rfl
    rw [ipcPortDrain]
    split_ifs with hpos
    · simp only [ih]
      split_ifs with hm
      · rw [(ipcKmsgFree_only _ _).spaces, hdeq]
      · exact hdeq
    · rfl

/-- No release writes a space. -/
theorem ipcPortRelease_spaces (s : Ipc) (port : Word) :
    (ipcPortRelease s port).spaces = s.spaces := by
  obtain ⟨s₁, hs₁⟩ : ∃ s₁, s₁ = s.setPort port { s.ports port with
      refCount := (s.ports port).refCount-1 } := ⟨_, rfl⟩
  have hsp₁ : s₁.spaces = s.spaces := by
    rw [hs₁]
    rfl
  obtain ⟨z, s₂, hz⟩ : ∃ z s₂,
    getIpcPortZone (ipcPortDrain port (s₁.ports port).msgCount.toNat s₁) = (z, s₂) := ⟨_, _, rfl⟩
  have hsp₂ : s₂.spaces = s.spaces := by
    have hzone (s : Ipc) : (getIpcPortZone s).2.spaces = s.spaces := by
      unfold getIpcPortZone Ipc.getZone
      cases s.portZone <;> rfl
    rw [show s₂ = _ from (congrArg Prod.snd hz).symm, hzone, ipcPortDrain_spaces, hsp₁]
  unfold ipcPortRelease
  split_ifs with h0
  · rfl
  · simp only [← hs₁, hz]
    split_ifs
    · exact hsp₁
    · cases z <;> exact hsp₂

/-- Removing a name unbinds it, and no other. -/
theorem SpaceHolds.remove (hv : SpaceHolds (s.spaces space) t) (hsp : space ≠ ipcSpaceNull)
    (name : Word) : ∃ t' : Table Word Word, Step ipcSpaceMaxPorts.toNat t (.remove name) t' ∧
      SpaceHolds ((ipcSpaceRemove s space name).2.spaces space) t' := by
  obtain ⟨t', hi, hb⟩ : ∃ t' : Table Word Word, t'.issued = t.issued ∧
      t'.bound = Function.update t.bound name none := by
    refine ⟨⟨t.issued, Function.update t.bound name none, t.nodup, fun m hm => ?_⟩, rfl, rfl⟩
    by_cases hmn : m = name
    · rw [hmn, Function.update_self] at hm
      exact absurd rfl hm
    · rw [Function.update_of_ne hmn] at hm
      exact t.bound_issued m hm
  refine ⟨t', .remove hi hb, ?_⟩
  rcases ipcSpaceRemove_cases s space name with ⟨hl, heq⟩ | ⟨port, hl, hp, heq⟩
  · -- nothing is bound to the name
    rw [hv.lookup hsp] at hl
    have hsame : t'.bound = t.bound := by
      rw [hb, ← hl, Function.update_eq_self]
    rw [heq]
    exact ⟨hi ▸ hv.count, hv.count_le, hi ▸ hv.issued, hsame ▸ hv.entry, hsame ▸ hv.ports⟩
  · rw [heq, Ipc.cleared, Ipc.setSpace_self, ipcPortRelease_spaces]
    have hle : (s.spaces space).portCount.toNat ≤ 1024 := hv.count_le
    have hbound : t.bound name = some port := by
      rw [hv.lookup hsp] at hl
      exact (Prod.ext_iff.mp hl).2
    have hissued : 0 < name.toNat ∧ name.toNat ≤ (s.spaces space).portCount.toNat := by
      rw [← hv.issued]
      refine t.bound_issued name ?_
      rw [hbound]
      exact Option.some_ne_none _
    have hindex : (name-1).toNat < (s.spaces space).portCount.toNat := by
      bv_omega
    refine ⟨hi ▸ hv.count, hv.count_le, hi ▸ hv.issued, fun i hlt => ?_, fun n p hn => ?_⟩
    · change i < (s.spaces space).portCount.toNat at hlt
      change Function.update (s.spaces space).entries (name-1).toNat _ i = _
      rw [hb]
      by_cases hni : i = (name-1).toNat
      · rw [hni, Function.update_self, nameOf_pred hissued.1, Function.update_self]
        have hentry := hv.entry _ hindex
        rw [nameOf_pred hissued.1] at hentry
        rw [hentry]
        rfl
      · have hne : nameOf i ≠ name := by
          have htoNat := nameOf_toNat (i := i) (by omega)
          rw [ne_eq, ← BitVec.toNat_inj, htoNat]
          bv_omega
        rw [Function.update_of_ne hni, Function.update_of_ne hne]
        exact hv.entry i hlt
    · rw [hb] at hn
      by_cases hnn : n = name
      · rw [hnn, Function.update_self] at hn
        cases hn
      · rw [Function.update_of_ne hnn] at hn
        exact hv.ports n p hn

/-- Each call is matched by the table, with the same result. -/
theorem SpaceHolds.step {s' : Ipc} {c : NameCall} (hs : NameStep space s c s')
    (hsp : space ≠ ipcSpaceNull) (hv : SpaceHolds (s.spaces space) t) :
    ∃ t', t.Answers ipcSpaceMaxPorts.toNat c.op t' ∧ SpaceHolds (s'.spaces space) t' := by
  cases hs with
  | @insert port kr name _ he =>
    by_cases hp : port = ipcPortNull
    · rw [ipcSpaceInsert, if_pos (Or.inr hp)] at he
      cases he
      exact ⟨t, by simp [NameCall.op, Table.Answers, hp], hv⟩
    · rcases hv.insert hsp hp with ⟨hfull, heq⟩ | ⟨_, s₁, t', heq, hstep, hv'⟩
      · cases heq.symm.trans he
        exact ⟨t, by simpa [NameCall.op, Table.Answers, hp] using Step.refuse port hfull, hv⟩
      · cases heq.symm.trans he
        exact ⟨t', hstep, hv'⟩
  | @lookup name kr port he =>
    rw [hv.lookup hsp] at he
    cases he
    exact ⟨t, .lookup t name, hv⟩
  | @remove name kr _ he =>
    obtain ⟨t', hstep, hv'⟩ := hv.remove hsp name
    rw [he] at hv'
    exact ⟨t', hstep, hv'⟩
  | other hsame => exact ⟨t, rfl, hsame ▸ hv⟩

end Holds

theorem name_run_holds {s s' : Ipc} {space : Word} {calls : List NameCall}
    (hsp : space ≠ ipcSpaceNull) (hr : Run (NameStep space) s calls s')
    (hz : s.spaces space = IpcSpace.zero) :
    ∃ t, Run (Step ipcSpaceMaxPorts.toNat) Table.empty (calls.filterMap NameCall.op) t ∧
      SpaceHolds (s'.spaces space) t := by
  refine hr.simulates_seen (R := fun s t => SpaceHolds (s.spaces space) t) ?_
    (hz ▸ SpaceHolds.zero)
  intro s c s' t hs hv
  obtain ⟨t', hstep, hv'⟩ := hv.step hs hsp
  refine ⟨t', fun op hop => ?_, fun hop => ?_, hv'⟩
  · rw [hop] at hstep
    exact hstep
  · rw [hop] at hstep
    exact hstep

/-- The names of a space that resolve to a port. -/
def liveNames (s : Ipc) (space : Word) : Set Word :=
  {name | (ipcSpaceLookup s space name).1 = .success}

theorem SpaceHolds.liveNames {s : Ipc} {space : Word} {t : Table Word Word}
    (hv : SpaceHolds (s.spaces space) t) (hsp : space ≠ ipcSpaceNull) :
    (liveNames s space).ncard = t.live.length := by
  have hset : Dana.liveNames s space = t.live.toFinset := by
    ext name
    rw [Dana.liveNames, Set.mem_ofPred_eq, hv.lookup hsp, List.coe_toFinset, Set.mem_ofPred_eq,
      Table.live, List.mem_filter]
    cases hb : t.bound name with
    | none => simp
    | some p =>
      have hi : name ∈ t.issued := t.bound_issued name (by rw [hb]; exact Option.some_ne_none _)
      simp [hi]
  have hnodup : t.live.Nodup := t.nodup.filter _
  rw [hset, Set.ncard_coe_finset, List.toFinset_card_of_nodup hnodup]

/-- After any calls on a fresh space: no name has been returned twice, nor is any 0; a name
resolves to what was inserted under it until it is removed, and any other to nothing; so a
name that was issued denotes nothing else, and a removal affects no other name. -/
theorem space_run_names {s s' : Ipc} {space : Word} {calls : List NameCall}
    (hsp : space ≠ ipcSpaceNull) (hz : s.spaces space = IpcSpace.zero)
    (hr : Run (NameStep space) s calls s') :
    ∃ ops t, ops = calls.filterMap NameCall.op ∧
      Run (Step ipcSpaceMaxPorts.toNat) Table.empty ops t ∧
      ((inserted ops).map Prod.fst).Nodup ∧ (∀ name ∈ (inserted ops).map Prod.fst, name ≠ 0) ∧
      (∀ name port, ipcSpaceLookup s' space name = (.success, some port) ↔
        Standing ops name port) ∧
      (∀ name, (∀ port, ¬ Standing ops name port) →
        ipcSpaceLookup s' space name = (.invalidArgument, none)) ∧
      (∀ name port port', .insert port name ∈ ops →
        ipcSpaceLookup s' space name = (.success, some port') → port' = port) ∧
      (∀ name name', name' ≠ name →
        ipcSpaceLookup (ipcSpaceRemove s' space name).2 space name' =
          ipcSpaceLookup s' space name') ∧
      ∀ port name s'', ipcSpaceInsert s' space port = (.success, some name, s'') →
        name ≠ 0 ∧ ∀ port', .insert port' name ∉ ops := by
  obtain ⟨t, ht, hv⟩ := name_run_holds hsp hr hz
  have hlookup := hv.lookup hsp
  refine ⟨_, t, rfl, ht, run_nodup ht, fun name hn => ?_, fun name port => ?_, fun name hn => ?_,
    fun name port port' hi hl => ?_, fun name name' hne => ?_, fun port name s'' he => ?_⟩
  · rw [← List.mem_reverse, ← run_issued ht, hv.issued] at hn
    rintro rfl
    exact Nat.lt_irrefl _ hn.1
  · rw [hlookup, ← run_bound ht]
    cases t.bound name <;> simp
  · have hnone : t.bound name = none := by
      cases hb : t.bound name with
      | none => rfl
      | some port => exact absurd ((run_bound ht name port).mp hb) (hn port)
    rw [hlookup, hnone]
    rfl
  · have hb : t.bound name = some port' := by
      rw [hlookup] at hl
      exact (Prod.ext_iff.mp hl).2
    obtain ⟨l₁, l₂, hops, _⟩ := (run_bound ht name port').mp hb
    exact run_unique ht (by rw [hops]; simp) hi
  · obtain ⟨t', hstep, hv'⟩ := hv.remove hsp name
    rw [hv'.lookup hsp, hlookup]
    cases hstep with
    | remove hi hb => rw [hb, Function.update_of_ne hne]
  · by_cases hp : port = ipcPortNull
    · rw [ipcSpaceInsert, if_pos (Or.inr hp)] at he
      cases he
    · rcases hv.insert hsp hp with ⟨_, heq⟩ | ⟨_, s₁, t', heq, hstep, hv'⟩
      · cases heq.symm.trans he
      · cases heq.symm.trans he
        cases hstep with
        | insert hn hi hb =>
          have hmem : nameOf t.issued.length ∈ t'.issued := hi ▸ List.mem_cons_self
          refine ⟨?_, fun port' hins => hn ((mem_issued ht).mpr ⟨port', hins⟩)⟩
          intro h0
          have hpos := ((hv'.issued _).mp hmem).1
          rw [h0] at hpos
          exact Nat.lt_irrefl _ hpos

/-- Every space is empty, and every port has one reference. -/
def ipcUnnamed : Ipc := { ipcStart.ipc with spaces := fun _ => IpcSpace.zero }

/-- The first name of a space resolves to the port inserted. -/
theorem space_run_names_first : ∃ s' calls, Run (NameStep 0x20) ipcUnnamed calls s' ∧
    calls = [.insert 0x30 .success (some 1)] ∧
    ipcSpaceLookup s' 0x20 1 = (.success, some 0x30) := by
  have hr : Run (NameStep 0x20) ipcUnnamed [.insert 0x30 .success (some 1)] _ :=
    Run.start.snoc (.insert ipcUnnamed (Prod.ext (by decide) (Prod.ext (by decide) rfl)))
  obtain ⟨ops, t, hops, _, _, _, hstanding, _⟩ := space_run_names (by decide) rfl hr
  exact ⟨_, _, hr, rfl, (hstanding 1 0x30).mpr ⟨[], [], hops, List.not_mem_nil⟩⟩

/-- An insertion is refused for lack of names only when 1024 are live, exactly as long as
fewer than 1024 have been issued or none of them has been removed. -/
theorem space_run_capacity {s s' : Ipc} {space port : Word} {calls : List NameCall}
    (hsp : space ≠ ipcSpaceNull) (hz : s.spaces space = IpcSpace.zero)
    (hr : Run (NameStep space) s calls s') (hp : port ≠ ipcPortNull) :
    ((ipcSpaceInsert s' space port).1 = .noSpace →
      (liveNames s' space).ncard = ipcSpaceMaxPorts.toNat) ↔
    (inserted (calls.filterMap NameCall.op)).length < ipcSpaceMaxPorts.toNat ∨
      ∀ name, ¬ Dropped (calls.filterMap NameCall.op) name := by
  obtain ⟨t, ht, hv⟩ := name_run_holds hsp hr hz
  rw [hv.liveNames hsp, ← run_issued_length ht, ← run_live ht]
  rcases hv.insert hsp hp with ⟨hfull, heq⟩ | ⟨hlt, s₁, t', heq, _⟩
  · rw [heq, hfull]
    simp
  · rw [heq]
    simp [hlt]

/-- A space that has issued one name takes another one after its removal. -/
theorem space_run_capacity_first : ∃ s' calls, Run (NameStep 0x20) ipcUnnamed calls s' ∧
    calls = [.insert 0x30 .success (some 1), .remove 1 .success] ∧
    ((ipcSpaceInsert s' 0x20 0x40).1 = .noSpace →
      (liveNames s' 0x20).ncard = ipcSpaceMaxPorts.toNat) := by
  have hr : Run (NameStep 0x20) ipcUnnamed
      ([.insert 0x30 .success (some 1)] ++ [.remove 1 .success]) _ :=
    (Run.start.snoc (.insert ipcUnnamed (Prod.ext (by decide) (Prod.ext (by decide) rfl)))).snoc
      (.remove _ (Prod.ext (by decide) rfl))
  exact ⟨_, _, hr, rfl, (space_run_capacity (by decide) rfl hr (by decide)).mpr (Or.inl (by decide))⟩

/-- The port behind the `i`-th name of a full space. -/
def portOf (i : ℕ) : Word := BitVec.ofNat 64 (0x1000+512*i)

/-- As many ports as there are names are inserted one after the other. -/
theorem space_run_fills (n : ℕ) (hn : n ≤ ipcSpaceMaxPorts.toNat) :
    ∃ s t, Run (NameStep 0x20) ipcUnnamed
        ((List.range n).map fun i => .insert (portOf i) .success (some (nameOf i))) s ∧
      Run (Step ipcSpaceMaxPorts.toNat) Table.empty
        ((List.range n).map fun i => .insert (portOf i) (nameOf i)) t ∧
      SpaceHolds (s.spaces 0x20) t ∧ t.issued.length = n := by
  induction n with
  | zero => exact ⟨_, _, Run.start, Run.start, SpaceHolds.zero, rfl⟩
  | succ n ih =>
    obtain ⟨s, t, hr, ht, hv, hlen⟩ := ih (Nat.le_of_succ_le hn)
    have hmax : ipcSpaceMaxPorts.toNat = 1024 := rfl
    have hport : portOf n ≠ ipcPortNull := by
      rw [portOf, ipcPortNull]
      bv_omega
    rcases hv.insert (by decide) hport with ⟨hfull, _⟩ | ⟨_, s', t', he, hstep, hv'⟩
    · omega
    · rw [hlen] at he hstep
      rw [List.range_succ, List.map_append, List.map_append]
      refine ⟨s', t', hr.snoc (.insert s he), ht.snoc hstep, hv', ?_⟩
      cases hstep with
      | insert hnew hi hb => rw [hi, List.length_cons, hlen]

/-- A space has issued 1024 names, and the first of them is removed: no name can be had,
though 1023 are live. -/
theorem space_full_of_removed : ∃ s' calls, Run (NameStep 0x20) ipcUnnamed calls s' ∧
    (ipcSpaceInsert s' 0x20 0x40).1 = .noSpace ∧
    (liveNames s' 0x20).ncard < ipcSpaceMaxPorts.toNat := by
  obtain ⟨s, t, hr, ht, hv, hlen⟩ := space_run_fills _ le_rfl
  obtain ⟨t', hstep, hv'⟩ := hv.remove (by decide) 1
  obtain ⟨kr, s', he⟩ : ∃ kr s', ipcSpaceRemove s 0x20 1 = (kr, s') := ⟨_, _, rfl⟩
  rw [he] at hv'
  have ht' := ht.snoc hstep
  have hlen' : t'.issued.length = ipcSpaceMaxPorts.toNat := by
    cases hstep with
    | remove hi hb => rw [hi, hlen]
  have hport : (0x40 : Word) ≠ ipcPortNull := by decide
  refine ⟨s', _, hr.snoc (.remove s he), ?_, ?_⟩
  · rcases hv'.insert (by decide) hport with ⟨_, heq⟩ | ⟨hlt, _⟩
    · rw [heq]
    · omega
  · -- the first name was issued, and is not live
    have hfirst : ∃ a, .insert a 1 ∈
        (List.range ipcSpaceMaxPorts.toNat).map fun i => Op.insert (portOf i) (nameOf i) := by
      refine ⟨portOf 0, ?_⟩
      rw [List.mem_map]
      exact ⟨0, List.mem_range.mpr (by decide), rfl⟩
    have hne : t'.live.length ≠ t'.issued.length :=
      fun h => (run_live ht').mp h 1 (dropped_snoc.mpr (Or.inr ⟨rfl, hfirst⟩))
    have hle : t'.live.length ≤ t'.issued.length := List.length_filter_le ..
    rw [hv'.liveNames (by decide)]
    omega

end Dana
