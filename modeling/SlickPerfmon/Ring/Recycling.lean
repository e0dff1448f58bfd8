import SlickPerfmon.Ring.Ownership

/-!
# Rings come back

A ring that its owner handed back, or whose owner died, is freed by the collector's next passes, whatever everyone
else does meanwhile.
-/

namespace SlickPerfmon

open Library

variable {Thread Session Module Process : Type} {d : Deployment Thread Session Module Process}
  {st st' : TableState Thread Session Module Process} {count mask : Nat} {self : UInt32}

/-! ## What a step does to one claim word -/

/-- A claim word stays, or a living process claims the ring, or it is retired in its session's name, or the collector
frees it. -/
inductive OwnerStep (d : Deployment Thread Session Module Process) (a : TableAction Thread Session Module Process)
    (st st' : TableState Thread Session Module Process) (i : Nat) : Prop
  | same (h : st'.owner i = st.owner i)
  | claimed (s : Session) (hfree : st.owner i = kRingFree) (hal : st.Alive d (d.home s)) (h : st'.owner i = d.owner s)
  | retired (s : Session) (hheld : st.owner i = d.owner s) (h : st'.owner i = retiredWord (d.owner s))
  | freed (ha : a = .work) (h : st'.owner i = kRingFree)

/-- The collector's own accesses. -/
def TableAction.collects : TableAction Thread Session Module Process → Bool
  | .read _ _ | .consume _ | .release | .reclaim | .work => true
  | _ => false

/-- A step, as far as the life of ring `i` goes. -/
structure SlotStep (d : Deployment Thread Session Module Process) (a : TableAction Thread Session Module Process)
    (st st' : TableState Thread Session Module Process) (i : Nat) : Prop where
  owner : OwnerStep d a st st' i
  processes : (∀ p, a ≠ .spawn p) → (∀ p, a ≠ .die p) → st'.born = st.born ∧ st'.occupant = st.occupant
  collector : a.collects = false → st'.collector = st.collector ∧ st'.cursor = st.cursor

theorem SlotStep.plain {a : TableAction Thread Session Module Process} {i : Nat} (howner : OwnerStep d a st st' i)
    (hborn : st'.born = st.born) (hoccupant : st'.occupant = st.occupant) (hcollector : st'.collector = st.collector)
    (hcursor : st'.cursor = st.cursor) : SlotStep d a st st' i :=
  ⟨howner, fun _ _ => ⟨hborn, hoccupant⟩, fun _ => ⟨hcollector, hcursor⟩⟩

theorem SlotStep.collects {a : TableAction Thread Session Module Process} {i : Nat} (ha : a.collects = true)
    (howner : OwnerStep d a st st' i) (hborn : st'.born = st.born) (hoccupant : st'.occupant = st.occupant) :
    SlotStep d a st st' i :=
  ⟨howner, fun _ _ => ⟨hborn, hoccupant⟩, fun h => by rw [ha] at h; cases h⟩

theorem TableState.retire_frame (i : Nat) (w : UInt64) :
    (st.retire i w).born = st.born ∧ (st.retire i w).occupant = st.occupant ∧
      (st.retire i w).collector = st.collector ∧ (st.retire i w).cursor = st.cursor := by
  unfold TableState.retire
  split <;> exact ⟨rfl, rfl, rfl, rfl⟩

theorem TableState.retire_owner (i j : Nat) (s : Session) :
    (st.retire i (d.owner s)).owner j = st.owner j ∨
      st.owner j = d.owner s ∧ (st.retire i (d.owner s)).owner j = retiredWord (d.owner s) := by
  unfold TableState.retire
  split
  · rename_i hi
    by_cases hj : j = i
    · subst hj
      exact .inr ⟨hi, Function.update_self ..⟩
    · exact .inl (Function.update_of_ne hj _ _)
  · exact .inl rfl

theorem OwnerStep.of_retire {a : TableAction Thread Session Module Process} {i j : Nat} {s : Session}
    (h : st'.owner = (st.retire i (d.owner s)).owner) : OwnerStep d a st st' j := by
  obtain hsame | ⟨hheld, hret⟩ := TableState.retire_owner i j s
  · exact .same ((congrFun h j).trans hsame)
  · exact .retired s hheld ((congrFun h j).trans hret)

variable [DecidableEq Thread] [DecidableEq Session] [DecidableEq Module] [DecidableEq Process]

/-- A step of a thread. -/
theorem TableInv.slot_go (h : TableInv d st) (i : Nat) {t : Thread}
    (hs : TableState.step d count mask self (.go t) st = some st') : SlotStep d (.go t) st st' i := by
  simp only [TableState.step, TableState.go] at hs
  split at hs
  swap
  · cases hs
  rename_i hal
  have hat := h.pc t
  unfold ThreadState.PcHolds at hat
  unfold TableState.goPc at hs
  cases hpc : (st.threads t).pc with
  | idle => rw [hpc] at hs; cases hs
  | exited => rw [hpc] at hs; cases hs
  | load s j stamps =>
      simp only [hpc] at hs
      split at hs <;> cases hs <;> exact .plain (.same rfl) rfl rfl rfl rfl
  | claim s j stamps =>
      simp only [hpc] at hs hat
      split at hs
      · rename_i hfree
        cases hs
        by_cases hi : i = j
        · subst hi
          refine .plain (.claimed s hfree ?_ (Function.update_self ..)) rfl rfl rfl rfl
          rw [(h.known t s (.inl hat.1)).2]
          exact hal
        · exact .plain (.same (Function.update_of_ne hi _ _)) rfl rfl rfl rfl
      · cases hs
        exact .plain (.same rfl) rfl rfl rfl rfl
  | attach s j stamps =>
      simp only [hpc] at hs
      cases hs
      exact .plain (.same rfl) rfl rfl rfl rfl
  | publish s =>
      simp only [hpc] at hs
      split at hs
      · split at hs <;> cases hs
        exact .plain (.same rfl) rfl rfl rfl rfl
      · cases hs
        exact .plain (.same rfl) rfl rfl rfl rfl
  | retire s =>
      simp only [hpc] at hs
      cases hs
      obtain ⟨hborn, hoccupant, hcollector, hcursor⟩ := TableState.retire_frame
        (st.threads t).hookRing (d.owner s)
      exact .plain (.of_retire rfl) hborn hoccupant hcollector hcursor

/-- A step of the collector's passes. -/
theorem TableInv.slot_work (h : TableInv d st) (i : Nat)
    (hs : TableState.step d count mask self .work st = some st') : SlotStep d .work st st' i := by
  have hcol := h.collector
  unfold TableState.CollectorHolds at hcol
  simp only [TableState.step, TableState.work] at hs
  cases hpc : st.collector with
  | idle => rw [hpc] at hs; cases hs
  | read r hd maxN => rw [hpc] at hs; cases hs
  | anchor j =>
      simp only [hpc] at hs
      split at hs <;> cases hs <;> exact .collects rfl (.same rfl) rfl rfl
  | load j =>
      simp only [hpc] at hs
      split at hs <;> cases hs <;> exact .collects rfl (.same rfl) rfl rfl
  | drained j seen =>
      simp only [hpc] at hs
      cases hs
      exact .collects rfl (.same rfl) rfl rfl
  | free j seen =>
      simp only [hpc] at hs
      split at hs
      · cases hs
        by_cases hi : i = j
        · subst hi
          exact .collects rfl (.freed rfl (Function.update_self ..)) rfl rfl
        · exact .collects rfl (.same (Function.update_of_ne hi _ _)) rfl rfl
      · cases hs
        exact .collects rfl (.same rfl) rfl rfl
  | scan j =>
      simp only [hpc] at hs
      split at hs <;> cases hs <;> exact .collects rfl (.same rfl) rfl rfl
  | alive j w =>
      simp only [hpc] at hs
      cases hs
      exact .collects rfl (.same rfl) rfl rfl
  | retire j w =>
      simp only [hpc] at hs hcol
      obtain ⟨s, -, rfl, -⟩ := hcol
      cases hs
      obtain ⟨hborn, hoccupant, -, -⟩ := TableState.retire_frame j (d.owner s)
      exact .collects rfl (.of_retire rfl) hborn hoccupant

theorem TableInv.slot_step (h : TableInv d st) (i : Nat) {a : TableAction Thread Session Module Process}
    (hs : TableState.step d count mask self a st = some st') : SlotStep d a st st' i := by
  cases a with
  | spawn p =>
      simp only [TableState.step, TableState.spawn] at hs
      split at hs <;> cases hs
      exact ⟨.same rfl, fun h => absurd rfl (h p), fun _ => ⟨rfl, rfl⟩⟩
  | die p =>
      simp only [TableState.step, TableState.die] at hs
      split at hs <;> cases hs
      exact ⟨.same rfl, fun _ h => absurd rfl (h p), fun _ => ⟨rfl, rfl⟩⟩
  | start s =>
      simp only [TableState.step, TableState.start] at hs
      split at hs
      · split at hs <;> cases hs <;> exact .plain (.same rfl) rfl rfl rfl rfl
      · cases hs
  | shutdown s =>
      simp only [TableState.step, TableState.shutdown] at hs
      split at hs
      · split at hs
        · cases hs
          exact .plain (.same rfl) rfl rfl rfl rfl
        · cases hs
          exact .plain (.same rfl) rfl rfl rfl rfl
        · split at hs <;> cases hs
          · obtain ⟨hborn, hoccupant, hcollector, hcursor⟩ := TableState.retire_frame _ (d.owner s)
            exact .plain (.of_retire rfl) hborn hoccupant hcollector hcursor
          · exact .plain (.same rfl) rfl rfl rfl rfl
        · cases hs
      · cases hs
  | attachLive m p =>
      simp only [TableState.step, TableState.attachLive] at hs
      split at hs <;> cases hs
      exact .plain (.same rfl) rfl rfl rfl rfl
  | attachCurrent m p =>
      simp only [TableState.step, TableState.attachCurrent] at hs
      split at hs <;> cases hs
      exact .plain (.same rfl) rfl rfl rfl rfl
  | stamp t =>
      simp only [TableState.step, TableState.enter] at hs
      split at hs
      · split at hs <;> cases hs <;> exact .plain (.same rfl) rfl rfl rfl rfl
      · cases hs
  | prepare t =>
      simp only [TableState.step, TableState.enter] at hs
      split at hs
      · split at hs <;> cases hs <;> exact .plain (.same rfl) rfl rfl rfl rfl
      · cases hs
  | exit t =>
      simp only [TableState.step, TableState.exit] at hs
      split at hs
      · split at hs <;> cases hs <;> exact .plain (.same rfl) rfl rfl rfl rfl
      · cases hs
  | go t => exact h.slot_go i hs
  | read r maxN =>
      simp only [TableState.step, TableState.readHead] at hs
      split at hs
      · split at hs <;> cases hs <;> exact .collects rfl (.same rfl) rfl rfl
      · cases hs
  | consume k =>
      simp only [TableState.step, TableState.consume] at hs
      split at hs
      · split at hs <;> cases hs
        exact .collects rfl (.same rfl) rfl rfl
      · cases hs
  | release =>
      simp only [TableState.step] at hs
      split at hs <;> cases hs
      exact .collects rfl (.same rfl) rfl rfl
  | reclaim =>
      simp only [TableState.step] at hs
      split at hs <;> cases hs
      exact .collects rfl (.same rfl) rfl rfl
  | work => exact h.slot_work i hs

/-! ## The collector's passes -/

/-- `reclaim_dead_rings` has yet to look at ring `i`, or is about to retire it under `w`. -/
def ToReclaim (i : Nat) (w : UInt64) : CollectorPc → Prop
  | .scan j => j ≤ i
  | .alive j v | .retire j v => j < i ∨ j = i ∧ v = w
  | _ => False

/-- `release_retired_rings` has yet to look at ring `i`, or is about to free it from `w`. -/
def ToRelease (i : Nat) (w : UInt64) : CollectorPc → Prop
  | .load j => j ≤ i
  | .drained j v | .free j v => j < i ∨ j = i ∧ v = w
  | _ => False

/-- The process of a session is gone, and its pid with it. -/
structure Gone (d : Deployment Thread Session Module Process) (st : TableState Thread Session Module Process)
    (s : Session) : Prop where
  born : st.born (d.home s) = true
  vacant : st.occupant (d.pidOf (d.home s)) = none

/-- No process is given the pid. -/
def TableAction.spares (d : Deployment Thread Session Module Process) (s : Session) :
    TableAction Thread Session Module Process → Prop
  | .spawn p => d.pidOf p ≠ d.pidOf (d.home s)
  | _ => True

theorem Gone.step (hinv : TableInv d st) {s : Session} (h : Gone d st s)
    {a : TableAction Thread Session Module Process} (ha : a.spares d s)
    (hs : TableState.step d count mask self a st = some st') : Gone d st' s := by
  have hframe := (hinv.slot_step 0 hs).processes
  cases a with
  | spawn p =>
      simp only [TableState.step, TableState.spawn] at hs
      split at hs <;> cases hs
      refine ⟨?_, ?_⟩
      · by_cases hp : d.home s = p
        · simp only [hp, Function.update_self]
        · simpa only [Function.update_of_ne hp] using h.born
      · simpa only [Function.update_of_ne (Ne.symm ha)] using h.vacant
  | die p =>
      simp only [TableState.step, TableState.die] at hs
      split at hs <;> cases hs
      refine ⟨h.born, ?_⟩
      by_cases hpid : d.pidOf (d.home s) = d.pidOf p
      · simp only [hpid, Function.update_self]
      · simpa only [Function.update_of_ne hpid] using h.vacant
  | _ =>
      obtain ⟨hborn, hoccupant⟩ := hframe (by simp) (by simp)
      exact ⟨by rw [hborn]; exact h.born, by rw [hoccupant]; exact h.vacant⟩

theorem le_readFirst {c h h' maxN : Nat} (hc : c ≤ h) :
    c ≤ readFirst (firstIntact h' mask) (readStart h mask c) (readStop h (readStart h mask c) maxN) := by
  have hstart : c ≤ readStart h mask c ∧ readStart h mask c ≤ h := by
    unfold readStart firstIntact
    split_ifs <;> omega
  have hstop : readStart h mask c ≤ readStop h (readStart h mask c) maxN := by
    unfold readStop
    split_ifs <;> omega
  unfold readFirst
  split_ifs <;> omega

namespace TableInv

variable (h : TableInv d st)
include h

/-- A ring stays in its session's hands until it is freed. -/
theorem held_step {i : Nat} {s : Session} (hheld : st.HeldBy d i s) {a : TableAction Thread Session Module Process}
    (hs : TableState.step d count mask self a st = some st') :
    (st'.owner i = st.owner i ∨ st'.owner i = retiredWord (d.owner s)) ∨ st'.owner i = kRingFree := by
  cases (h.slot_step i hs).owner with
  | same hsame => exact .inl (.inl hsame)
  | claimed s' hfree =>
      obtain hw | hw := hheld
      · exact absurd (hw.symm.trans hfree) (d.owner_ne_free s)
      · have := congrArg ringState (hw.symm.trans hfree)
        rw [d.ringState_retired] at this
        exact absurd this (by decide)
  | retired s' hw' hret =>
      obtain hw | hw := hheld
      · rw [d.owner_inj (hw'.symm.trans hw)] at hret
        exact .inl (.inr hret)
      · exact absurd (hw'.symm.trans hw) (d.owner_ne_retired s' s)
  | freed _ hfree => exact .inr hfree

/-- A cursor does not go back. -/
theorem cursor_step (i : Nat) {a : TableAction Thread Session Module Process}
    (hs : TableState.step d count mask self a st = some st') : st.cursor i ≤ st'.cursor i := by
  by_cases hcol : a.collects = true
  · cases a with
    | read r m =>
        simp only [TableState.step, TableState.readHead] at hs
        split at hs
        · split at hs <;> cases hs <;> exact Nat.le_refl _
        · cases hs
    | consume k =>
        simp only [TableState.step, TableState.consume] at hs
        split at hs
        · rename_i r hd m hpc
          split at hs <;> cases hs
          by_cases hi : i = r
          · subst hi
            have hcol := h.collector
            simp only [TableState.CollectorHolds, hpc] at hcol
            simp only [Function.update_self]
            exact (le_readFirst hcol.1).trans (Nat.le_add_right _ _)
          · simp only [Function.update_of_ne hi]
            exact Nat.le_refl _
        · cases hs
    | release =>
        simp only [TableState.step] at hs
        split at hs <;> cases hs
        exact Nat.le_refl _
    | reclaim =>
        simp only [TableState.step] at hs
        split at hs <;> cases hs
        exact Nat.le_refl _
    | work =>
        simp only [TableState.step, TableState.work] at hs
        have hretire : ∀ (j : Nat) (w : UInt64), (st.retire j w).cursor = st.cursor := fun j w =>
          (TableState.retire_frame j w).2.2.2
        cases hpc : st.collector with
        | idle => rw [hpc] at hs; cases hs
        | read r hd m => rw [hpc] at hs; cases hs
        | anchor j =>
            simp only [hpc] at hs
            split at hs <;> cases hs
            · by_cases hi : i = j
              · subst hi
                simp only [Function.update_self]
                exact h.cursor i
              · simp only [Function.update_of_ne hi]
                exact Nat.le_refl _
            · exact Nat.le_refl _
        | retire j w =>
            simp only [hpc] at hs
            cases hs
            simp only [hretire]
            exact Nat.le_refl _
        | free j w =>
            simp only [hpc] at hs
            split at hs <;> cases hs <;> exact Nat.le_refl _
        | load j =>
            simp only [hpc] at hs
            split at hs <;> cases hs <;> exact Nat.le_refl _
        | scan j =>
            simp only [hpc] at hs
            split at hs <;> cases hs <;> exact Nat.le_refl _
        | _ =>
            simp only [hpc] at hs
            cases hs
            exact Nat.le_refl _
    | _ => cases hcol
  · rw [((h.slot_step i hs).collector (by simpa using hcol)).2]

/-- While a ring is retired its head stands, its cursor goes up, and its word stays until it is freed. -/
theorem retired_step {i : Nat} (hret : ringState (st.owner i) = kRingRetired)
    {a : TableAction Thread Session Module Process} (hs : TableState.step d count mask self a st = some st') :
    (st'.owner i = st.owner i ∧ st'.head i = st.head i ∧ st.cursor i ≤ st'.cursor i) ∨ st'.owner i = kRingFree := by
  have hhead := (h.step a hs).2.final i (by rw [hret]; decide)
  have hcursor := h.cursor_step i hs
  obtain hw | ⟨s, -, hw⟩ := h.words i
  · rw [hw] at hret
    exact absurd hret (by decide)
  · obtain (hsame | hsame) | hfree := h.held_step hw hs
    · exact .inl ⟨hsame, hhead, hcursor⟩
    · obtain hw | hw := hw
      · rw [hw, d.ringState_owner] at hret
        exact absurd hret (by decide)
      · exact .inl ⟨hsame.trans hw.symm, hhead, hcursor⟩
    · exact .inr hfree

/-- A pass of `release_retired_rings` that has not come past ring `i` is nearer to it, or has freed it. -/
theorem releasing_step {i : Nat} (hi : i < count) {w : UInt64} (hw : st.owner i = w) (hret : ringState w = kRingRetired)
    (hdrained : st.cursor i = st.head i) (hpass : ToRelease i w st.collector)
    {a : TableAction Thread Session Module Process} (hs : TableState.step d count mask self a st = some st') :
    (st'.owner i = w ∧ st'.cursor i = st'.head i ∧ ToRelease i w st'.collector) ∨ st'.owner i = kRingFree := by
  obtain ⟨howner, hhead, hcursor⟩ | hfree := h.retired_step (by rw [hw]; exact hret) hs
  swap
  · exact .inr hfree
  have hbound := (h.step a hs).1.cursor i
  refine .inl ⟨howner.trans hw, by omega, ?_⟩
  by_cases hcol : a.collects = true
  swap
  · rw [((h.slot_step i hs).collector (by simpa using hcol)).1]
    exact hpass
  have hbusy : st.collector ≠ .idle := fun he => by rw [he] at hpass; exact hpass
  cases a with
  | read r m =>
      simp only [TableState.step, TableState.readHead, if_neg hbusy] at hs
      cases hs
  | release =>
      simp only [TableState.step, if_neg hbusy] at hs
      cases hs
  | reclaim =>
      simp only [TableState.step, if_neg hbusy] at hs
      cases hs
  | consume k =>
      simp only [TableState.step, TableState.consume] at hs
      split at hs
      · rename_i hpc
        rw [hpc] at hpass
        exact hpass.elim
      · cases hs
  | work =>
      simp only [TableState.step, TableState.work] at hs
      cases hpc : st.collector with
      | load j =>
          simp only [hpc, ToRelease] at hs hpass
          rw [if_pos (by omega)] at hs
          cases hs
          by_cases hj : j = i
          · subst hj
            simp only [hw, hret, if_true]
            exact .inr ⟨rfl, rfl⟩
          · simp only
            split <;> simp only [ToRelease] <;> omega
      | drained j v =>
          simp only [hpc, ToRelease] at hs hpass
          cases hs
          obtain hj | ⟨rfl, rfl⟩ := hpass
          · simp only
            split <;> simp only [ToRelease] <;> omega
          · simp only
            rw [if_pos (Nat.le_of_eq hdrained.symm)]
            exact .inr ⟨rfl, rfl⟩
      | free j v =>
          simp only [hpc, ToRelease] at hs hpass
          obtain hj | ⟨rfl, rfl⟩ := hpass
          · split at hs <;> cases hs <;> exact hj
          · rw [if_pos hw] at hs
            cases hs
            -- here it is freed
            simp only [TableState.setOwner, Function.update_self] at howner
            rw [hw] at howner
            rw [← howner] at hret
            exact absurd hret (by decide)
      | _ => rw [hpc] at hpass; exact hpass.elim
  | _ => cases hcol

/-- A pass of `reclaim_dead_rings` that has not come past a dead session's ring `i` is nearer to it, or has retired it. -/
theorem scanning_step {i : Nat} (hi : i < count) {s : Session} (hgone : Gone d st s) (hself : d.pidOf (d.home s) ≠ self)
    (hheld : st.HeldBy d i s) (hpass : st.owner i = d.owner s → ToReclaim i (d.owner s) st.collector)
    {a : TableAction Thread Session Module Process} (hs : TableState.step d count mask self a st = some st') :
    (st'.HeldBy d i s ∧ (st'.owner i = d.owner s → ToReclaim i (d.owner s) st'.collector)) ∨
      st'.owner i = kRingFree := by
  obtain (hsame | hret) | hfree := h.held_step hheld hs
  · refine .inl ⟨by unfold TableState.HeldBy; rw [hsame]; exact hheld, fun howner => ?_⟩
    rw [hsame] at howner
    specialize hpass howner
    by_cases hcol : a.collects = true
    swap
    · rw [((h.slot_step i hs).collector (by simpa using hcol)).1]
      exact hpass
    have hbusy : st.collector ≠ .idle := fun he => by rw [he] at hpass; exact hpass
    cases a with
    | read r m =>
        simp only [TableState.step, TableState.readHead, if_neg hbusy] at hs
        cases hs
    | release =>
        simp only [TableState.step, if_neg hbusy] at hs
        cases hs
    | reclaim =>
        simp only [TableState.step, if_neg hbusy] at hs
        cases hs
    | consume k =>
        simp only [TableState.step, TableState.consume] at hs
        split at hs
        · rename_i hpc
          rw [hpc] at hpass
          exact hpass.elim
        · cases hs
    | work =>
        simp only [TableState.step, TableState.work] at hs
        cases hpc : st.collector with
        | scan j =>
            simp only [hpc, ToReclaim] at hs hpass
            rw [if_pos (by omega)] at hs
            cases hs
            by_cases hj : j = i
            · subst hj
              simp only [howner, d.ringState_owner, d.ringPid_owner, true_and, if_pos hself]
              exact .inr ⟨rfl, rfl⟩
            · simp only
              split <;> simp only [ToReclaim] <;> omega
        | alive j v =>
            simp only [hpc, ToReclaim] at hs hpass
            cases hs
            obtain hj | ⟨rfl, rfl⟩ := hpass
            · simp only
              split <;> simp only [ToReclaim] <;> omega
            · simp only [d.ringPid_owner, hgone.vacant, if_true]
              exact .inr ⟨rfl, rfl⟩
        | retire j v =>
            simp only [hpc, ToReclaim] at hs hpass
            cases hs
            obtain hj | ⟨rfl, rfl⟩ := hpass
            · exact hj
            · -- here it is retired
              simp only [TableState.retire, if_pos howner, TableState.setOwner, Function.update_self] at hsame
              exact absurd (howner.symm.trans hsame.symm) (d.owner_ne_retired s s)
        | _ => rw [hpc] at hpass; exact hpass.elim
    | _ => cases hcol
  · exact .inl ⟨.inr hret, fun howner => absurd (howner.symm.trans hret) (d.owner_ne_retired s s)⟩
  · exact .inr hfree

end TableInv

/-- **Rings come back.** From any reachable state, and whatever the others do: a pass of `release_retired_rings` frees
each ring that is retired and read to its head as the pass begins; a pass of `reclaim_dead_rings` retires each ring of a
process whose pid nobody has; and a retired ring's word and head stand until it is freed, while its cursor goes up. -/
theorem rings_come_back (h : (tableSystem d count mask self).Reachable st) {i : Nat} (hi : i < count) :
    (∀ as st', ringState (st.owner i) = kRingRetired → st.cursor i = st.head i →
      (tableSystem d count mask self).run (.release :: as) st = some st' → st'.collector = .idle →
      (tableSystem d count mask self).Meets (fun st => st.owner i = kRingFree) (.release :: as) st) ∧
    (∀ s as st', st.owner i = d.owner s → Gone d st s → d.pidOf (d.home s) ≠ self → (∀ a ∈ as, a.spares d s) →
      (tableSystem d count mask self).run (.reclaim :: as) st = some st' → st'.collector = .idle →
      st'.owner i = retiredWord (d.owner s) ∨
        (tableSystem d count mask self).Meets (fun st => st.owner i = kRingFree) (.reclaim :: as) st) ∧
    (∀ as st', ringState (st.owner i) = kRingRetired → (tableSystem d count mask self).run as st = some st' →
      (st'.owner i = st.owner i ∧ st'.head i = st.head i ∧ st.cursor i ≤ st'.cursor i) ∨
        (tableSystem d count mask self).Meets (fun st => st.owner i = kRingFree) as st) := by
  have hinv := TableInv.reachable h
  refine ⟨fun as st' hret hdrained hrun hidle => ?_, fun s as st' hheld hgone hself hspare hrun hidle => ?_,
    fun as st' hret hrun => ?_⟩
  · rw [System.run, Option.bind_eq_some_iff] at hrun
    obtain ⟨st₁, hstart, hrun⟩ := hrun
    refine .inr ⟨st₁, hstart, ?_⟩
    have hnext : TableState.step d count mask self .release st = some st₁ := hstart
    have hfirst : st₁ = { st with collector := .load 0 } := by
      simp only [tableSystem, TableState.step] at hstart
      split at hstart
      · exact (Option.some.inj hstart).symm
      · cases hstart
    obtain ⟨-, -, -, hpass⟩ | hmeets := System.run_unless (C := fun _ => True) (I := fun st₁ =>
        TableInv d st₁ ∧ st₁.owner i = st.owner i ∧ st₁.cursor i = st₁.head i ∧
          ToRelease i (st.owner i) st₁.collector)
      (fun a s s' _ hI hs => (hI.1.releasing_step hi hI.2.1 hret hI.2.2.1 hI.2.2.2 hs).imp_left
        fun hI' => ⟨(hI.1.step a hs).1, hI'⟩)
      hrun (fun _ _ => trivial)
      ⟨(hinv.step _ hnext).1, by rw [hfirst], by rw [hfirst]; exact hdrained, by rw [hfirst]; exact Nat.zero_le i⟩
    · rw [hidle] at hpass
      exact hpass.elim
    · exact hmeets
  · rw [System.run, Option.bind_eq_some_iff] at hrun
    obtain ⟨st₁, hstart, hrun⟩ := hrun
    have hnext : TableState.step d count mask self .reclaim st = some st₁ := hstart
    have hfirst : st₁ = { st with collector := .scan 0 } := by
      simp only [tableSystem, TableState.step] at hstart
      split at hstart
      · exact (Option.some.inj hstart).symm
      · cases hstart
    obtain ⟨-, -, hhands, hpass⟩ | hmeets := System.run_unless (C := fun a => a.spares d s) (I := fun st₁ =>
        TableInv d st₁ ∧ Gone d st₁ s ∧ st₁.HeldBy d i s ∧
          (st₁.owner i = d.owner s → ToReclaim i (d.owner s) st₁.collector))
      (fun a s₁ s₂ ha hI hs => (hI.1.scanning_step hi hI.2.1 hself hI.2.2.1 hI.2.2.2 hs).imp_left
        fun hI' => ⟨(hI.1.step a hs).1, hI.2.1.step hI.1 ha hs, hI'⟩)
      hrun hspare
      ⟨(hinv.step _ hnext).1, hgone.step hinv (a := .reclaim) trivial hnext, by rw [hfirst]; exact .inl hheld,
        fun _ => by rw [hfirst]; exact Nat.zero_le i⟩
    · obtain hw | hw := hhands
      · have := hpass hw
        rw [hidle] at this
        exact this.elim
      · exact .inl hw
    · exact .inr (.inr ⟨st₁, hstart, hmeets⟩)
  · obtain ⟨-, hkept⟩ | hmeets := System.run_unless (C := fun _ => True) (I := fun st₁ =>
        TableInv d st₁ ∧ st₁.owner i = st.owner i ∧ st₁.head i = st.head i ∧ st.cursor i ≤ st₁.cursor i)
      (fun a s₁ s₂ _ hI hs => (hI.1.retired_step (by rw [hI.2.1]; exact hret) hs).imp_left fun hnext =>
        ⟨(hI.1.step a hs).1, hnext.1.trans hI.2.1, hnext.2.1.trans hI.2.2.1, hI.2.2.2.trans hnext.2.2⟩)
      hrun (fun _ _ => trivial) ⟨hinv, rfl, rfl, Nat.le_refl _⟩
    · exact .inl hkept
    · exact .inr hmeets

/-! ### A producer process dies -/

def producerDeployment : Deployment Bool Bool Bool Bool where
  moduleOf t := t
  creator s := s
  processOf m := m
  pidOf p := if p then 8 else 7
  id s := if s then 4 else 3
  tag s := if s then 6 else 5
  id_ne_zero := by decide
  id_inj := by decide
  tag_inj := by decide

/-- It binds, publishes once and dies; the collector is about to look for dead rings. -/
def producerRun : List (TableAction Bool Bool Bool Bool) :=
  [.spawn true, .start true, .start true, .work, .work, .stamp true, .go true, .go true, .go true, .go true, .die true]

def producerStart : TableState Bool Bool Bool Bool :=
  ⟨fun _ => 0, fun _ => kRingFree, fun _ => none, fun _ => none, fun _ => .unborn,
    fun _ => ⟨0, none, 0, 0, 0, .idle⟩, fun _ => false, fun _ => none, fun _ => 0, 0, .anchor 0⟩

theorem rings_come_back_producer :
    let M := tableSystem producerDeployment 1 15 7
    ∃ st st₁ st₂, M.run producerRun producerStart = some st ∧
      M.run (.reclaim :: List.replicate 4 .work) st = some st₁ ∧
      M.run [.read 0 16, .consume 1] st₁ = some st₂ ∧
      (st₁.owner 0 = retiredWord (producerDeployment.owner true) ∨
        M.Meets (fun st => st.owner 0 = kRingFree) (.reclaim :: List.replicate 4 .work) st) ∧
      M.Meets (fun st => st.owner 0 = kRingFree) (.release :: List.replicate 4 .work) st₂ := by
  intro M
  have hinit : M.Init producerStart :=
    ⟨fun _ => rfl, fun _ => rfl, fun _ => rfl, fun _ => rfl, fun _ => rfl, fun _ => rfl, fun _ => rfl,
      fun _ => Nat.le_refl _, rfl⟩
  let st := (M.run producerRun producerStart).get (by decide +kernel)
  let st₁ := (M.run (.reclaim :: List.replicate 4 .work) st).get (by decide +kernel)
  let st₂ := (M.run [.read 0 16, .consume 1] st₁).get (by decide +kernel)
  have hrun : M.run producerRun producerStart = some st := (Option.some_get _).symm
  have hreclaim : M.run (.reclaim :: List.replicate 4 .work) st = some st₁ := (Option.some_get _).symm
  have hread : M.run [.read 0 16, .consume 1] st₁ = some st₂ := (Option.some_get _).symm
  let st₃ := (M.run (.release :: List.replicate 4 .work) st₂).get (by decide +kernel)
  have hrelease : M.run (.release :: List.replicate 4 .work) st₂ = some st₃ := (Option.some_get _).symm
  have hreach := (System.Reachable.init hinit).run hrun
  refine ⟨st, st₁, st₂, hrun, hreclaim, hread, ?_, ?_⟩
  · exact (rings_come_back hreach (by decide)).2.1 true _ _ rfl ⟨rfl, rfl⟩ (by decide) (fun a ha => by
      rw [List.mem_replicate] at ha
      rw [ha.2]
      trivial) hreclaim (by decide +kernel)
  · exact (rings_come_back ((hreach.run hreclaim).run hread) (by decide)).1 _ _ (by decide +kernel)
      (by decide +kernel) hrelease (by decide +kernel)

end SlickPerfmon
