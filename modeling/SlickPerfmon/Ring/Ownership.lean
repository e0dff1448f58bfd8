import SlickPerfmon.Ring.Lemmas.TableInv

/-!
# A ring has one owner

Over every interleaving: no two live threads are bound to one ring through sessions still running, a bound
thread's `next` is the ring's head, a ring is freed only once retired and drained, and a session that retires
rings leaves the rings of other sessions alone.
-/

namespace SlickPerfmon

open Library

variable {Thread Session Module Process : Type} {d : Deployment Thread Session Module Process}
  {st st' : TableState Thread Session Module Process} {count mask : Nat} {self : UInt32}

/-! ## What one step does -/

/-- The step belongs to an exit of one of the threads of `s`, or to its shutdown. -/
def TableState.Retires (st : TableState Thread Session Module Process)
    (a : TableAction Thread Session Module Process) (s : Session) : Prop :=
  match a with
  | .shutdown s' => s' = s
  | .go t => (st.threads t).pc = .retire s
  | _ => False

/-- What a step does to heads and claim words: a head only grows, and stays while the ring is not active; a ring
becomes free from the retired state, drained; an exit or a shutdown leaves the rings of other sessions alone. -/
structure TableStep (d : Deployment Thread Session Module Process) (a : TableAction Thread Session Module Process)
    (st st' : TableState Thread Session Module Process) : Prop where
  head : ∀ r, st.head r ≤ st'.head r
  final : ∀ r, ringState (st.owner r) ≠ kRingActive → st'.head r = st.head r
  freed : ∀ r, st.owner r ≠ kRingFree → st'.owner r = kRingFree →
    ringState (st.owner r) = kRingRetired ∧ st.cursor r = st.head r
  others : ∀ s, st.Retires a s → ∀ r s', s' ≠ s → st.HeldBy d r s' → st'.owner r = st.owner r

theorem TableStep.of_eq {a : TableAction Thread Session Module Process} (hhead : st'.head = st.head)
    (howner : st'.owner = st.owner) : TableStep d a st st' where
  head _ := Nat.le_of_eq (congrFun hhead _).symm
  final _ _ := congrFun hhead _
  freed r hne hz := absurd ((congrFun howner r).symm.trans hz) hne
  others _ _ r _ _ _ := congrFun howner r

/-- A step that only retires ring `i` for session `s`. -/
theorem TableStep.of_retire {a : TableAction Thread Session Module Process} {i : Nat} {s : Session}
    (hhead : st'.head = st.head) (howner : st'.owner = (st.retire i (d.owner s)).owner)
    (ha : ∀ s', st.Retires a s' → s' = s) : TableStep d a st st' := by
  have hword : ∀ r, st'.owner r = st.owner r ∨
      r = i ∧ st.owner i = d.owner s ∧ st'.owner r = retiredWord (d.owner s) := by
    intro r
    rw [howner]
    unfold TableState.retire
    split
    · rename_i hi
      by_cases hr : r = i
      · subst hr; exact .inr ⟨rfl, hi, Function.update_self ..⟩
      · exact .inl (Function.update_of_ne hr _ _)
    · exact .inl rfl
  refine ⟨fun _ => Nat.le_of_eq (congrFun hhead _).symm, fun _ _ => congrFun hhead _, fun r hne hz => ?_,
    fun s₁ h₁ r s' hs' hheld => ?_⟩
  · obtain hr | ⟨-, -, hr⟩ := hword r
    · exact absurd (hr.symm.trans hz) hne
    · have := congrArg ringState (hr.symm.trans hz)
      rw [d.ringState_retired] at this
      exact absurd this (by decide)
  · obtain hr | ⟨rfl, hi, -⟩ := hword r
    · exact hr
    · rw [ha s₁ h₁] at hs'
      obtain hheld | hheld := hheld
      · exact absurd (d.owner_inj (hheld.symm.trans hi)) hs'
      · exact absurd (hi.symm.trans hheld) (d.owner_ne_retired s s')

theorem TableState.retire_head {i : Nat} {w : UInt64} : (st.retire i w).head = st.head := by
  unfold TableState.retire
  split <;> rfl

theorem TableState.retire_setThread [DecidableEq Thread] {i : Nat} {w : UInt64} {t : Thread}
    {x : ThreadState Session} : (st.retire i w).setThread t x = (st.setThread t x).retire i w := by
  unfold TableState.retire TableState.setThread
  split <;> rfl

theorem TableState.retire_setPhase {phase : Session → Phase} {i : Nat} {w : UInt64} :
    ({ st with phase := phase } : TableState Thread Session Module Process).retire i w =
      { st.retire i w with phase := phase } := by
  unfold TableState.retire
  simp only
  split <;> rfl

theorem readFirst_add_le {c h h' k maxN : Nat} (hc : c ≤ h)
    (hk : k ≤ readStop h (readStart h mask c) maxN -
      readFirst (firstIntact h' mask) (readStart h mask c) (readStop h (readStart h mask c) maxN)) :
    readFirst (firstIntact h' mask) (readStart h mask c) (readStop h (readStart h mask c) maxN) + k ≤ h := by
  have hstart : readStart h mask c ≤ h := by
    unfold readStart firstIntact
    split_ifs <;> omega
  have hstop : readStart h mask c ≤ readStop h (readStart h mask c) maxN ∧
      readStop h (readStart h mask c) maxN ≤ h := by
    unfold readStop
    split_ifs <;> omega
  have hfirst : readFirst (firstIntact h' mask) (readStart h mask c) (readStop h (readStart h mask c) maxN) ≤
      readStop h (readStart h mask c) maxN := by
    unfold readFirst
    split_ifs <;> omega
  omega

/-- What a bound thread goes on with, it may. -/
theorem ThreadState.PcHolds.bound {s : Session} {stamps : Bool} {x : ThreadState Session}
    (hx : x.sessionId = d.id s) (hpc : x.pc = TableState.boundPc s stamps) : x.PcHolds d := by
  unfold ThreadState.PcHolds
  rw [hpc]
  cases stamps with
  | true => exact hx
  | false => trivial

/-- A pointer set by `attach()` names a session of the module's process, as the others do. -/
theorem TableState.MayAttach.hot [DecidableEq Module] {m : Module} {p : Option Session} (hp : st.MayAttach d m p)
    {hot : Module → Option Session}
    (hhot : ∀ m s, hot m = some s → st.phase s ≠ .unborn ∧ d.home s = d.processOf m) :
    ∀ m' s, Function.update hot m p m' = some s → st.phase s ≠ .unborn ∧ d.home s = d.processOf m' := by
  intro m' s hs
  by_cases he : m' = m
  · subst he
    rw [Function.update_self] at hs
    subst hs
    exact hp.2
  · rw [Function.update_of_ne he] at hs
    exact hhot m' s hs

section

variable (h : TableInv d st)
include h

theorem TableInv.spawn [DecidableEq Process] {p : Process} (hs : st.spawn d p = some st') :
    TableInv d st' ∧ TableStep d (.spawn p) st st' := by
  unfold TableState.spawn at hs
  split at hs
  · rename_i hp
    cases hs
    refine ⟨h.setProcesses (fun q hq => ?_) (fun q hq => ?_) (fun q hb hq => ?_), .of_eq rfl rfl⟩
    · by_cases he : q = p
      · rw [he, Function.update_self]
      · rw [Function.update_of_ne he]
        refine h.born q ?_
        by_cases hpid : d.pidOf q = d.pidOf p
        · rw [hpid, Function.update_self] at hq
          exact absurd (Option.some.inj hq).symm he
        · rwa [Function.update_of_ne hpid] at hq
    · by_cases he : q = p
      · rw [he, Function.update_self]
      · rw [Function.update_of_ne he]; exact hq
    · by_cases hpid : d.pidOf q = d.pidOf p
      · rw [hpid, Function.update_self] at hq
        rw [← Option.some.inj hq, hp.1] at hb
        cases hb
      · rwa [Function.update_of_ne hpid] at hq
  · cases hs

theorem TableInv.die [DecidableEq Process] {p : Process} (hs : st.die d p = some st') :
    TableInv d st' ∧ TableStep d (.die p) st st' := by
  unfold TableState.die at hs
  split at hs
  · cases hs
    have hback : ∀ q, Function.update st.occupant (d.pidOf p) none (d.pidOf q) = some q → st.Alive d q := by
      intro q hq
      by_cases hpid : d.pidOf q = d.pidOf p
      · rw [hpid, Function.update_self] at hq; cases hq
      · rwa [Function.update_of_ne hpid] at hq
    exact ⟨h.setProcesses (fun q hq => h.born q (hback q hq)) (fun _ hb => hb) (fun q _ hq => hback q hq),
      .of_eq rfl rfl⟩
  · cases hs

variable [DecidableEq Session] [DecidableEq Process]

theorem TableInv.start [DecidableEq Module] {s : Session} (hs : st.start d s = some st') :
    TableInv d st' ∧ TableStep d (.start s) st st' := by
  unfold TableState.start at hs
  split at hs
  · rename_i hal
    have hhot : ∀ (hot : Module → Option Session) m s',
        Function.update hot (d.creator s) (some s) m = some s' →
        hot m = some s' ∨ s' = s ∧ d.home s = d.processOf m := by
      intro hot m s' hm
      by_cases he : m = d.creator s
      · rw [he, Function.update_self] at hm
        exact .inr ⟨(Option.some.inj hm).symm, by rw [he]; rfl⟩
      · rw [Function.update_of_ne he] at hm
        exact .inl hm
    split at hs
    · rename_i hp
      cases hs
      exact ⟨h.setPhase (nofun) (.inr hal) (fun _ _ => .inl hp) (hhot st.live) (fun _ _ hm => .inl hm),
        .of_eq rfl rfl⟩
    · rename_i hp
      cases hs
      exact ⟨h.setPhase (nofun) (.inr hal) (fun _ _ => .inr (.of_phase hp rfl)) (fun _ _ hm => .inl hm)
        (hhot st.current), .of_eq rfl rfl⟩
    · cases hs
  · cases hs

theorem TableInv.shutdown [DecidableEq Module] {s : Session} (hs : st.shutdown d count s = some st') :
    TableInv d st' ∧ TableStep d (.shutdown s) st st' := by
  unfold TableState.shutdown at hs
  split at hs
  · rename_i hal
    have hhot : ∀ (hot : Module → Option Session) m s',
        Function.update hot (d.creator s) none m = some s' →
        hot m = some s' ∨ s' = s ∧ d.home s = d.processOf m := by
      intro hot m s' hm
      by_cases he : m = d.creator s
      · rw [he, Function.update_self] at hm; cases hm
      · rw [Function.update_of_ne he] at hm
        exact .inl hm
    split at hs
    · rename_i hp
      cases hs
      exact ⟨h.setPhase (by simp) (.inr hal) (fun _ _ => .inr (.of_phase hp rfl)) (hhot st.live)
        (fun _ _ hm => .inl hm), .of_eq rfl rfl⟩
    · rename_i hp
      cases hs
      exact ⟨h.setPhase (by simp) (.inr hal) (fun _ _ => .inr (.of_phase hp rfl)) (fun _ _ hm => .inl hm)
        (hhot st.current), .of_eq rfl rfl⟩
    · rename_i i hp
      split at hs
      · cases hs
        -- the ring is out of service before its word changes
        set st₁ : TableState Thread Session Module Process :=
          { st with phase := Function.update st.phase s (.retiring (i + 1)) } with hst₁
        have hphase : st₁.phase s = .retiring (i + 1) := Function.update_self ..
        have hnext : TableInv d st₁ :=
          h.setPhase (by simp) (.inr hal)
            (fun r hr => .inr (.of_phase hp (Phase.serves_retiring.mpr (Nat.le_of_succ_le (Phase.serves_retiring.mp hr)))))
            (fun _ _ hm => .inl hm) (fun _ _ hm => .inl hm)
        have hretired := hnext.retire (s := s) i (by rw [hphase]; simp) fun hserves => by
          rw [TableState.Serves, hphase, Phase.serves_retiring] at hserves
          omega
        rw [hst₁, TableState.retire_setPhase] at hretired
        exact ⟨hretired, .of_retire TableState.retire_head rfl fun s' hs' => hs'.symm⟩
      · cases hs
        exact ⟨h.setPhase (by simp) (.inr hal) (fun _ hr => absurd hr Bool.false_ne_true) (fun _ _ hm => .inl hm)
          (fun _ _ hm => .inl hm), .of_eq rfl rfl⟩
    · cases hs
  · cases hs

variable [DecidableEq Thread]

theorem TableInv.enter {a : TableAction Thread Session Module Process} {hot : Module → Option Session}
    (hhot : ∀ m s, hot m = some s → st.phase s ≠ .unborn ∧ d.home s = d.processOf m) {stamps : Bool} {t : Thread}
    (hs : st.enter d hot stamps t = some st') : TableInv d st' ∧ TableStep d a st st' := by
  unfold TableState.enter at hs
  simp only at hs
  split at hs
  · rename_i hguard
    split at hs
    · rename_i s hms
      cases hs
      have hpc : (st.threads t).pc ≠ .exited := by rw [hguard.2]; exact nofun
      refine ⟨?_, .of_eq rfl rfl⟩
      unfold TableState.boundWriter
      split
      · refine h.setThread (fun hx => absurd hx hpc) (fun s' hk => ?_) ⟨rfl, rfl⟩ (fun _ s' r hc => ?_)
          (fun _ s' r _ _ hb => absurd hb.2 nofun)
        · obtain hk | hk := hk
          · rw [← d.id_inj s s' hk]
            exact hhot _ _ hms
          · exact h.known t s' (.inr hk)
        · obtain hc | ⟨-, hc⟩ := hc
          · exact .inl hc
          · cases hc
      · rename_i hid
        exact h.setThread (fun hx => absurd hx hpc) (h.known t) (.bound (not_not.mp hid) rfl)
          (fun _ _ _ hc => hc) (fun _ s' r ht hr hb => h.next t s' r ht hr hb)
    · cases hs
      exact ⟨h, .of_eq rfl rfl⟩
  · cases hs

theorem TableInv.exit {t : Thread} (hs : st.exit d t = some st') :
    TableInv d st' ∧ TableStep d (.exit t) st st' := by
  unfold TableState.exit at hs
  simp only at hs
  split at hs
  · rename_i hguard
    have hpc : (st.threads t).pc ≠ .exited := by rw [hguard.2]; exact nofun
    split at hs
    · rename_i s hms
      cases hs
      refine ⟨h.setThread (fun hx => absurd hx hpc) (h.known t) ?_ (fun _ _ _ hc => hc)
        (fun _ s' r ht hr hb => h.next t s' r ht hr hb), .of_eq rfl rfl⟩
      unfold ThreadState.PcHolds
      split_ifs with hid
      · exact hid.2.symm
      · trivial
    · cases hs
      exact ⟨h.setThread (fun hx => absurd hx hpc) (h.known t) trivial (fun _ _ _ hc => hc)
        (fun _ s' r ht hr hb => h.next t s' r ht hr hb), .of_eq rfl rfl⟩
  · cases hs

omit [DecidableEq Session] in
theorem TableInv.go {t : Thread} (hs : st.go d count t = some st') : TableInv d st' ∧ TableStep d (.go t) st st' := by
  unfold TableState.go at hs
  split at hs
  swap
  · cases hs
  rename_i hal
  have hat := h.pc t
  unfold TableState.goPc at hs
  unfold ThreadState.PcHolds at hat
  have hsame : ∀ pc, (st.threads t).pc ≠ .exited → ({ st.threads t with pc := pc } : ThreadState Session).PcHolds d →
      TableInv d (st.setThread t { st.threads t with pc := pc }) := fun pc hx hp =>
    h.setThread (fun he => absurd he hx) (h.known t) hp (fun _ _ _ hc => hc)
      fun _ s' r ht hr hb => h.next t s' r ht hr hb
  cases hpc : (st.threads t).pc with
  | idle => rw [hpc] at hs; cases hs
  | exited => rw [hpc] at hs; cases hs
  | load s i stamps =>
      rw [hpc] at hs
      simp only [hpc] at hat hs
      split at hs
      · cases hs
        refine ⟨hsame _ (by rw [hpc]; exact nofun) ?_, .of_eq rfl rfl⟩
        unfold ThreadState.PcHolds
        split_ifs <;> exact hat
      · cases hs
        exact ⟨hsame _ (by rw [hpc]; exact nofun) (.bound hat.1 rfl), .of_eq rfl rfl⟩
  | claim s i stamps =>
      rw [hpc] at hs
      simp only [hpc] at hat hs
      split at hs
      · rename_i hfree
        cases hs
        refine ⟨h.claim hpc hfree, fun _ => Nat.le_refl _, fun _ _ => rfl, fun r hne hz => ?_, fun s' hs' => ?_⟩
        · by_cases hr : r = i
          · rw [hr] at hne; exact absurd hfree hne
          · exact absurd ((Function.update_of_ne hr _ _).symm.trans hz) hne
        · rw [TableState.Retires, hpc] at hs'
          cases hs'
      · cases hs
        exact ⟨hsame _ (by rw [hpc]; exact nofun) hat, .of_eq rfl rfl⟩
  | attach s i stamps =>
      rw [hpc] at hs
      simp only [hpc] at hat hs
      cases hs
      refine ⟨h.setThread (fun he => absurd he (by rw [hpc]; exact nofun)) (h.known t)
        (.bound hat.1 rfl) (fun _ s' r hc => ?_) (fun _ s' r _ _ hb => ?_), .of_eq rfl rfl⟩
      · obtain hc | ⟨hs', hr⟩ := hc
        · exact .inl hc
        · exact .inl ⟨by rw [← d.id_inj s s' (hat.1.symm.trans hs')]; exact hat.2.1,
            hat.2.2.trans (Option.some.inj hr)⟩
      · rw [← Option.some.inj hb.2]
  | publish s =>
      rw [hpc] at hs
      simp only [hpc] at hat hs
      split at hs
      · rename_i r hring
        split at hs
        · rename_i hrun
          cases hs
          have hlive : st.LiveThread d t := ⟨hal, by rw [hpc]; exact nofun⟩
          obtain ⟨hword, hup, hinv⟩ := h.publish hlive hpc hring hrun
          refine ⟨hinv, fun j => ?_, fun j hj => ?_, fun _ hne hz => absurd hz hne, fun _ _ _ _ _ _ => rfl⟩
          · show st.head j ≤ Function.update st.head r ((st.threads t).next + 1) j
            by_cases hj : j = r
            · rw [hj, Function.update_self]; exact hup
            · rw [Function.update_of_ne hj]
          · refine Function.update_of_ne ?_ _ _
            rintro rfl
            rw [hword, d.ringState_owner] at hj
            exact hj rfl
        · cases hs
      · cases hs
        exact ⟨hsame _ (by rw [hpc]; exact nofun) trivial, .of_eq rfl rfl⟩
  | retire s =>
      rw [hpc] at hs
      simp only [hpc] at hat hs
      cases hs
      have hx : (st.threads t).pc ≠ .exited := by rw [hpc]; exact nofun
      have hgone := hsame .exited hx trivial
      refine ⟨?_, .of_retire TableState.retire_head rfl fun s' hs' => ?_⟩
      · rw [TableState.retire_setThread]
        refine hgone.retire _ (h.known t s (.inr hat)).1 fun hrun t' ht' hc => ?_
        -- the exiting thread was the only one that claimed the ring
        by_cases he : t' = t
        · rw [he] at ht'
          exact ht'.2 (by simp only [TableState.setThread, Function.update_self])
        · have hother : (st.setThread t { st.threads t with pc := .exited }).threads t' = st.threads t' :=
            Function.update_of_ne he _ _
          rw [hother] at hc
          exact he (h.sole t' t s _ ⟨ht'.1, by rw [← hother]; exact ht'.2⟩ ⟨hal, hx⟩ hrun hc (.inl ⟨hat, rfl⟩))
      · rw [TableState.Retires, hpc] at hs'
        cases hs'
        rfl

omit [DecidableEq Session] [DecidableEq Thread] [DecidableEq Process] in
theorem TableInv.readHead {r maxN : Nat} (hs : st.readHead r maxN = some st') :
    TableInv d st' ∧ TableStep d (.read r maxN) st st' := by
  unfold TableState.readHead at hs
  split at hs
  · split at hs
    · cases hs
      exact ⟨h, .of_eq rfl rfl⟩
    · cases hs
      exact ⟨h.setCollector h.cursor ⟨h.cursor r, Nat.le_refl _⟩, .of_eq rfl rfl⟩
  · cases hs

omit [DecidableEq Session] [DecidableEq Thread] [DecidableEq Process] in
theorem TableInv.consume {k : Nat} (hs : st.consume mask k = some st') :
    TableInv d st' ∧ TableStep d (.consume k) st st' := by
  unfold TableState.consume at hs
  split at hs
  · rename_i r hd maxN hpc
    have hcol := h.collector
    unfold TableState.CollectorHolds at hcol
    simp only [hpc] at hcol hs
    split at hs
    · rename_i hk
      cases hs
      refine ⟨h.setCollector (fun i => ?_) trivial, .of_eq rfl rfl⟩
      by_cases hi : i = r
      · have hle := readFirst_add_le hcol.1 hk
        rw [hi, Function.update_self]
        exact hle.trans hcol.2
      · rw [Function.update_of_ne hi]
        exact h.cursor i
    · cases hs
  · cases hs

omit [DecidableEq Session] [DecidableEq Thread] [DecidableEq Process] in
theorem TableInv.work (hs : st.work count self = some st') : TableInv d st' ∧ TableStep d .work st st' := by
  have hcol := h.collector
  unfold TableState.CollectorHolds at hcol
  unfold TableState.work at hs
  cases hpc : st.collector with
  | idle => rw [hpc] at hs; cases hs
  | read r hd maxN => rw [hpc] at hs; cases hs
  | anchor i =>
      simp only [hpc] at hs
      split at hs
      · cases hs
        refine ⟨h.setCollector (fun j => ?_) trivial, .of_eq rfl rfl⟩
        by_cases hj : j = i
        · rw [hj, Function.update_self]
        · rw [Function.update_of_ne hj]; exact h.cursor j
      · cases hs
        exact ⟨h.setCollector h.cursor trivial, .of_eq rfl rfl⟩
  | load i =>
      simp only [hpc] at hs
      split at hs
      · cases hs
        refine ⟨h.setCollector h.cursor ?_, .of_eq rfl rfl⟩
        unfold TableState.CollectorHolds
        split_ifs with hret
        · exact ⟨rfl, hret⟩
        · trivial
      · cases hs
        exact ⟨h.setCollector h.cursor trivial, .of_eq rfl rfl⟩
  | drained i seen =>
      simp only [hpc] at hcol hs
      cases hs
      refine ⟨h.setCollector h.cursor ?_, .of_eq rfl rfl⟩
      unfold TableState.CollectorHolds
      split_ifs with hge
      · exact ⟨hcol.1, hcol.2, Nat.le_antisymm (h.cursor i) hge⟩
      · trivial
  | free i seen =>
      simp only [hpc] at hcol hs
      obtain ⟨hword, hret, hdrained⟩ := hcol
      rw [if_pos hword] at hs
      cases hs
      refine ⟨h.release (by rw [hword]; exact hret), fun _ => Nat.le_refl _, fun _ _ => rfl, fun r hne hz => ?_,
        fun _ hs' => hs'.elim⟩
      by_cases hr : r = i
      · rw [hr, hword]; exact ⟨hret, hdrained⟩
      · exact absurd ((Function.update_of_ne hr _ _).symm.trans hz) hne
  | scan i =>
      simp only [hpc] at hs
      split at hs
      · cases hs
        refine ⟨h.setCollector h.cursor ?_, .of_eq rfl rfl⟩
        unfold TableState.CollectorHolds
        split_ifs with hact
        · obtain hw | ⟨s, hs, hw | hw⟩ := h.words i
          · rw [hw] at hact
            exact absurd hact.1 (by decide)
          · exact ⟨s, hs, hw⟩
          · rw [hw, d.ringState_retired] at hact
            exact absurd hact.1 (by decide)
        · trivial
      · cases hs
        exact ⟨h.setCollector h.cursor trivial, .of_eq rfl rfl⟩
  | alive i w =>
      simp only [hpc] at hcol hs
      obtain ⟨s, hstart, rfl⟩ := hcol
      cases hs
      refine ⟨h.setCollector h.cursor ?_, .of_eq rfl rfl⟩
      unfold TableState.CollectorHolds
      split_ifs with hdead
      · refine ⟨s, hstart, rfl, fun hal => ?_⟩
        rw [d.ringPid_owner] at hdead
        exact absurd (hdead.symm.trans hal) nofun
      · trivial
  | retire i w =>
      simp only [hpc] at hcol hs
      obtain ⟨s, hstart, rfl, hdead⟩ := hcol
      cases hs
      -- a dead process has no live thread
      have hr := h.retire i hstart fun hrun t ht hc => by
        have hhome := (h.known t s hc.known).2
        exact hdead (by rw [hhome]; exact ht.1)
      exact ⟨hr.setCollector hr.cursor trivial, .of_retire TableState.retire_head rfl fun _ hs' => hs'.elim⟩

end

variable [DecidableEq Thread] [DecidableEq Session] [DecidableEq Module] [DecidableEq Process]

theorem TableInv.step (h : TableInv d st) (a : TableAction Thread Session Module Process)
    (hs : TableState.step d count mask self a st = some st') : TableInv d st' ∧ TableStep d a st st' := by
  cases a with
  | spawn p => exact h.spawn hs
  | die p => exact h.die hs
  | start s => exact h.start hs
  | shutdown s => exact h.shutdown hs
  | attachLive m p =>
      simp only [TableState.step, TableState.attachLive] at hs
      split at hs
      · rename_i hp
        cases hs
        exact ⟨h.setHot (hp.hot h.live) h.current, .of_eq rfl rfl⟩
      · cases hs
  | attachCurrent m p =>
      simp only [TableState.step, TableState.attachCurrent] at hs
      split at hs
      · rename_i hp
        cases hs
        exact ⟨h.setHot h.live (hp.hot h.current), .of_eq rfl rfl⟩
      · cases hs
  | stamp t => exact h.enter h.current hs
  | prepare t => exact h.enter h.live hs
  | exit t => exact h.exit hs
  | go t => exact h.go hs
  | read r maxN => exact h.readHead hs
  | consume k => exact h.consume hs
  | release =>
      simp only [TableState.step] at hs
      split at hs
      · cases hs
        exact ⟨h.setCollector h.cursor trivial, .of_eq rfl rfl⟩
      · cases hs
  | reclaim =>
      simp only [TableState.step] at hs
      split at hs
      · cases hs
        exact ⟨h.setCollector h.cursor trivial, .of_eq rfl rfl⟩
      · cases hs
  | work => exact h.work hs

theorem TableInv.reachable (h : (tableSystem d count mask self).Reachable st) : TableInv d st :=
  System.Reachable.invariant (fun _ => .init) (fun a _ _ hi hs => (hi.step a hs).1) h

/-- **Ring ownership.** In every reachable state a ring is bound by at most one live thread whose session has not
come to retire it, and that thread's `next` is the ring's head; and every step from there keeps heads from
decreasing, frees a ring only once it is retired and its final head read, and leaves the claim words of other
sessions alone when a session exits or shuts down. -/
theorem ring_ownership (h : (tableSystem d count mask self).Reachable st) :
    (∀ t t' s s' r, st.LiveThread d t → st.LiveThread d t' → st.Serves s r → st.Serves s' r →
      (st.threads t).Bound d s r → (st.threads t').Bound d s' r → t = t') ∧
    (∀ t s r, st.LiveThread d t → st.Serves s r → (st.threads t).Bound d s r →
      (st.threads t).next = st.head r) ∧
    (∀ a st', (tableSystem d count mask self).step a st = some st' → TableStep d a st st') := by
  have hinv := TableInv.reachable h
  refine ⟨fun t t' s s' r ht ht' hr hr' hb hb' => ?_, hinv.next, fun a st' hs => (hinv.step a hs).2⟩
  have hw := hinv.holds t s r ht hr (.inr hb)
  have hw' := hinv.holds t' s' r ht' hr' (.inr hb')
  have he : s' = s := d.owner_inj (hw'.symm.trans hw)
  rw [he] at hb'
  exact hinv.sole t t' s r ht ht' hr (.inr hb) (.inr hb')

/-! ### Two modules of one process hand a ring over -/

def handoverDeployment : Deployment Bool Bool Bool Unit where
  moduleOf t := t
  creator s := s
  processOf _ := ()
  pidOf _ := 7
  id s := if s then 2 else 1
  tag s := if s then 2 else 1
  id_ne_zero := by decide
  id_inj := by decide
  tag_inj := by decide

/-- The first thread stamps and exits, the collector reads and frees its ring, the second thread takes it. -/
def handoverRun : List (TableAction Bool Bool Bool Unit) :=
  [.spawn (), .start false, .start false, .work, .work] ++
  [.stamp false, .go false, .go false, .go false, .go false, .exit false, .go false] ++
  [.read 0 16, .consume 1, .release, .work, .work, .work] ++
  [.start true, .start true, .stamp true, .go true, .go true, .go true]

theorem ring_ownership_handover :
    ∃ st : TableState Bool Bool Bool Unit, (st.threads true).Bound handoverDeployment true 0 ∧ st.head 0 = 1 ∧
      (st.threads true).next = st.head 0 ∧
      ∀ t s, st.LiveThread handoverDeployment t → st.Serves s 0 →
        (st.threads t).Bound handoverDeployment s 0 → t = true := by
  let M := tableSystem handoverDeployment 1 15 7
  let st₀ : TableState Bool Bool Bool Unit :=
    ⟨fun _ => 0, fun _ => kRingFree, fun _ => none, fun _ => none, fun _ => .unborn,
      fun _ => ⟨0, none, 0, 0, 0, .idle⟩, fun _ => false, fun _ => none, fun _ => 0, 0, .anchor 0⟩
  have hinit : M.Init st₀ :=
    ⟨fun _ => rfl, fun _ => rfl, fun _ => rfl, fun _ => rfl, fun _ => rfl, fun _ => rfl, fun _ => rfl,
      fun _ => Nat.le_refl _, rfl⟩
  have hrun : (M.run handoverRun st₀).isSome := by decide
  obtain ⟨st, hst⟩ := Option.isSome_iff_exists.mp hrun
  have hend : (M.run handoverRun st₀).map (fun st =>
      (st.threads true, st.head 0, st.phase true, st.occupant 7)) =
      some (⟨2, some 0, 1, 2, 0, .publish true⟩, 1, .running, some ()) := by decide
  rw [hst] at hend
  simp only [Option.map_some, Option.some.injEq, Prod.mk.injEq] at hend
  obtain ⟨hthread, hhead, hphase, halive⟩ := hend
  have hlive : st.LiveThread handoverDeployment true := ⟨halive, by rw [hthread]; exact nofun⟩
  have hbound : (st.threads true).Bound handoverDeployment true 0 := by rw [hthread]; exact ⟨rfl, rfl⟩
  have hserves : st.Serves true 0 := .of_phase hphase rfl
  obtain ⟨hsole, hnext, -⟩ := ring_ownership ((System.Reachable.init hinit).run hst)
  exact ⟨st, hbound, hhead, hnext true true 0 hlive hserves hbound, fun t s ht hr hb =>
    hsole t true s true 0 ht hlive hr hserves hb hbound⟩

end SlickPerfmon
