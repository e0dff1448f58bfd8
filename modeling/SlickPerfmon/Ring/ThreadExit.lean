import SlickPerfmon.Ring.Ownership

/-!
# Threads that stamp after their exit hook

The order in which a thread destroys its thread_locals is the program's, so some of them may stamp after
`~thread_exit_hook` has run. `thread_state` has no destructor: it still names the ring that the hook has retired.
-/

namespace SlickPerfmon

open Library

variable {Thread Session Module Process : Type}

/-- The table with threads that go on after their exit hook, which runs once. `spent` only records that the ring named
by the hook has been retired by it. -/
structure ExitState (Thread Session Module Process : Type) where
  table : TableState Thread Session Module Process
  hookRan : Thread → Bool
  spent : Thread → Bool

namespace ExitState

section Steps

variable [DecidableEq Thread] [DecidableEq Session] [DecidableEq Module] [DecidableEq Process]
  (d : Deployment Thread Session Module Process) (count mask : Nat) (self : UInt32)
  (e : ExitState Thread Session Module Process)

/-- The load of the exit hook. -/
def exitHook (t : Thread) : Option (ExitState Thread Session Module Process) :=
  let x := e.table.threads t
  if e.table.Alive d (d.threadHome t) ∧ x.pc = .idle ∧ e.hookRan t = false then
    let ran := { e with hookRan := Function.update e.hookRan t true }
    match e.table.live (d.moduleOf t) with
    | some s =>
        if x.hookSession ≠ 0 ∧ d.id s = x.hookSession then
          some { e with table := e.table.setThread t { x with pc := .retire s } }
        else some ran
    | none => some ran
  else none

/-- The next access of a thread. A head is stored whatever has become of its ring or session, and after the retire of
its hook the thread goes on. -/
def go (t : Thread) : Option (ExitState Thread Session Module Process) :=
  let x := e.table.threads t
  if e.table.Alive d (d.threadHome t) then
    match x.pc with
    | .publish _ =>
        match x.ring with
        | some r =>
            some
              { e with
                table :=
                  { e.table with head := Function.update e.table.head r (x.next + 1) }.setThread t
                    { x with next := x.next + 1, pc := .idle } }
        | none => (e.table.goPc d count t x).map fun st => { e with table := st }
    | .retire s =>
        some
          { e with
            table := (e.table.retire x.hookRing (d.owner s)).setThread t { x with pc := .idle }
            hookRan := Function.update e.hookRan t true
            spent := Function.update e.spent t true }
    | .claim _ i _ =>
        (e.table.goPc d count t x).map fun st =>
          { e with
            table := st
            spent := if e.table.owner i = kRingFree then Function.update e.spent t false else e.spent }
    | _ => (e.table.goPc d count t x).map fun st => { e with table := st }
  else none

def step : TableAction Thread Session Module Process → ExitState Thread Session Module Process →
    Option (ExitState Thread Session Module Process)
  | .exit t, e => e.exitHook d t
  | .go t, e => e.go d count t
  | a, e => (TableState.step d count mask self a e.table).map fun st => { e with table := st }

/-- A thread whose hook has retired its ring does not stamp into the session of that ring, and none publishes into a
ring that the `shutdown()` of its session has come to retire. -/
def punctual : TableAction Thread Session Module Process → ExitState Thread Session Module Process → Bool
  | .stamp t, e =>
      match e.table.current (d.moduleOf t) with
      | some s => !(e.spent t && (e.table.threads t).ring.isSome && (e.table.threads t).sessionId == d.id s)
      | none => true
  | .go t, e =>
      match (e.table.threads t).pc with
      | .publish s => (e.table.threads t).ring.all fun r => decide (e.table.Serves s r)
      | _ => true
  | _, _ => true

end Steps

end ExitState

/-- Every interleaving, with every order of the thread_local destructors. -/
def exitSystem [DecidableEq Thread] [DecidableEq Session] [DecidableEq Module] [DecidableEq Process]
    (d : Deployment Thread Session Module Process) (count mask : Nat) (self : UInt32) :
    System (ExitState Thread Session Module Process) (TableAction Thread Session Module Process) where
  Init e := TableInit e.table ∧ (∀ t, e.hookRan t = false) ∧ ∀ t, e.spent t = false
  step := ExitState.step d count mask self

/-- The head of a retired ring is final, and a ring has one publisher. -/
structure RetiredFinal (M : System (ExitState Thread Session Module Process) (TableAction Thread Session Module Process))
    (e : ExitState Thread Session Module Process) : Prop where
  /-- A thread stores no head of a ring that its hook has retired. -/
  silent : ∀ t s r e', M.step (.go t) e = some e' → (e.table.threads t).pc = .publish s →
    (e.table.threads t).ring = some r → e.spent t = false
  /-- A head stays as it is until the ring is claimed. -/
  final : ∀ a e' r, M.step a e = some e' → ringState (e.table.owner r) ≠ kRingActive →
    e'.table.head r = e.table.head r
  /-- Two threads do not store one head, and the one that does goes on from where it stands. -/
  sole : ∀ t t' s s' r e₁ e₂, M.step (.go t) e = some e₁ → M.step (.go t') e = some e₂ →
    (e.table.threads t).pc = .publish s → (e.table.threads t').pc = .publish s' →
    (e.table.threads t).ring = some r → (e.table.threads t').ring = some r →
      t = t' ∧ (e.table.threads t).next = e.table.head r

/-! ## The table as the claim protocol has it -/

/-- What is left of a thread's variables once its ring has been given back: the session of a binding to the shared
ring. -/
def ThreadState.dropClaims (x : ThreadState Session) : ThreadState Session :=
  { x with sessionId := if x.ring.isSome then 0 else x.sessionId, ring := none, hookSession := 0 }

/-- The variables of a thread as the claim protocol has them. -/
def ThreadState.view (x : ThreadState Session) (spent : Bool) : ThreadState Session :=
  if spent then x.dropClaims else x

def TableState.shown (st : TableState Thread Session Module Process) (spent : Thread → Bool) :
    TableState Thread Session Module Process :=
  { st with threads := fun t => (st.threads t).view (spent t) }

/-- A thread whose ring has not been given back is shown as it is. -/
theorem TableState.shown_own {st : TableState Thread Session Module Process} {spent : Thread → Bool} {t : Thread}
    (h : spent t = false) : (st.shown spent).threads t = st.threads t := by
  simp only [TableState.shown, h]
  rfl

theorem TableState.shown_spent {st : TableState Thread Session Module Process} {spent : Thread → Bool} {t : Thread}
    (h : spent t = true) : (st.shown spent).threads t = (st.threads t).dropClaims := by
  simp only [TableState.shown, ThreadState.view, h, if_true]

theorem ThreadState.view_pc (x : ThreadState Session) (spent : Bool) : (x.view spent).pc = x.pc := by
  cases spent with
  | false => rfl
  | true => rfl

theorem ThreadState.view_setPc (x : ThreadState Session) (pc : ThreadPc Session) (spent : Bool) :
    { x with pc := pc }.view spent = { x.view spent with pc := pc } := by
  cases spent with
  | false => rfl
  | true => rfl

/-- A thread that is loading or claiming holds nothing but its hook. -/
theorem ThreadState.view_unbound {x : ThreadState Session} (h : x.ring = none) (spent : Bool) :
    x.view spent = { x with hookSession := if spent then 0 else x.hookSession } := by
  cases spent with
  | false => rfl
  | true => rw [view, if_pos rfl, dropClaims, h]; rfl

theorem TableState.shown_setThread [DecidableEq Thread] (st : TableState Thread Session Module Process)
    (spent : Thread → Bool) (t : Thread) (x : ThreadState Session) (b : Bool) :
    (st.setThread t x).shown (Function.update spent t b) = (st.shown spent).setThread t (x.view b) := by
  have hthreads : (fun t' => (Function.update st.threads t x t').view (Function.update spent t b t')) =
      Function.update (fun t' => (st.threads t').view (spent t')) t (x.view b) := by
    funext t'
    by_cases ht : t' = t
    · subst ht
      rw [Function.update_self, Function.update_self, Function.update_self]
    · rw [Function.update_of_ne ht, Function.update_of_ne ht, Function.update_of_ne ht]
  simp only [shown, setThread, hthreads]

theorem TableState.shown_setThread_self [DecidableEq Thread] (st : TableState Thread Session Module Process)
    (spent : Thread → Bool) (t : Thread) (x : ThreadState Session) :
    (st.setThread t x).shown spent = (st.shown spent).setThread t (x.view (spent t)) := by
  have h := st.shown_setThread spent t x (spent t)
  rwa [Function.update_eq_self] at h

theorem TableState.setThread_threads [DecidableEq Thread] (st : TableState Thread Session Module Process) (t : Thread)
    (x : ThreadState Session) : (st.setThread t x).threads t = x :=
  Function.update_self ..

theorem TableState.shown_retire (st : TableState Thread Session Module Process) (spent : Thread → Bool) (i : Nat)
    (w : UInt64) : (st.retire i w).shown spent = (st.shown spent).retire i w := by
  unfold TableState.retire
  by_cases h : st.owner i = w
  · have h' : (st.shown spent).owner i = w := h
    rw [if_pos h, if_pos h']
    rfl
  · have h' : ¬ (st.shown spent).owner i = w := h
    rw [if_neg h, if_neg h']

/-! ### What is not a thread's -/

section Others

namespace TableState

variable {d : Deployment Thread Session Module Process} {count mask : Nat} {self : UInt32}
  (st : TableState Thread Session Module Process) (spent : Thread → Bool)

theorem shown_spawn [DecidableEq Process] (p : Process) :
    (st.shown spent).spawn d p = (st.spawn d p).map (·.shown spent) := by
  rw [spawn, spawn, apply_ite (Option.map _)]
  rfl

theorem shown_die [DecidableEq Process] (p : Process) :
    (st.shown spent).die d p = (st.die d p).map (·.shown spent) := by
  rw [die, die, apply_ite (Option.map _)]
  rfl

theorem shown_start [DecidableEq Session] [DecidableEq Module] [DecidableEq Process] (s : Session) :
    (st.shown spent).start d s = (st.start d s).map (·.shown spent) := by
  have hphase : (st.shown spent).phase s = st.phase s := rfl
  rw [start, start, hphase, apply_ite (Option.map _)]
  cases st.phase s with
  | _ => rfl

theorem shown_shutdown [DecidableEq Session] [DecidableEq Module] [DecidableEq Process] (s : Session) :
    (st.shown spent).shutdown d count s = (st.shutdown d count s).map (·.shown spent) := by
  have hphase : (st.shown spent).phase s = st.phase s := rfl
  rw [shutdown, shutdown, hphase, apply_ite (Option.map _)]
  cases st.phase s with
  | retiring i =>
      simp only [← shown_retire, apply_ite (Option.map _)]
      rfl
  | _ => rfl

theorem shown_work : (st.shown spent).work count self = (st.work count self).map (·.shown spent) := by
  have hcollector : (st.shown spent).collector = st.collector := rfl
  rw [work, work, hcollector]
  cases st.collector with
  | retire i owner =>
      simp only [← shown_retire]
      rfl
  | anchor i =>
      simp only [apply_ite (Option.map _)]
      rfl
  | load i =>
      simp only [apply_ite (Option.map _)]
      rfl
  | free i seen =>
      simp only [apply_ite (Option.map _)]
      rfl
  | scan i =>
      simp only [apply_ite (Option.map _)]
      rfl
  | _ => rfl

theorem shown_readHead (r maxN : Nat) :
    (st.shown spent).readHead r maxN = (st.readHead r maxN).map (·.shown spent) := by
  simp only [readHead, apply_ite (Option.map _)]
  rfl

theorem shown_consume (k : Nat) :
    (st.shown spent).consume mask k = (st.consume mask k).map (·.shown spent) := by
  have hcollector : (st.shown spent).collector = st.collector := rfl
  rw [consume, consume, hcollector]
  cases st.collector with
  | read r h maxN =>
      simp only [apply_ite (Option.map _)]
      rfl
  | _ => rfl

/-- What is no access of a thread does not look at the threads. -/
theorem shown_step [DecidableEq Thread] [DecidableEq Session] [DecidableEq Module] [DecidableEq Process]
    {a : TableAction Thread Session Module Process}
    (ha : ∀ t, a ≠ .stamp t ∧ a ≠ .prepare t ∧ a ≠ .exit t ∧ a ≠ .go t) :
    step d count mask self a (st.shown spent) = (step d count mask self a st).map (·.shown spent) := by
  cases a with
  | spawn p => exact st.shown_spawn spent p
  | die p => exact st.shown_die spent p
  | start s => exact st.shown_start spent s
  | shutdown s => exact st.shown_shutdown spent s
  | attachLive m s =>
      rw [step, step, attachLive, attachLive, apply_ite (Option.map _)]
      rfl
  | attachCurrent m s =>
      rw [step, step, attachCurrent, attachCurrent, apply_ite (Option.map _)]
      rfl
  | stamp t => exact absurd rfl (ha t).1
  | prepare t => exact absurd rfl (ha t).2.1
  | exit t => exact absurd rfl (ha t).2.2.1
  | go t => exact absurd rfl (ha t).2.2.2
  | read r maxN => exact st.shown_readHead spent r maxN
  | consume k => exact st.shown_consume spent k
  | release =>
      rw [step, step, apply_ite (Option.map _)]
      rfl
  | reclaim =>
      rw [step, step, apply_ite (Option.map _)]
      rfl
  | work => exact st.shown_work spent

end TableState

end Others

/-! ### A stamp -/

namespace TableState

variable {d : Deployment Thread Session Module Process} {st st' : TableState Thread Session Module Process}
  {spent : Thread → Bool} {hot : Module → Option Session} {stamps : Bool} {t : Thread}

/-- A thread that binds afresh, or is bound to the shared ring, does so whatever it has given back. -/
theorem boundWriter_view {x : ThreadState Session} {s : Session} {b : Bool}
    (h : b = true → x.ring.isSome → x.sessionId ≠ d.id s) :
    (boundWriter d x s stamps).view b = boundWriter d (x.view b) s stamps := by
  cases b with
  | false => rfl
  | true =>
      by_cases hid : x.sessionId = d.id s
      · have hring : x.ring = none := by
          by_contra hring
          exact h rfl (Option.isSome_iff_ne_none.mpr hring) hid
        have hkept : (x.view true).sessionId = d.id s := by
          rw [ThreadState.view_unbound hring]
          exact hid
        rw [boundWriter, boundWriter, if_neg (not_not.mpr hid), if_neg (not_not.mpr hkept), ThreadState.view_setPc]
      · have hfresh : (x.view true).sessionId ≠ d.id s := by
          change (if x.ring.isSome then 0 else x.sessionId) ≠ d.id s
          split
          · exact (d.id_ne_zero s).symm
          · exact hid
        rw [boundWriter, boundWriter, if_pos hid, if_pos hfresh]
        rfl

/-- Entering is the same step of the table as shown, unless it finds a binding whose ring has been given back. -/
theorem enter_shown [DecidableEq Thread] [DecidableEq Session] [DecidableEq Process] (spent : Thread → Bool)
    (hs : st.enter d hot stamps t = some st') :
    (st.shown spent).enter d hot stamps t = some (st'.shown spent) ∨
      ∃ s, hot (d.moduleOf t) = some s ∧ spent t = true ∧ (st.threads t).ring.isSome ∧
        (st.threads t).sessionId = d.id s ∧ st' = st.setThread t { st.threads t with pc := boundPc s stamps } ∧
          (st.threads t).pc = .idle := by
  unfold enter at hs
  simp only at hs
  split at hs
  · rename_i hguard
    have hshown : (st.shown spent).Alive d (d.threadHome t) ∧ ((st.shown spent).threads t).pc = .idle :=
      ⟨hguard.1, ((st.threads t).view_pc (spent t)).trans hguard.2⟩
    cases hhot : hot (d.moduleOf t) with
    | none =>
        simp only [hhot] at hs
        cases hs
        left
        rw [enter]
        simp only [if_pos hshown, hhot]
    | some s =>
        simp only [hhot] at hs
        cases hs
        by_cases hlate : spent t = true ∧ (st.threads t).ring.isSome ∧ (st.threads t).sessionId = d.id s
        · right
          refine ⟨s, rfl, hlate.1, hlate.2.1, hlate.2.2, ?_, hguard.2⟩
          rw [boundWriter, if_neg (not_not.mpr hlate.2.2)]
        · left
          rw [enter]
          simp only [if_pos hshown, hhot]
          rw [shown_setThread_self, boundWriter_view fun hspent hring hid => hlate ⟨hspent, hring, hid⟩]
          rfl
  · cases hs

end TableState

/-! ## The invariant -/

structure ExitInv (d : Deployment Thread Session Module Process) (e : ExitState Thread Session Module Process) :
    Prop where
  shown : TableInv d (e.table.shown e.spent)
  ran : ∀ t, e.spent t = true → e.hookRan t = true

namespace ExitInv

variable {d : Deployment Thread Session Module Process} {e e' : ExitState Thread Session Module Process}
  {count mask : Nat} {self : UInt32}

theorem init (h : TableInit e.table ∧ (∀ t, e.hookRan t = false) ∧ ∀ t, e.spent t = false) : ExitInv d e where
  shown := by
    have hsame : e.table.shown e.spent = e.table := by
      simp only [TableState.shown, h.2.2, ThreadState.view]
      rfl
    rw [hsame]
    exact .init h.1
  ran t hspent := by rw [h.2.2 t] at hspent; cases hspent

/-- At an access that names its session the thread's ring has not been given back. -/
theorem unspent (h : ExitInv d e) {t : Thread} {s : Session}
    (hpc : (∃ i stamps, (e.table.threads t).pc = .attach s i stamps) ∨
      (∃ r, (e.table.threads t).pc = .publish s ∧ (e.table.threads t).ring = some r) ∨
        (e.table.threads t).pc = .retire s) : e.spent t = false := by
  by_contra hspent
  rw [Bool.not_eq_false] at hspent
  have hholds := h.shown.pc t
  rw [TableState.shown_spent hspent, ThreadState.PcHolds] at hholds
  rcases hpc with ⟨i, stamps, hpc⟩ | ⟨r, hpc, hring⟩ | hpc
  · simp only [ThreadState.dropClaims, hpc] at hholds
    exact d.id_ne_zero s hholds.2.1.symm
  · simp only [ThreadState.dropClaims, hpc, hring, Option.isSome_some, if_true] at hholds
    exact d.id_ne_zero s hholds.symm
  · simp only [ThreadState.dropClaims, hpc] at hholds
    exact d.id_ne_zero s hholds.symm

/-- A thread that is loading or claiming is not bound to a ring. -/
theorem unbound (h : ExitInv d e) {t : Thread} {s : Session}
    (hpc : (∃ i stamps, (e.table.threads t).pc = .load s i stamps) ∨
      ∃ i stamps, (e.table.threads t).pc = .claim s i stamps) : (e.table.threads t).ring = none := by
  have hholds := h.shown.pc t
  by_contra hring
  have hsome : (e.table.threads t).ring.isSome := Option.isSome_iff_ne_none.mpr hring
  cases hspent : e.spent t with
  | false =>
      rw [TableState.shown_own hspent, ThreadState.PcHolds] at hholds
      rcases hpc with ⟨i, stamps, hpc⟩ | ⟨i, stamps, hpc⟩
      · rw [hpc] at hholds
        exact hring hholds.2
      · rw [hpc] at hholds
        exact hring hholds.2
  | true =>
      rw [TableState.shown_spent hspent, ThreadState.PcHolds] at hholds
      rcases hpc with ⟨i, stamps, hpc⟩ | ⟨i, stamps, hpc⟩
      · simp only [ThreadState.dropClaims, hpc, hsome, if_true] at hholds
        exact d.id_ne_zero s hholds.1.symm
      · simp only [ThreadState.dropClaims, hpc, hsome, if_true] at hholds
        exact d.id_ne_zero s hholds.1.symm

/-! ### One step -/

theorem dropClaims_none {x : ThreadState Session} (s : Session) (r : Nat) : ¬ x.dropClaims.Claims d s r := by
  rintro (⟨hhook, -⟩ | ⟨-, hring⟩)
  · exact d.id_ne_zero s hhook.symm
  · cases hring

/-- What a step keeps. -/
def Keeps (d : Deployment Thread Session Module Process) (e e' : ExitState Thread Session Module Process) : Prop :=
  ExitInv d e' ∧ ∀ r, ringState (e.table.owner r) ≠ kRingActive → e'.table.head r = e.table.head r

theorem keeps_of {a : TableAction Thread Session Module Process} (hran : ∀ t, e'.spent t = true → e'.hookRan t = true)
    (h : TableInv d (e'.table.shown e'.spent) ∧
      TableStep d a (e.table.shown e.spent) (e'.table.shown e'.spent)) : Keeps d e e' :=
  ⟨⟨h.1, hran⟩, h.2.final⟩

variable [DecidableEq Thread] [DecidableEq Session] [DecidableEq Process]

theorem exitHook (h : ExitInv d e) {t : Thread} (hs : e.exitHook d t = some e') : Keeps d e e' := by
  unfold ExitState.exitHook at hs
  simp only at hs
  split at hs
  · rename_i hguard
    obtain ⟨halive, hpc, hran⟩ := hguard
    have hspent : e.spent t = false := by
      by_contra hspent
      rw [Bool.not_eq_false] at hspent
      rw [h.ran t hspent] at hran
      cases hran
    have hranAll : ∀ t', e.spent t' = true → Function.update e.hookRan t true t' = true := by
      intro t' ht'
      by_cases he : t' = t
      · rw [he, Function.update_self]
      · rw [Function.update_of_ne he]
        exact h.ran t' ht'
    have hview : (e.table.shown e.spent).threads t = e.table.threads t := TableState.shown_own hspent
    split at hs
    · rename_i s hlive
      split at hs
      · rename_i hmatch
        cases hs
        have hshown : (e.table.shown e.spent).exit d t =
            some ((e.table.setThread t { e.table.threads t with pc := .retire s }).shown e.spent) := by
          have hlive' : (e.table.shown e.spent).live (d.moduleOf t) = some s := hlive
          have hguard' : (e.table.shown e.spent).Alive d (d.threadHome t) ∧ (e.table.threads t).pc = .idle :=
            ⟨halive, hpc⟩
          rw [TableState.exit]
          simp only [hview, if_pos hguard', hlive', if_pos hmatch]
          rw [TableState.shown_setThread_self, hspent]
          rfl
        exact keeps_of h.ran (h.shown.exit hshown)
      · cases hs
        exact ⟨⟨h.shown, hranAll⟩, fun _ _ => rfl⟩
    · cases hs
      exact ⟨⟨h.shown, hranAll⟩, fun _ _ => rfl⟩
  · cases hs

theorem enter (h : ExitInv d e) {hot : Module → Option Session} {stamps : Bool} {t : Thread}
    {st' : TableState Thread Session Module Process} (a : TableAction Thread Session Module Process)
    (hhot : ∀ m s, hot m = some s → e.table.phase s ≠ .unborn ∧ d.home s = d.processOf m)
    (hlate : stamps = true → ∀ s, hot (d.moduleOf t) = some s →
      ¬ (e.spent t = true ∧ (e.table.threads t).ring.isSome ∧ (e.table.threads t).sessionId = d.id s))
    (hs : e.table.enter d hot stamps t = some st') : Keeps d e { e with table := st' } := by
  rcases TableState.enter_shown e.spent hs with hshown | ⟨s, hms, hspent, hring, hid, rfl, hpc⟩
  · exact keeps_of (a := a) h.ran (h.shown.enter hhot hshown)
  · cases hstamps : stamps with
    | true => exact absurd ⟨hspent, hring, hid⟩ (hlate hstamps s hms)
    | false =>
        have hsame : e.table.setThread t { e.table.threads t with pc := TableState.boundPc s false } = e.table := by
          have hthread : { e.table.threads t with pc := TableState.boundPc s false } = e.table.threads t := by
            rw [TableState.boundPc, if_neg Bool.false_ne_true, ← hpc]
          rw [hthread, TableState.setThread, Function.update_eq_self]
        rw [hsame]
        exact ⟨h, fun _ _ => rfl⟩

omit [DecidableEq Session] in
theorem goPlain (h : ExitInv d e) (count : Nat) {t : Thread} {st' : TableState Thread Session Module Process}
    (halive : e.table.Alive d (d.threadHome t))
    (hshown : (e.table.shown e.spent).goPc d count t ((e.table.threads t).view (e.spent t)) =
      some (st'.shown e.spent)) : Keeps d e { e with table := st' } := by
  have halive' : (e.table.shown e.spent).Alive d (d.threadHome t) := halive
  have hgo : (e.table.shown e.spent).go d count t = some (st'.shown e.spent) := by
    rw [TableState.go, if_pos halive']
    exact hshown
  exact keeps_of h.ran (h.shown.go hgo)

omit [DecidableEq Session] in
/-- The hook retires the ring, and nothing of the thread claims it any more. -/
theorem goRetire (h : ExitInv d e) {t : Thread} {s : Session} (halive : e.table.Alive d (d.threadHome t))
    (hpc : (e.table.threads t).pc = .retire s) :
    Keeps d e
      { e with
        table := (e.table.retire (e.table.threads t).hookRing (d.owner s)).setThread t
          { e.table.threads t with pc := .idle }
        hookRan := Function.update e.hookRan t true
        spent := Function.update e.spent t true } := by
  have hspent := h.unspent (.inr (.inr hpc))
  have hview : (e.table.shown e.spent).threads t = e.table.threads t := TableState.shown_own hspent
  have hgo : (e.table.shown e.spent).go d 0 t =
      some (((e.table.shown e.spent).retire (e.table.threads t).hookRing (d.owner s)).setThread t
        { e.table.threads t with pc := .exited }) := by
    have halive' : (e.table.shown e.spent).Alive d (d.threadHome t) := halive
    rw [TableState.go, if_pos halive', TableState.goPc, hview]
    simp only [hpc]
  obtain ⟨hinv, -⟩ := h.shown.go hgo
  refine ⟨⟨?_, fun t' ht' => ?_⟩, fun r _ => congrFun TableState.retire_head r⟩
  · -- as the protocol has it the thread exits; it goes on with what it does not claim
    have hagain := hinv.setThread (t := t) (x := ThreadState.view { e.table.threads t with pc := .idle } true)
      (fun _ _ s' r => dropClaims_none s' r) (fun s' hk => ?_) trivial
      (fun _ s' r hc => absurd hc (dropClaims_none s' r)) (fun _ s' r _ _ hb => absurd (.inr hb) (dropClaims_none s' r))
    · rw [TableState.shown_setThread, TableState.shown_retire]
      simpa only [TableState.setThread, Function.update_idem] using hagain
    · refine hinv.known t s' (.inl ?_)
      rw [TableState.setThread_threads]
      rcases hk with hk | hk
      · change (if (e.table.threads t).ring.isSome then 0 else (e.table.threads t).sessionId) = d.id s' at hk
        split at hk
        · exact absurd hk.symm (d.id_ne_zero s')
        · exact hk
      · exact absurd hk.symm (d.id_ne_zero s')
  · by_cases he : t' = t
    · rw [he]
      exact Function.update_self ..
    · simp only [Function.update_of_ne he] at ht' ⊢
      exact h.ran t' ht'

omit [DecidableEq Session] in
/-- A claim gives the thread a ring of its own again. -/
theorem goClaim (h : ExitInv d e) {t : Thread} {s : Session} {i : Nat} {stamps : Bool}
    (halive : e.table.Alive d (d.threadHome t)) (hpc : (e.table.threads t).pc = .claim s i stamps)
    (hfree : e.table.owner i = kRingFree) :
    Keeps d e
      { e with
        table := (e.table.setOwner i (d.owner s)).setThread t
          { e.table.threads t with hookSession := d.id s, hookRing := i, pc := .attach s i stamps }
        spent := Function.update e.spent t false } := by
  have hring := h.unbound (.inr ⟨i, stamps, hpc⟩)
  have hgo : (e.table.shown e.spent).go d 0 t =
      some (((e.table.setOwner i (d.owner s)).setThread t
        { e.table.threads t with hookSession := d.id s, hookRing := i, pc := .attach s i stamps }).shown
          (Function.update e.spent t false)) := by
    have halive' : (e.table.shown e.spent).Alive d (d.threadHome t) := halive
    have hfree' : (e.table.shown e.spent).owner i = kRingFree := hfree
    have hview : (e.table.shown e.spent).threads t =
        { e.table.threads t with hookSession := if e.spent t then 0 else (e.table.threads t).hookSession } :=
      ThreadState.view_unbound hring _
    rw [TableState.go, if_pos halive', TableState.goPc, hview, TableState.shown_setThread]
    simp only [hpc, if_pos hfree']
    rfl
  refine keeps_of (fun t' ht' => h.ran t' ?_) (h.shown.go hgo)
  by_cases he : t' = t
  · subst he
    simp only [Function.update_self] at ht'
    cases ht'
  · simpa only [Function.update_of_ne he] using ht'

omit [DecidableEq Session] in
/-- A publish into a ring that its session still serves. -/
theorem goPublish (h : ExitInv d e) {t : Thread} {s : Session} {r : Nat}
    (halive : e.table.Alive d (d.threadHome t)) (hpc : (e.table.threads t).pc = .publish s)
    (hring : (e.table.threads t).ring = some r) (hserves : e.table.Serves s r) :
    Keeps d e
      { e with
        table :=
          { e.table with head := Function.update e.table.head r ((e.table.threads t).next + 1) }.setThread t
            { e.table.threads t with next := (e.table.threads t).next + 1, pc := .idle } } := by
  have hspent := h.unspent (.inr (.inl ⟨r, hpc, hring⟩))
  refine h.goPlain 0 halive ?_
  have hserves' : (e.table.shown e.spent).Serves s r := hserves
  rw [TableState.goPc, hspent, TableState.shown_setThread_self, hspent]
  have hview : (e.table.threads t).view false = e.table.threads t := rfl
  simp only [hview, hpc, hring, if_pos hserves']
  rfl

omit [DecidableEq Session] in
theorem go (h : ExitInv d e) {t : Thread} (hp : ExitState.punctual d (.go t) e = true)
    (hs : e.go d count t = some e') : Keeps d e e' := by
  unfold ExitState.go at hs
  simp only at hs
  split at hs
  swap
  · cases hs
  rename_i halive
  have hview := (e.table.threads t).view_pc (e.spent t)
  cases hpc : (e.table.threads t).pc with
  | idle => simp [hpc, TableState.goPc] at hs
  | exited => simp [hpc, TableState.goPc] at hs
  | load s i stamps =>
      rw [hpc] at hview
      simp only [hpc] at hs
      obtain ⟨st', hst, rfl⟩ := Option.map_eq_some_iff.mp hs
      refine h.goPlain count halive ?_
      rw [TableState.goPc] at hst ⊢
      simp only [hpc] at hst
      simp only [hview]
      split at hst
      · rename_i hi
        cases hst
        rw [if_pos hi, TableState.shown_setThread_self, ThreadState.view_setPc (e.table.threads t)
          (if e.table.owner i = kRingFree then .claim s i stamps else .load s (i + 1) stamps)]
        rfl
      · rename_i hi
        cases hst
        rw [if_neg hi, TableState.shown_setThread_self,
          ThreadState.view_setPc (e.table.threads t) (TableState.boundPc s stamps)]
  | claim s i stamps =>
      rw [hpc] at hview
      simp only [hpc] at hs
      obtain ⟨st', hst, rfl⟩ := Option.map_eq_some_iff.mp hs
      rw [TableState.goPc] at hst
      simp only [hpc] at hst
      by_cases hfree : e.table.owner i = kRingFree
      · rw [if_pos hfree] at hst
        cases hst
        simp only [if_pos hfree]
        exact h.goClaim halive hpc hfree
      · rw [if_neg hfree] at hst
        cases hst
        simp only [if_neg hfree]
        refine h.goPlain count halive ?_
        have hfree' : ¬ (e.table.shown e.spent).owner i = kRingFree := hfree
        rw [TableState.goPc]
        simp only [hview, if_neg hfree']
        rw [TableState.shown_setThread_self, ThreadState.view_setPc (e.table.threads t) (.load s (i + 1) stamps)]
  | attach s i stamps =>
      have hspent := h.unspent (.inl ⟨i, stamps, hpc⟩)
      simp only [hpc] at hs
      obtain ⟨st', hst, rfl⟩ := Option.map_eq_some_iff.mp hs
      refine h.goPlain count halive ?_
      rw [TableState.goPc] at hst ⊢
      simp only [hpc] at hst
      cases hst
      rw [hspent, TableState.shown_setThread_self, hspent]
      have hsame : (e.table.threads t).view false = e.table.threads t := rfl
      simp only [hsame, hpc]
      rfl
  | publish s =>
      simp only [hpc] at hs
      split at hs
      · rename_i r hring
        cases hs
        refine h.goPublish halive hpc hring ?_
        simpa [ExitState.punctual, hpc, hring] using hp
      · rename_i hring
        obtain ⟨st', hst, rfl⟩ := Option.map_eq_some_iff.mp hs
        refine h.goPlain count halive ?_
        rw [TableState.goPc] at hst
        simp only [hpc] at hst
        split at hst
        · rename_i r hsome
          rw [hring] at hsome
          cases hsome
        · cases hst
          rw [TableState.goPc, TableState.shown_setThread_self, ThreadState.view_unbound hring,
            ThreadState.view_unbound (x := { e.table.threads t with pc := .idle }) hring]
          simp only [hpc, hring]
  | retire s =>
      simp only [hpc] at hs
      cases hs
      exact h.goRetire halive hpc

theorem step [DecidableEq Module] (h : ExitInv d e) {a : TableAction Thread Session Module Process}
    (hp : ExitState.punctual d a e = true) (hs : ExitState.step d count mask self a e = some e') : Keeps d e e' := by
  have hother : (∀ t, a ≠ .stamp t ∧ a ≠ .prepare t ∧ a ≠ .exit t ∧ a ≠ .go t) →
      ((TableState.step d count mask self a e.table).map fun st => { e with table := st }) = some e' →
      Keeps d e e' := by
    intro ha hs
    obtain ⟨st', hst, rfl⟩ := Option.map_eq_some_iff.mp hs
    have hshown : TableState.step d count mask self a (e.table.shown e.spent) = _ := e.table.shown_step e.spent ha
    rw [hst] at hshown
    exact keeps_of h.ran (h.shown.step a hshown)
  cases a with
  | stamp t =>
      obtain ⟨st', hst, rfl⟩ := Option.map_eq_some_iff.mp hs
      refine h.enter (.stamp t) h.shown.current (fun _ s hcurrent hlate => ?_) hst
      have hcurrent' : e.table.current (d.moduleOf t) = some s := hcurrent
      simp [ExitState.punctual, hcurrent', hlate] at hp
  | prepare t =>
      obtain ⟨st', hst, rfl⟩ := Option.map_eq_some_iff.mp hs
      refine h.enter (.prepare t) h.shown.live ?_ hst
      exact nofun
  | exit t => exact h.exitHook hs
  | go t => exact h.go hp hs
  | _ => exact hother (fun t => ⟨nofun, nofun, nofun, nofun⟩) hs

theorem reachable [DecidableEq Module]
    (h : ((exitSystem d count mask self).restrict fun a e => ExitState.punctual d a e = true).Reachable e) :
    ExitInv d e :=
  System.Reachable.invariant (fun _ => init)
    (fun _ _ _ hi hs => (hi.step (System.restrict_step.mp hs).1 (System.restrict_step.mp hs).2).1) h

end ExitInv

section Final

variable [DecidableEq Thread] [DecidableEq Session] [DecidableEq Module] [DecidableEq Process]
  {d : Deployment Thread Session Module Process} {e e' : ExitState Thread Session Module Process} {count mask : Nat}
  {self : UInt32}

omit [DecidableEq Session] [DecidableEq Module] in
theorem ExitState.go_alive {t : Thread} (hs : e.go d count t = some e') : e.table.Alive d (d.threadHome t) := by
  unfold ExitState.go at hs
  simp only at hs
  split at hs
  · assumption
  · cases hs

/-- A publish in time is that of a live thread, bound in the protocol's sense, into a ring its session still serves. -/
theorem ExitInv.publisher (h : ExitInv d e) {t : Thread} {s : Session} {r : Nat}
    (hs : ((exitSystem d count mask self).restrict fun a e => ExitState.punctual d a e = true).step (.go t) e = some e')
    (hpc : (e.table.threads t).pc = .publish s) (hring : (e.table.threads t).ring = some r) :
    (e.table.shown e.spent).LiveThread d t ∧ (e.table.shown e.spent).Serves s r ∧
      ((e.table.shown e.spent).threads t).Bound d s r ∧
        ((e.table.shown e.spent).threads t).next = (e.table.threads t).next := by
  obtain ⟨hp, hgo⟩ := System.restrict_step.mp hs
  have hserves : e.table.Serves s r := by simpa [ExitState.punctual, hpc, hring] using hp
  have hspent := h.unspent (.inr (.inl ⟨r, hpc, hring⟩))
  have hview : (e.table.shown e.spent).threads t = e.table.threads t := TableState.shown_own hspent
  have hid := h.shown.pc t
  rw [hview] at hid
  unfold ThreadState.PcHolds at hid
  simp only [hpc] at hid
  have halive := ExitState.go_alive hgo
  rw [TableState.LiveThread, hview]
  exact ⟨⟨halive, by rw [hpc]; exact nofun⟩, hserves, ⟨hid, hring⟩, rfl⟩

/-- In every run whose stamps are in time the head of a retired ring is final. -/
theorem retired_head_is_final
    (h : ((exitSystem d count mask self).restrict fun a e => ExitState.punctual d a e = true).Reachable e) :
    RetiredFinal ((exitSystem d count mask self).restrict fun a e => ExitState.punctual d a e = true) e := by
  have hinv := ExitInv.reachable h
  refine ⟨fun t s r e' _ hpc hring => hinv.unspent (.inr (.inl ⟨r, hpc, hring⟩)), fun a e' r hs => ?_, ?_⟩
  · obtain ⟨hp, hstep⟩ := System.restrict_step.mp hs
    exact (hinv.step hp hstep).2 r
  · intro t t' s s' r e₁ e₂ hs hs' hpc hpc' hring hring'
    obtain ⟨hlive, hserves, hbound, hnext⟩ := hinv.publisher hs hpc hring
    obtain ⟨hlive', hserves', hbound', -⟩ := hinv.publisher hs' hpc' hring'
    have hword := hinv.shown.holds t s r hlive hserves (.inr hbound)
    have hword' := hinv.shown.holds t' s' r hlive' hserves' (.inr hbound')
    have hsame : s' = s := d.owner_inj (hword'.symm.trans hword)
    rw [hsame] at hbound'
    exact ⟨hinv.shown.sole t t' s r hlive hlive' hserves (.inr hbound) (.inr hbound'),
      hnext.symm.trans (hinv.shown.next t s r hlive hserves hbound)⟩

end Final

/-! ## A destructor that stamps after the hook -/

/-- A thread stamps, and its exit hook retires its ring. -/
def retiringRun : List (TableAction Bool Bool Bool Unit) :=
  [.spawn (), .start false, .start false, .work, .work] ++
  [.stamp false, .go false, .go false, .go false, .go false, .exit false, .go false]

def freshExit : ExitState Bool Bool Bool Unit :=
  ⟨⟨fun _ => 0, fun _ => kRingFree, fun _ => none, fun _ => none, fun _ => .unborn,
    fun _ => ⟨0, none, 0, 0, 0, .idle⟩, fun _ => false, fun _ => none, fun _ => 0, 0, .anchor 0⟩,
    fun _ => false, fun _ => false⟩

theorem freshExit_init : (exitSystem handoverDeployment 1 15 7).Init freshExit :=
  ⟨⟨fun _ => rfl, fun _ => rfl, fun _ => rfl, fun _ => rfl, fun _ => rfl, fun _ => rfl, fun _ => rfl,
    fun _ => Nat.le_refl _, rfl⟩, fun _ => rfl, fun _ => rfl⟩

theorem retired_head_is_final_retiringRun : ∃ e : ExitState Bool Bool Bool Unit,
    e.spent false = true ∧ e.table.owner 0 = retiredWord (handoverDeployment.owner false) ∧
      RetiredFinal ((exitSystem handoverDeployment 1 15 7).restrict fun a e =>
        ExitState.punctual handoverDeployment a e = true) e := by
  let M := (exitSystem handoverDeployment 1 15 7).restrict fun a e => ExitState.punctual handoverDeployment a e = true
  have hrun : (M.run retiringRun freshExit).map (fun e => (e.spent false, e.table.owner 0)) =
      some (true, retiredWord (handoverDeployment.owner false)) := by decide
  obtain ⟨e, he, hend⟩ := Option.map_eq_some_iff.mp hrun
  obtain ⟨hspent, howner⟩ := Prod.mk.inj hend
  have hinit : M.Init freshExit := freshExit_init
  exact ⟨e, hspent, howner, retired_head_is_final ((System.Reachable.init hinit).run he)⟩

/-- A stamp made after that moves the head of the retired ring. -/
theorem late_stamp_moves_retired_head : ¬ ∀ e : ExitState Bool Bool Bool Unit,
    (exitSystem handoverDeployment 1 15 7).Reachable e → RetiredFinal (exitSystem handoverDeployment 1 15 7) e := by
  intro hall
  let M := exitSystem handoverDeployment 1 15 7
  have hrun : (M.run (retiringRun ++ [.stamp false]) freshExit).map (fun e =>
      (e.table.owner 0, e.table.head 0, (M.step (.go false) e).map fun e => e.table.head 0)) =
      some (retiredWord (handoverDeployment.owner false), 1, some 2) := by decide
  obtain ⟨e, he, hend⟩ := Option.map_eq_some_iff.mp hrun
  simp only [Prod.mk.injEq] at hend
  obtain ⟨howner, hhead, hgo⟩ := hend
  obtain ⟨e', hstep, hhead'⟩ := Option.map_eq_some_iff.mp hgo
  have hfinal := (hall e ((System.Reachable.init freshExit_init).run he)).final (.go false) e' 0 hstep (by
    rw [howner, Deployment.ringState_retired]
    decide)
  rw [hhead, hhead'] at hfinal
  cases hfinal

end SlickPerfmon
