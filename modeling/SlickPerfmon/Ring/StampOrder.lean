import SlickPerfmon.Ring.ExactlyOnce

/-!
# The stamps of a ring ascend

A merge takes a ring's log for sorted. It is, across all of its owners, as long as a thread reads its counter only
once it is bound: a begin always does, any other stamp where it is not the thread's first in its session.
-/

namespace SlickPerfmon

open Library

variable {Thread Session Module Process : Type} {d : Deployment Thread Session Module Process} {count mask k : Nat}
  {self : UInt32}

/-! ## A counter that does not go back -/

/-- A stamp that reads its counter before it looks for its ring. -/
def HotCall.closes (c : HotCall) : Bool := c.payload.isNone && !c.isBegin

namespace PathState

variable (d) (st : PathState Thread Session Module Process)

/-- The thread has its ring: what it stamps into is the session it is bound to. -/
def Prepared (t : Thread) : Prop :=
  match st.table.current (d.moduleOf t) with
  | some s => (st.table.threads t).sessionId = d.id s
  | none => True

instance (t : Thread) : Decidable (st.Prepared d t) := by
  unfold Prepared
  cases st.table.current (d.moduleOf t) <;> infer_instance

/-- The counters stamped into ring `r` since the collector came. -/
def stamps [DecidableEq Thread] (r : Nat) : List UInt64 :=
  (st.history.filter fun x => x.ring = some r ∧ x.call.payload = none).map fun x => x.sample.timestamp

end PathState

structure ClockedPath (Thread Session Module Process : Type) where
  path : PathState Thread Session Module Process
  clock : UInt64

variable [DecidableEq Thread] [DecidableEq Session] [DecidableEq Module] [DecidableEq Process]

namespace ClockedPath

variable (d) (count mask) (self) (prepares : Bool)

def step : PathAction Thread Session Module Process → ClockedPath Thread Session Module Process →
    Option (ClockedPath Thread Session Module Process)
  | .readTsc t now, st => if st.clock ≤ now then (st.path.readTsc d t now).map fun p => ⟨p, now⟩ else none
  | .stamp t c, st =>
      if prepares = true → c.closes = true → st.path.Prepared d t then (st.path.stamp d t c).map fun p => ⟨p, st.clock⟩ else none
  | a, st => (st.path.step d count mask self a).map fun p => ⟨p, st.clock⟩

end ClockedPath

/-- The hot paths with one counter for all threads, which, where `prepares` says so, have called `prepare_thread()` or
begun a span before they close one. -/
def clockedSystem (d : Deployment Thread Session Module Process) (count mask : Nat) (self : UInt32) (prepares : Bool) :
    System (ClockedPath Thread Session Module Process) (PathAction Thread Session Module Process) where
  Init st := PathInit mask st.path
  step := ClockedPath.step d count mask self prepares

/-! ## What a step does to the calls -/

section

variable {st st' : PathState Thread Session Module Process}

/-- The call of `t` is over: its sample is recorded, and all else that concerns publishers stays. -/
structure Recorded (d : Deployment Thread Session Module Process) (st st' : PathState Thread Session Module Process)
    (t : Thread) (s : Session) (c : Calling) (x : Sample) : Prop where
  pc : (st.table.threads t).pc = .publish s
  call : st.calls t = some c
  sample : c.sample = some x
  live : ∀ r, (st.table.threads t).ring = some r → st.table.LiveThread d t ∧ st.table.Serves s r
  idle : (st'.table.threads t).pc = .idle
  others : ∀ t', t' ≠ t → st'.table.threads t' = st.table.threads t'
  occupant : st'.table.occupant = st.table.occupant
  phase : st'.table.phase = st.table.phase
  calls : st'.calls = Function.update st.calls t none
  history : st'.history = st.history ++ [⟨t, (st.table.threads t).ring, c.call, x⟩]

omit [DecidableEq Session] [DecidableEq Module] in
theorem PathState.record_recorded {t : Thread} {s : Session} {c : Calling} {x : Sample}
    {table : TableState Thread Session Module Process} (hpc : (st.table.threads t).pc = .publish s)
    (hc : st.calls t = some c) (hx : c.sample = some x) (hgo : st.table.go d count t = some table) :
    Recorded d st (st.record t (st.table.threads t).ring c.call x table) t s c x := by
  unfold TableState.go at hgo
  split at hgo
  swap
  · cases hgo
  rename_i hal
  simp only [TableState.goPc, hpc] at hgo
  have hlive : st.table.LiveThread d t := .of_publish hal hpc
  have hidle : ∀ (st₁ : TableState Thread Session Module Process) (y : ThreadState Session),
      (st₁.setThread t y).threads t = y ∧ ∀ t', t' ≠ t → (st₁.setThread t y).threads t' = st₁.threads t' :=
    fun st₁ y => ⟨Function.update_self .., fun t' he => Function.update_of_ne he _ _⟩
  split at hgo
  · rename_i r hr
    split at hgo
    · rename_i hserves
      cases hgo
      exact ⟨hpc, hc, hx, fun r' hr' => ⟨hlive, Option.some.inj (hr.symm.trans hr') ▸ hserves⟩,
        by rw [PathState.record, (hidle _ _).1], (hidle { st.table with head := _ } _).2, rfl, rfl, rfl, rfl⟩
    · cases hgo
  · rename_i hr
    cases hgo
    exact ⟨hpc, hc, hx, fun r h => (by rw [hr] at h; cases h), by rw [PathState.record, (hidle _ _).1],
      (hidle st.table _).2, rfl, rfl, rfl, rfl⟩

omit [DecidableEq Session] [DecidableEq Module] in
/-- A step of a thread leaves publishers, calls and history alone, or ends its call. -/
theorem PathInv.go_cases (h : PathInv d mask st) {t : Thread} (hs : st.go d count mask t = some st') :
    (PublishersKept d st.table st'.table ∧ st'.calls = st.calls ∧ st'.history = st.history) ∨
      ∃ s c x, Recorded d st st' t s c x := by
  unfold PathState.go at hs
  split at hs
  · rename_i s c hpc hc
    split at hs
    · rename_i x r hx hr
      split at hs
      swap
      · cases hs
      unfold PathState.publish at hs
      split at hs
      · cases hs
        exact .inl ⟨.refl, rfl, rfl⟩
      · rename_i y hw
        obtain ⟨table, hgo, rfl⟩ := Option.map_eq_some_iff.mp hs
        have hy : y = x := by
          obtain ⟨-, c', hc', hcy⟩ := h.writing t y (by rw [hw]; rfl)
          rw [hc] at hc'
          cases hc'
          exact Option.some.inj (hcy.symm.trans hx)
        exact .inr ⟨s, c, x, hr ▸ hy ▸ PathState.record_recorded hpc hc (hy ▸ hx) hgo⟩
      · obtain ⟨q, -, rfl⟩ := Option.map_eq_some_iff.mp hs
        exact .inl ⟨.refl, rfl, rfl⟩
    · rename_i x hx hr
      obtain ⟨table, hgo, rfl⟩ := Option.map_eq_some_iff.mp hs
      exact .inr ⟨s, c, x, hr ▸ PathState.record_recorded hpc hc hx hgo⟩
    · cases hs
  · cases hs
  · rename_i hnot hnot'
    split at hs
    · cases hs
    · obtain ⟨table, hgo, rfl⟩ := Option.map_eq_some_iff.mp hs
      have hp : (st.table.threads t).pc.publishes = false := by
        cases hpc : (st.table.threads t).pc with
        | publish s =>
            cases hc : st.calls t with
            | none => exact absurd hc (hnot' s hpc)
            | some c => exact absurd hc (hnot s c hpc)
        | _ => rfl
      exact .inl ⟨(TableState.go_aside hp hgo).1.toPublishersKept, rfl, rfl⟩

omit [DecidableEq Module] in
/-- A thread that has its ring goes straight to its publication. -/
theorem TableState.enter_prepared {table table' : TableState Thread Session Module Process}
    {hot : Module → Option Session} {t : Thread} {s : Session} (hs : table.enter d hot true t = some table')
    (hhot : hot (d.moduleOf t) = some s) (hid : (table.threads t).sessionId = d.id s) :
    (table'.threads t).pc = .publish s := by
  simp only [TableState.enter, hhot] at hs
  split at hs
  · cases hs
    simp only [TableState.setThread, Function.update_self, TableState.boundWriter, hid, ne_eq, not_true_eq_false,
      if_false]
    rfl
  · cases hs

/-- Beside stamps and counter reads a step leaves publishers, calls and history alone, or ends a call. -/
theorem PathInv.step_cases (h : PathInv d mask st) {a : PathAction Thread Session Module Process}
    (hstamp : ∀ t c, a ≠ .stamp t c) (hread : ∀ t now, a ≠ .readTsc t now)
    (hs : st.step d count mask self a = some st') :
    (PublishersKept d st.table st'.table ∧ st'.calls = st.calls ∧ st'.history = st.history) ∨
      ∃ t s c x, Recorded d st st' t s c x := by
  cases a with
  | stamp t c => exact absurd rfl (hstamp t c)
  | readTsc t now => exact absurd rfl (hread t now)
  | go t => exact (h.go_cases hs).imp id fun hr => ⟨t, hr⟩
  | table a =>
      simp only [PathState.step, PathState.around] at hs
      split at hs
      swap
      · cases hs
      rename_i ha
      obtain ⟨table, htable, hs⟩ := Option.map_eq_some_iff.mp hs
      have hkept : PublishersKept d st.table table := by
        by_cases hanchor : a = .work ∧ ∃ i, st.table.collector = .anchor i ∧ i < count
        · obtain ⟨rfl, i, hpc, hi⟩ := hanchor
          simp only [TableState.step, TableState.work, hpc, if_pos hi, Option.some.injEq] at htable
          subst htable
          exact ⟨fun _ _ _ => rfl, fun _ _ h => h, fun _ _ _ h => h⟩
        · exact (TableState.step_aside ha htable fun hw i hpc hi =>
            hanchor ⟨hw, i, hpc, hi⟩).1.toPublishersKept
      split at hs
      · split at hs <;> (cases hs; exact .inl ⟨hkept, rfl, rfl⟩)
      · cases hs
        exact .inl ⟨hkept, rfl, rfl⟩
  | read r maxN =>
      simp only [PathState.step, PathState.read] at hs
      obtain ⟨table, htable, hs⟩ := Option.map_eq_some_iff.mp hs
      have hkept : PublishersKept d st.table table := by
        unfold TableState.readHead at htable
        split at htable
        · split at htable <;> (cases htable; exact ⟨fun _ _ _ => rfl, fun _ _ h => h, fun _ _ _ h => h⟩)
        · cases htable
      split at hs <;> (cases hs; exact .inl ⟨hkept, rfl, rfl⟩)
  | load =>
      simp only [PathState.step, PathState.load] at hs
      split at hs
      swap
      · cases hs
      obtain ⟨q, -, hs⟩ := Option.bind_eq_some_iff.mp hs
      split at hs
      · cases hs
        exact .inl ⟨.refl, rfl, rfl⟩
      · cases hs
  | consume n =>
      simp only [PathState.step, PathState.consume] at hs
      split at hs
      swap
      · cases hs
      split at hs
      · cases hs
      obtain ⟨table, htable, rfl⟩ := Option.map_eq_some_iff.mp hs
      unfold TableState.consume at htable
      split at htable
      · simp only at htable
        split at htable
        · cases htable
          exact .inl ⟨⟨fun _ _ _ => rfl, fun _ _ h => h, fun _ _ _ h => h⟩, rfl, rfl⟩
        · cases htable
      · cases htable

end

/-! ## The invariant -/

/-- A stamp's counter is read by a thread about to publish; it is no less than any in the thread's ring. -/
structure StampInv (d : Deployment Thread Session Module Process) (mask : Nat)
    (st : ClockedPath Thread Session Module Process) : Prop where
  path : PathInv d mask st.path
  bound : ∀ t c, st.path.calls t = some c → c.call.payload = none →
    c.payload ≠ none ∨ c.call.isBegin = false → (st.path.table.threads t).pc.publishes = true
  read : ∀ t c v, st.path.calls t = some c → c.call.payload = none → c.payload = some v → v ≤ st.clock
  order : ∀ r, (st.path.stamps r).Pairwise (· ≤ ·) ∧ ∀ v ∈ st.path.stamps r, v ≤ st.clock
  pending : ∀ t s r c v, st.path.table.LiveThread d t → st.path.table.Serves s r →
    (st.path.table.threads t).pc = .publish s → (st.path.table.threads t).ring = some r →
    st.path.calls t = some c → c.call.payload = none → c.payload = some v → ∀ w ∈ st.path.stamps r, w ≤ v

variable {st : ClockedPath Thread Session Module Process} {p : PathState Thread Session Module Process}

namespace StampInv

variable (h : StampInv d mask st)
include h

omit [DecidableEq Session] [DecidableEq Module] [DecidableEq Process] in
/-- A step that leaves publishers and history alone. Of the calls it may add one that has yet to read its counter. -/
theorem kept (hp : PathInv d mask p) (hkept : PublishersKept d st.path.table p.table)
    (hhistory : p.history = st.path.history)
    (hcalls : ∀ t c, p.calls t = some c → st.path.calls t = some c ∨
      (c.payload = c.call.payload ∧
        (c.call.closes = true → (p.table.threads t).pc.publishes = true))) :
    StampInv d mask ⟨p, st.clock⟩ := by
  have hstamps : ∀ r, p.stamps r = st.path.stamps r := fun r => by rw [PathState.stamps, hhistory]; rfl
  have hold : ∀ t c v, p.calls t = some c → c.call.payload = none → c.payload = some v →
      st.path.calls t = some c := by
    intro t c v hc hnone hv
    obtain hc | ⟨hpay, -⟩ := hcalls t c hc
    · exact hc
    · rw [hpay, hnone] at hv
      cases hv
  refine
    { path := hp
      bound := fun t c hc hnone hread => ?_
      read := fun t c v hc hnone hv => h.read t c v (hold t c v hc hnone hv) hnone hv
      order := fun r => by rw [hstamps]; exact h.order r
      pending := fun t s r c v hlive hserves hpc hr hc hnone hv => ?_ }
  · obtain hc | ⟨hpay, hclose⟩ := hcalls t c hc
    · have hb := h.bound t c hc hnone hread
      obtain ⟨s, hpc⟩ := ThreadPc.publishes_iff.mp hb
      rw [hkept.publishing t s hpc]
      exact hb
    · refine hclose ?_
      rw [hpay, hnone] at hread
      obtain hread | hread := hread
      · exact absurd rfl hread
      · rw [HotCall.closes, hnone, hread]
        rfl
  · have hc' := hold t c v hc hnone hv
    have hb := h.bound t c hc' hnone (.inl (by rw [hv]; simp))
    obtain ⟨hsame, hlive', hserves'⟩ := hkept.back h.path.table hb hlive hserves hpc
    rw [hsame] at hpc hr
    rw [hstamps]
    exact h.pending t s r c v hlive' hserves' hpc hr hc' hnone hv

omit [DecidableEq Session] [DecidableEq Module] in
theorem readTsc {t : Thread} {now : UInt64} (hnow : st.clock ≤ now) (hp : PathInv d mask p)
    (hs : st.path.readTsc d t now = some p) : StampInv d mask ⟨p, now⟩ := by
  unfold PathState.readTsc at hs
  split at hs
  swap
  · cases hs
  rename_i c hc
  split at hs
  swap
  · cases hs
  rename_i hread
  cases hs
  have hother : ∀ t', t' ≠ t →
      Function.update st.path.calls t (some { c with payload := some now }) t' = st.path.calls t' :=
    fun t' he => Function.update_of_ne he _ _
  refine
    { path := hp
      bound := fun t' c' hc' hnone hr => ?_
      read := fun t' c' v hc' hnone hv => ?_
      order := fun r => ⟨(h.order r).1, fun v hv => UInt64.le_trans ((h.order r).2 v hv) hnow⟩
      pending := fun t' s r c' v hlive hserves hpc hr hc' hnone hv w hw => ?_ }
  · by_cases he : t' = t
    · subst he
      simp only [Function.update_self, Option.some.injEq] at hc'
      subst hc'
      -- the thread reads here at last, or closes and was bound from the start
      cases hb : c.call.isBegin with
      | true => exact hread.2.2 hb
      | false => exact h.bound t' c hc hnone (.inr hb)
    · simp only [hother t' he] at hc'
      exact h.bound t' c' hc' hnone hr
  · by_cases he : t' = t
    · subst he
      simp only [Function.update_self, Option.some.injEq] at hc'
      subst hc'
      cases hv
      exact UInt64.le_refl _
    · simp only [hother t' he] at hc'
      exact UInt64.le_trans (h.read t' c' v hc' hnone hv) hnow
  · by_cases he : t' = t
    · subst he
      simp only [Function.update_self, Option.some.injEq] at hc'
      subst hc'
      cases hv
      exact UInt64.le_trans ((h.order r).2 w hw) hnow
    · simp only [hother t' he] at hc'
      exact h.pending t' s r c' v hlive hserves hpc hr hc' hnone hv w hw

omit [DecidableEq Session] [DecidableEq Module] [DecidableEq Process] in
/-- The end of a call: a stamp goes behind the stamps it is no less than. -/
theorem recorded {t : Thread} {s : Session} {c : Calling} {x : Sample} (hp : PathInv d mask p)
    (hr : Recorded d st.path p t s c x) : StampInv d mask ⟨p, st.clock⟩ := by
  have hlive : ∀ t', t' ≠ t → p.table.LiveThread d t' → st.path.table.LiveThread d t' := by
    intro t' he hl
    have hal := hl.1
    unfold TableState.Alive at hal
    rw [hr.occupant] at hal
    exact ⟨hal, by rw [← hr.others t' he]; exact hl.2⟩
  have hserves : ∀ s' r, p.table.Serves s' r → st.path.table.Serves s' r := by
    intro s' r hs'
    unfold TableState.Serves at hs' ⊢
    rwa [hr.phase] at hs'
  have hcalls : ∀ t', t' ≠ t → p.calls t' = st.path.calls t' := fun t' he => by
    rw [hr.calls, Function.update_of_ne he]
  have hnone : p.calls t = none := by rw [hr.calls, Function.update_self]
  have hstamps : ∀ r, p.stamps r = st.path.stamps r ++
      if (st.path.table.threads t).ring = some r ∧ c.call.payload = none then [x.timestamp] else [] := by
    intro r
    simp only [PathState.stamps, hr.history, List.filter_append, List.map_append]
    congr 1
    split <;> rename_i hif <;> simp [hif]
  have hpayload : c.payload = some x.timestamp := by
    obtain ⟨v, hv, rfl⟩ := Option.map_eq_some_iff.mp hr.sample
    exact hv
  refine
    { path := hp
      bound := fun t' c' hc' hn hread => ?_
      read := fun t' c' v hc' hn hv => ?_
      order := fun r => ?_
      pending := fun t' s' r c' v hl hs' hpc hring hc' hn hv w hw => ?_ }
  · have he : t' ≠ t := fun he => by rw [he, hnone] at hc'; cases hc'
    rw [hcalls t' he] at hc'
    rw [hr.others t' he]
    exact h.bound t' c' hc' hn hread
  · have he : t' ≠ t := fun he => by rw [he, hnone] at hc'; cases hc'
    rw [hcalls t' he] at hc'
    exact h.read t' c' v hc' hn hv
  · obtain ⟨hsorted, hle⟩ := h.order r
    rw [hstamps r]
    split
    · rename_i hif
      obtain ⟨hl, hs'⟩ := hr.live r hif.1
      refine ⟨List.pairwise_append.mpr ⟨hsorted, List.pairwise_singleton .., fun w hw v hv => ?_⟩, fun v hv => ?_⟩
      · rw [List.mem_singleton.mp hv]
        exact h.pending t s r c _ hl hs' hr.pc hif.1 hr.call hif.2 hpayload w hw
      · obtain hv | hv := List.mem_append.mp hv
        · exact hle v hv
        · rw [List.mem_singleton.mp hv]
          exact h.read t c _ hr.call hif.2 hpayload
    · rw [List.append_nil]
      exact ⟨hsorted, hle⟩
  · have he : t' ≠ t := fun he => by rw [he, hnone] at hc'; cases hc'
    rw [hcalls t' he] at hc'
    rw [hr.others t' he] at hpc hring
    have hl' := hlive t' he hl
    have hs'' := hserves s' r hs'
    rw [hstamps r] at hw
    split at hw
    · rename_i hif
      -- two live writers of one ring
      obtain ⟨hlt, hst⟩ := hr.live r hif.1
      exact absurd rfl ((h.path.writer hlt hst hr.pc hif.1).2.2 t' s' r hl' hs'' hpc hring he)
    · rw [List.append_nil] at hw
      exact h.pending t' s' r c' v hl' hs'' hpc hring hc' hn hv w hw

omit [DecidableEq Module] in
theorem stamp {t : Thread} {c : HotCall} (hprepared : c.closes = true → st.path.Prepared d t)
    (hp : PathInv d mask p) (hs : st.path.stamp d t c = some p) : StampInv d mask ⟨p, st.clock⟩ := by
  unfold PathState.stamp at hs
  obtain ⟨table, htable, hs⟩ := Option.map_eq_some_iff.mp hs
  have haside := (TableState.enter_aside htable).1
  split at hs
  · rename_i s hms
    subst hs
    refine h.kept hp haside.toPublishersKept rfl fun t' c' hc' => ?_
    by_cases he : t' = t
    · subst he
      simp only [Function.update_self, Option.some.injEq] at hc'
      subst hc'
      refine .inr ⟨rfl, fun hclose => ?_⟩
      have hbound := hprepared hclose
      rw [PathState.Prepared, hms] at hbound
      rw [TableState.enter_prepared htable hms hbound]
      rfl
    · simp only [Function.update_of_ne he] at hc'
      exact .inl hc'
  · subst hs
    exact h.kept hp haside.toPublishersKept rfl fun _ _ hc => .inl hc

theorem step (hk : mask + 1 = 2 ^ k) {a : PathAction Thread Session Module Process}
    {st' : ClockedPath Thread Session Module Process} (hs : ClockedPath.step d count mask self true a st = some st') :
    StampInv d mask st' := by
  have hpath : ∀ p', st.path.step d count mask self a = some p' → PathInv d mask p' := fun p' hp => h.path.step hk hp
  have hplain : (∀ t c, a ≠ .stamp t c) → (∀ t now, a ≠ .readTsc t now) → ∀ p',
      st.path.step d count mask self a = some p' → StampInv d mask ⟨p', st.clock⟩ := by
    intro hstamp hread p' hp
    obtain ⟨hkept, hcalls, hhistory⟩ | ⟨t, s, c, x, hr⟩ := h.path.step_cases hstamp hread hp
    · exact h.kept (hpath p' hp) hkept hhistory fun t c hc => .inl (by rw [← hcalls]; exact hc)
    · exact h.recorded (hpath p' hp) hr
  cases a with
  | readTsc t now =>
      simp only [ClockedPath.step] at hs
      split at hs
      · rename_i hnow
        obtain ⟨p', hp, rfl⟩ := Option.map_eq_some_iff.mp hs
        exact h.readTsc hnow (hpath p' hp) hp
      · cases hs
  | stamp t c =>
      simp only [ClockedPath.step] at hs
      split at hs
      · rename_i hprepared
        obtain ⟨p', hp, rfl⟩ := Option.map_eq_some_iff.mp hs
        exact h.stamp (hprepared trivial) (hpath p' hp) hp
      · cases hs
  | _ =>
      obtain ⟨p', hp, rfl⟩ := Option.map_eq_some_iff.mp hs
      exact hplain (by simp) (by simp) p' hp

end StampInv

omit [DecidableEq Session] [DecidableEq Module] [DecidableEq Process] in
theorem StampInv.init (h : PathInit mask st.path) : StampInv d mask st := by
  have hnone : ∀ t c, st.path.calls t ≠ some c := fun t c hc => by
    rw [h.calls t] at hc
    cases hc
  have hstamps : ∀ r, st.path.stamps r = [] := fun r => by rw [PathState.stamps, h.history]; rfl
  exact
    { path := .init h
      bound := fun t c hc => absurd hc (hnone t c)
      read := fun t c v hc => absurd hc (hnone t c)
      order := fun r => by rw [hstamps]; exact ⟨.nil, fun v hv => by cases hv⟩
      pending := fun t s r c v _ _ _ _ hc => absurd hc (hnone t c) }

/-- The second thread ends a span before it is bound: its counter is older than the ring it gets. -/
def lateEndRun : List (PathAction Bool Bool Bool Unit) :=
  List.flatten
    [[.table (.spawn ()), .table (.start false), .table (.start false), .table .work, .table .work],
      [.table (.start true), .table (.start true), .stamp true (.endSpan 1 6), .readTsc true 90],
      [.stamp false (.beginSpan 1 5), .go false, .go false, .go false, .readTsc false 100],
      List.replicate 5 (.go false), [.table (.exit false), .go false, .read 0 16], List.replicate 3 .load,
      [.consume 1, .table .release, .table .work, .table .work, .table .work], List.replicate 8 (.go true)]

/-- **The stamps of a ring ascend**, whoever published them, while the threads' counters agree and nothing but a begin is
a thread's first stamp. Where an end may be, a ring may hold it behind a later one of an earlier owner. -/
theorem ring_stamps_ascend (hk : mask + 1 = 2 ^ k) :
    (∀ st, (clockedSystem d count mask self true).Reachable st → ∀ r, (st.path.stamps r).Pairwise (· ≤ ·)) ∧
    ∃ st, (clockedSystem handoverDeployment 1 3 9 false).Reachable st ∧ ¬ (st.path.stamps 0).Pairwise (· ≤ ·) := by
  constructor
  · intro st h r
    have hinv : StampInv d mask st := h.invariant (fun _ h => .init h) fun _ _ _ hi hs => hi.step hk hs
    exact (hinv.order r).1
  · have hinit : (clockedSystem handoverDeployment 1 3 9 false).Init ⟨twoOwnersState, 0⟩ := twoOwnersInit
    have hrun : ((clockedSystem handoverDeployment 1 3 9 false).run lateEndRun ⟨twoOwnersState, 0⟩).map
        (fun st => st.path.stamps 0) = some [100, 90] := by
      decide +kernel
    obtain ⟨st, hst, hend⟩ := Option.map_eq_some_iff.mp hrun
    refine ⟨st, (System.Reachable.init hinit).run hst, ?_⟩
    rw [hend]
    decide

/-- As `twoOwnersRun`, but the second thread begins a span. -/
def twoBeginsRun : List (PathAction Bool Bool Bool Unit) :=
  List.flatten
    [[.table (.spawn ()), .table (.start false), .table (.start false), .table .work, .table .work],
      [.stamp false (.beginSpan 1 5), .go false, .go false, .go false, .readTsc false 100],
      List.replicate 5 (.go false), [.table (.exit false), .go false, .read 0 16], List.replicate 3 .load,
      [.consume 1, .table .release, .table .work, .table .work, .table .work],
      [.table (.start true), .table (.start true), .stamp true (.beginSpan 1 6), .go true, .go true, .go true],
      [.readTsc true 130], List.replicate 5 (.go true)]

theorem ring_stamps_ascend_twoBegins :
    ∃ st : ClockedPath Bool Bool Bool Unit,
      st.path.stamps 0 = [100, 130] ∧ (st.path.stamps 0).Pairwise (· ≤ ·) := by
  let M := clockedSystem handoverDeployment 1 3 9 true
  have hinit : M.Init ⟨twoOwnersState, 0⟩ := twoOwnersInit
  have hrun : (M.run twoBeginsRun ⟨twoOwnersState, 0⟩).map (fun st => st.path.stamps 0) = some [100, 130] := by
    decide +kernel
  obtain ⟨st, hst, hend⟩ := Option.map_eq_some_iff.mp hrun
  exact ⟨st, hend, (ring_stamps_ascend (k := 2) rfl).1 st ((System.Reachable.init hinit).run hst) 0⟩

end SlickPerfmon
