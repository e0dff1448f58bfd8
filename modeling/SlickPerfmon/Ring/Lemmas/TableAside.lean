import SlickPerfmon.Ring.HotPath

/-!
# Beside the hot path

What the claim protocol, the sessions, the processes and the collector's housekeeping leave to the hot path: of a
thread that is about to publish nothing, of a ring at most its claim word.
-/

namespace SlickPerfmon

open Library

variable {Thread Session Module Process : Type} {d : Deployment Thread Session Module Process} {count mask : Nat}
  {self : UInt32}

/-- The call that brought the thread here publishes. -/
def ThreadPc.stamping : ThreadPc Session → Bool
  | .load _ _ stamps | .claim _ _ stamps | .attach _ _ stamps => stamps
  | .publish _ => true
  | .idle | .retire _ | .exited => false

theorem ThreadPc.stamping_boundPc (s : Session) (stamps : Bool) : (TableState.boundPc s stamps).stamping = stamps := by
  cases stamps <;> rfl

theorem ThreadPc.publishes_iff {pc : ThreadPc Session} : pc.publishes = true ↔ ∃ s, pc = .publish s := by
  cases pc <;> simp [ThreadPc.publishes]

/-- The collector stands between the two head loads of a read. -/
def CollectorPc.reads : CollectorPc → Bool
  | .read _ _ _ => true
  | _ => false

/-- Threads about to publish stay as they are, and neither they nor their sessions come back to life. -/
structure PublishersKept (d : Deployment Thread Session Module Process)
    (st st' : TableState Thread Session Module Process) : Prop where
  publishing : ∀ t s, (st.threads t).pc = .publish s → st'.threads t = st.threads t
  alive : ∀ p, st.born p = true → st'.Alive d p → st.Alive d p
  serving : ∀ s r, st.phase s ≠ .unborn → st'.Serves s r → st.Serves s r

/-- What a step beside the hot path leaves to it: besides, heads and cursors, and the read under way. -/
structure TableAside (d : Deployment Thread Session Module Process)
    (st st' : TableState Thread Session Module Process) : Prop extends PublishersKept d st st' where
  head : st'.head = st.head
  cursor : st'.cursor = st.cursor
  reading : ∀ r h m, st'.collector = .read r h m ↔ st.collector = .read r h m

section

variable {st st' : TableState Thread Session Module Process}

theorem PublishersKept.refl : PublishersKept d st st := ⟨fun _ _ _ => rfl, fun _ _ h => h, fun _ _ _ h => h⟩

theorem TableAside.refl : TableAside d st st := ⟨.refl, rfl, rfl, fun _ _ _ => .rfl⟩

/-- Claim words are none of the hot path's business. -/
theorem TableAside.setOwner (h : TableAside d st st') (i : Nat) (w : UInt64) : TableAside d st (st'.setOwner i w) :=
  ⟨⟨h.publishing, h.alive, h.serving⟩, h.head, h.cursor, h.reading⟩

theorem TableAside.retire (h : TableAside d st st') (i : Nat) (w : UInt64) : TableAside d st (st'.retire i w) := by
  unfold TableState.retire
  split
  · exact h.setOwner i _
  · exact h

theorem TableAside.setThread [DecidableEq Thread] (h : TableAside d st st') {t : Thread} {x : ThreadState Session}
    (ht : (st.threads t).pc.publishes = false) : TableAside d st (st'.setThread t x) where
  head := h.head
  cursor := h.cursor
  reading := h.reading
  publishing t' s hs := by
    have hne : t' ≠ t := by
      rintro rfl
      rw [hs] at ht
      cases ht
    exact (Function.update_of_ne hne _ _).trans (h.publishing t' s hs)
  alive := h.alive
  serving := h.serving

theorem TableAside.setCollector (h : TableAside d st st') {lost : Nat} {collector : CollectorPc}
    (hwas : st.collector.reads = false) (hnow : collector.reads = false) :
    TableAside d st { st' with lost := lost, collector := collector } where
  toPublishersKept := ⟨h.publishing, h.alive, h.serving⟩
  head := h.head
  cursor := h.cursor
  reading r hd m := by
    refine iff_of_false (fun hr => ?_) fun hr => ?_
    · rw [show collector = .read r hd m from hr] at hnow
      cases hnow
    · rw [hr] at hwas
      cases hwas

theorem TableAside.setPhase [DecidableEq Session] (h : TableAside d st st') {s : Session} {p : Phase}
    (live current : Module → Option Session)
    (hp : ∀ r, p.serves r = true → st.phase s = .unborn ∨ st.Serves s r) :
    TableAside d st { st' with phase := Function.update st'.phase s p, live := live, current := current } where
  head := h.head
  cursor := h.cursor
  reading := h.reading
  publishing := h.publishing
  alive := h.alive
  serving s' r hs' hr := by
    unfold TableState.Serves at hr
    by_cases he : s' = s
    · subst he
      simp only [Function.update_self] at hr
      exact (hp r hr).resolve_left hs'
    · simp only [Function.update_of_ne he] at hr
      exact h.serving s' r hs' hr

/-- A thread that does not publish goes on, and on behalf of the same call. -/
theorem TableState.go_aside [DecidableEq Thread] [DecidableEq Process] {t : Thread} (ht : (st.threads t).pc.publishes = false)
    (hs : st.go d count t = some st') :
    TableAside d st st' ∧ ∀ t', (st'.threads t').pc.stamping = (st.threads t').pc.stamping := by
  have hset : ∀ (st₁ : TableState Thread Session Module Process) (x : ThreadState Session),
      TableAside d st st₁ → st₁.threads = st.threads → x.pc.stamping = (st.threads t).pc.stamping →
      TableAside d st (st₁.setThread t x) ∧
        ∀ t', ((st₁.setThread t x).threads t').pc.stamping = (st.threads t').pc.stamping := by
    intro st₁ x h₁ hthreads hx
    refine ⟨h₁.setThread ht, fun t' => ?_⟩
    by_cases he : t' = t
    · rw [he, show (st₁.setThread t x).threads t = x from Function.update_self ..]
      exact hx
    · rw [show (st₁.setThread t x).threads t' = st₁.threads t' from Function.update_of_ne he _ _, hthreads]
  unfold TableState.go at hs
  split at hs
  swap
  · cases hs
  unfold TableState.goPc at hs
  cases hpc : (st.threads t).pc with
  | idle => rw [hpc] at hs; cases hs
  | exited => rw [hpc] at hs; cases hs
  | load s i stamps =>
      simp only [hpc] at hs
      split at hs
      · cases hs
        refine hset st _ .refl rfl ?_
        rw [hpc]
        simp only
        split <;> rfl
      · cases hs
        exact hset st _ .refl rfl (by rw [hpc]; exact ThreadPc.stamping_boundPc s stamps)
  | claim s i stamps =>
      simp only [hpc] at hs
      split at hs
      · cases hs
        exact hset _ _ (TableAside.refl.setOwner i _) rfl (by rw [hpc]; rfl)
      · cases hs
        exact hset st _ .refl rfl (by rw [hpc]; rfl)
  | attach s i stamps =>
      simp only [hpc] at hs
      cases hs
      exact hset st _ .refl rfl (by rw [hpc]; exact ThreadPc.stamping_boundPc s stamps)
  | publish s => rw [hpc] at ht; cases ht
  | retire s =>
      simp only [hpc] at hs
      cases hs
      refine hset _ _ (TableAside.refl.retire _ _) ?_ (by rw [hpc]; rfl)
      unfold TableState.retire
      split <;> rfl

/-- The load of a hot pointer: the thread binds for the call it is about to make, if there is a session. -/
theorem TableState.enter_aside [DecidableEq Thread] [DecidableEq Session] [DecidableEq Process]
    {hot : Module → Option Session} {stamps : Bool} {t : Thread} (hs : st.enter d hot stamps t = some st') :
    TableAside d st st' ∧ (st.threads t).pc = .idle ∧
      (st'.threads t).pc.stamping = ((hot (d.moduleOf t)).isSome && stamps) ∧
      ∀ t', t' ≠ t → st'.threads t' = st.threads t' := by
  unfold TableState.enter at hs
  simp only at hs
  split at hs
  · rename_i hguard
    have hpc := hguard.2
    split at hs
    · rename_i s hms
      cases hs
      refine ⟨TableAside.refl.setThread (by rw [hpc]; rfl), hpc, ?_, fun t' he => Function.update_of_ne he _ _⟩
      rw [show ∀ x, (st.setThread t x).threads t = x from fun _ => Function.update_self .., hms]
      unfold TableState.boundWriter
      split
      · rfl
      · exact ThreadPc.stamping_boundPc s stamps
    · rename_i hms
      cases hs
      exact ⟨.refl, hpc, by rw [hms, hpc]; rfl, fun _ _ => rfl⟩
  · cases hs

theorem TableState.exit_aside [DecidableEq Thread] [DecidableEq Session] [DecidableEq Process] {t : Thread}
    (hs : st.exit d t = some st') :
    TableAside d st st' ∧ ∀ t', (st'.threads t').pc.stamping = (st.threads t').pc.stamping := by
  unfold TableState.exit at hs
  simp only at hs
  split at hs
  · rename_i hguard
    have hset : ∀ x : ThreadState Session, x.pc.stamping = false → TableAside d st (st.setThread t x) ∧
        ∀ t', ((st.setThread t x).threads t').pc.stamping = (st.threads t').pc.stamping := by
      intro x hx
      refine ⟨TableAside.refl.setThread (by rw [hguard.2]; rfl), fun t' => ?_⟩
      by_cases he : t' = t
      · rw [he, show (st.setThread t x).threads t = x from Function.update_self .., hx, hguard.2]
        rfl
      · rw [show (st.setThread t x).threads t' = st.threads t' from Function.update_of_ne he _ _]
    split at hs
    · cases hs
      refine hset _ ?_
      simp only
      split <;> rfl
    · cases hs
      exact hset _ rfl
  · cases hs

/-- The collector between two reads, anchoring nothing. -/
theorem TableState.work_aside (hs : st.work count self = some st')
    (hanchor : ∀ i, st.collector = .anchor i → ¬ i < count) : TableAside d st st' ∧ st'.threads = st.threads := by
  have hto : ∀ (c : CollectorPc), st.collector.reads = false → c.reads = false →
      TableAside d st { st with collector := c } := fun c hwas hnow => TableAside.refl.setCollector hwas hnow
  unfold TableState.work at hs
  cases hpc : st.collector with
  | idle => rw [hpc] at hs; cases hs
  | read r hd maxN => rw [hpc] at hs; cases hs
  | anchor i =>
      simp only [hpc, if_neg (hanchor i hpc)] at hs
      cases hs
      exact ⟨hto _ (by rw [hpc]; rfl) rfl, rfl⟩
  | load i =>
      simp only [hpc] at hs
      split at hs
      · cases hs
        refine ⟨hto _ (by rw [hpc]; rfl) ?_, rfl⟩
        split <;> rfl
      · cases hs
        exact ⟨hto _ (by rw [hpc]; rfl) rfl, rfl⟩
  | drained i seen =>
      simp only [hpc] at hs
      cases hs
      refine ⟨hto _ (by rw [hpc]; rfl) ?_, rfl⟩
      split <;> rfl
  | free i seen =>
      simp only [hpc] at hs
      split at hs
      · cases hs
        exact ⟨(TableAside.refl.setOwner i _).setCollector (by rw [hpc]; rfl) rfl, rfl⟩
      · cases hs
        exact ⟨hto _ (by rw [hpc]; rfl) rfl, rfl⟩
  | scan i =>
      simp only [hpc] at hs
      split at hs
      · cases hs
        refine ⟨hto _ (by rw [hpc]; rfl) ?_, rfl⟩
        split <;> rfl
      · cases hs
        exact ⟨hto _ (by rw [hpc]; rfl) rfl, rfl⟩
  | alive i w =>
      simp only [hpc] at hs
      cases hs
      refine ⟨hto _ (by rw [hpc]; rfl) ?_, rfl⟩
      split <;> rfl
  | retire i w =>
      simp only [hpc] at hs
      cases hs
      refine ⟨(TableAside.refl.retire i _).setCollector (by rw [hpc]; rfl) rfl, ?_⟩
      simp only [TableState.retire]
      split <;> rfl

theorem TableState.spawn_aside [DecidableEq Process] {p : Process} (hs : st.spawn d p = some st') :
    TableAside d st st' ∧ st'.threads = st.threads := by
  unfold TableState.spawn at hs
  split at hs
  · rename_i hp
    cases hs
    refine ⟨⟨⟨fun _ _ _ => rfl, fun q hq hal => ?_, fun _ _ _ h => h⟩, rfl, rfl, fun _ _ _ => .rfl⟩, rfl⟩
    unfold TableState.Alive at hal ⊢
    by_cases hpid : d.pidOf q = d.pidOf p
    · simp only [hpid, Function.update_self, Option.some.injEq] at hal
      rw [← hal, hp.1] at hq
      cases hq
    · simpa only [Function.update_of_ne hpid] using hal
  · cases hs

theorem TableState.die_aside [DecidableEq Process] {p : Process} (hs : st.die d p = some st') :
    TableAside d st st' ∧ st'.threads = st.threads := by
  unfold TableState.die at hs
  split at hs
  · cases hs
    refine ⟨⟨⟨fun _ _ _ => rfl, fun q _ hal => ?_, fun _ _ _ h => h⟩, rfl, rfl, fun _ _ _ => .rfl⟩, rfl⟩
    unfold TableState.Alive at hal ⊢
    by_cases hpid : d.pidOf q = d.pidOf p
    · simp only [hpid, Function.update_self] at hal
      cases hal
    · simpa only [Function.update_of_ne hpid] using hal
  · cases hs

theorem TableState.start_aside [DecidableEq Session] [DecidableEq Module] [DecidableEq Process] {s : Session}
    (hs : st.start d s = some st') : TableAside d st st' ∧ st'.threads = st.threads := by
  unfold TableState.start at hs
  split at hs
  · split at hs
    · rename_i hp
      cases hs
      exact ⟨TableAside.refl.setPhase _ _ fun _ _ => .inl hp, rfl⟩
    · rename_i hp
      cases hs
      exact ⟨TableAside.refl.setPhase _ _ fun _ _ => .inr (.of_phase hp rfl), rfl⟩
    · cases hs
  · cases hs

theorem TableState.shutdown_aside [DecidableEq Session] [DecidableEq Module] [DecidableEq Process] {s : Session}
    (hs : st.shutdown d count s = some st') : TableAside d st st' ∧ st'.threads = st.threads := by
  unfold TableState.shutdown at hs
  split at hs
  · split at hs
    · rename_i hp
      cases hs
      exact ⟨TableAside.refl.setPhase _ _ fun _ _ => .inr (.of_phase hp rfl), rfl⟩
    · rename_i hp
      cases hs
      exact ⟨TableAside.refl.setPhase _ _ fun _ _ => .inr (.of_phase hp rfl), rfl⟩
    · rename_i i hp
      split at hs
      · cases hs
        have hphase : (st.retire i (d.owner s)).phase = st.phase := by
          unfold TableState.retire
          split <;> rfl
        refine ⟨?_, ?_⟩
        · have h : TableAside d st (st.retire i (d.owner s)) := TableAside.refl.retire i (d.owner s)
          have := h.setPhase (s := s) (p := .retiring (i + 1)) (st.retire i (d.owner s)).live
            (st.retire i (d.owner s)).current fun r hr =>
              .inr (.of_phase hp (Phase.serves_retiring.mpr (by have := Phase.serves_retiring.mp hr; omega)))
          rwa [hphase] at this
        · unfold TableState.retire
          split <;> rfl
      · cases hs
        exact ⟨TableAside.refl.setPhase _ _ fun _ hr => absurd hr Bool.false_ne_true, rfl⟩
    · cases hs
  · cases hs

theorem TableState.setHot_aside {live current : Module → Option Session} :
    TableAside d st { st with live := live, current := current } :=
  ⟨⟨fun _ _ _ => rfl, fun _ _ h => h, fun _ _ _ h => h⟩, rfl, rfl, fun _ _ _ => .rfl⟩

variable [DecidableEq Thread] [DecidableEq Session] [DecidableEq Module] [DecidableEq Process]

/-- Beside the hot path nothing moves but cursors that are being anchored. -/
theorem TableState.step_aside {a : TableAction Thread Session Module Process} (ha : a.aside = true)
    (hs : TableState.step d count mask self a st = some st')
    (hanchor : a = .work → ∀ i, st.collector = .anchor i → ¬ i < count) :
    TableAside d st st' ∧ ∀ t, (st'.threads t).pc.stamping = (st.threads t).pc.stamping := by
  have hsame : TableAside d st st' ∧ st'.threads = st.threads →
      TableAside d st st' ∧ ∀ t, (st'.threads t).pc.stamping = (st.threads t).pc.stamping :=
    fun h => ⟨h.1, fun t => by rw [h.2]⟩
  cases a with
  | spawn p => exact hsame (TableState.spawn_aside hs)
  | die p => exact hsame (TableState.die_aside hs)
  | start s => exact hsame (TableState.start_aside hs)
  | shutdown s => exact hsame (TableState.shutdown_aside hs)
  | attachLive m p =>
      simp only [TableState.step, TableState.attachLive] at hs
      split at hs
      · cases hs
        exact hsame ⟨TableState.setHot_aside, rfl⟩
      · cases hs
  | attachCurrent m p =>
      simp only [TableState.step, TableState.attachCurrent] at hs
      split at hs
      · cases hs
        exact hsame ⟨TableState.setHot_aside, rfl⟩
      · cases hs
  | prepare t =>
      obtain ⟨haside, hidle, hself, hother⟩ := TableState.enter_aside hs
      refine ⟨haside, fun t' => ?_⟩
      by_cases he : t' = t
      · rw [he, hself, hidle, Bool.and_false]
        rfl
      · rw [hother t' he]
  | exit t => exact TableState.exit_aside hs
  | release =>
      simp only [TableState.step] at hs
      split at hs
      · rename_i hidle
        cases hs
        exact hsame ⟨TableAside.refl.setCollector (by rw [hidle]; rfl) rfl, rfl⟩
      · cases hs
  | reclaim =>
      simp only [TableState.step] at hs
      split at hs
      · rename_i hidle
        cases hs
        exact hsame ⟨TableAside.refl.setCollector (by rw [hidle]; rfl) rfl, rfl⟩
      · cases hs
  | work => exact hsame (TableState.work_aside hs (hanchor rfl))
  | stamp t => cases ha
  | go t => cases ha
  | read r m => cases ha
  | consume k => cases ha

end

end SlickPerfmon
