import SlickPerfmon.Session.FailedStart

/-!
# How long a session lives

A session that has ended is retired, and freed only when a later `start` opens its shared-memory name again. Meanwhile
the modules that share the Collector may still point at it, and a thread may still be inside a stamp that loaded the
pointer before.
-/

namespace SlickPerfmon

open Library

/-! ## Retirement -/

namespace CollectorParts

variable {F : Type} (fmt : FloatText F) (tests : DoubleTests F) (c : CollectorParts F)

/-- The session has not been freed. -/
def Holds (id : Nat) : Prop := c.session = some id ∨ ∃ r ∈ c.retired, r.session = some id

/-- The name that a session is retired under; a local one is under none. -/
def retiredName : List UInt8 := if c.cfg.runMode ≠ .localMode then c.cfg.shmName else []

/-- Not freed, and retired or to be retired under `name`. -/
def HoldsUnder (name : List UInt8) (id : Nat) : Prop :=
  c.session = some id ∧ c.retiredName = name ∨ ∃ r ∈ c.retired, r.session = some id ∧ r.shmName = name

/-- The sessions that have not been freed. -/
def sessions : List Nat := c.retired.filterMap RetiredSession.session ++ c.session.toList

/-- Each session has a number of its own, below the next one's. -/
structure Numbered : Prop where
  apart : c.sessions.Nodup
  below : ∀ id ∈ c.sessions, id < c.made

end CollectorParts

/-- The attempt opens the segments of this name. -/
def StartCall.Reopens {F : Type} (fmt : FloatText F) (tests : DoubleTests F) (i : StartCall F) (name : List UInt8) :
    Prop :=
  ∃ cfg, i.settings fmt tests = some cfg ∧ cfg.runMode ≠ .localMode ∧ cfg.shmName = name

/-! ## The modules that share a Collector -/

/-- A stamp loads `current`; binding a thread and its exit load `live`. -/
def ModuleHot.loaded (hot : ModuleHot) (live : Bool) : HotPointer := if live then hot.live else hot.current

/-- `hot` is each module's, and `parts.hot` that of the last caller. `inside` is the session whose stamp, preparation or
exit a thread is in. -/
structure SharedCollector (F Module Thread : Type) where
  parts : CollectorParts F
  hot : Module → ModuleHot
  inside : Thread → Option Nat

/-- A call on the Collector from a module, and what the hot path does: a thread loads the session, and is done with it. -/
inductive SharedAction (F Module Thread : Type)
  | call (m : Module) (a : PartsCall F)
  | enter (t : Thread) (live : Bool)
  | leave (t : Thread)

namespace SharedCollector

variable {F Module Thread : Type} [DecidableEq Module] [DecidableEq Thread] (fmt : FloatText F) (tests : DoubleTests F)
  (moduleOf : Thread → Module) (s : SharedCollector F Module Thread)

def fresh (cfg : SessionConfig F) : SharedCollector F Module Thread :=
  ⟨.fresh cfg, fun _ => ⟨.null, .null⟩, fun _ => none⟩

def call (m : Module) (a : PartsCall F) : SharedCollector F Module Thread :=
  let c := ({ s.parts with hot := s.hot m } : CollectorParts F).makeCall fmt tests a
  { s with parts := c, hot := Function.update s.hot m c.hot }

def enter (t : Thread) (live : Bool) : SharedCollector F Module Thread :=
  match (s.hot (moduleOf t)).loaded live, s.inside t with
  | .own id, none => { s with inside := Function.update s.inside t (some id) }
  | _, _ => s

def step : SharedAction F Module Thread → SharedCollector F Module Thread
  | .call m a => s.call fmt tests m a
  | .enter t live => s.enter moduleOf t live
  | .leave t => { s with inside := Function.update s.inside t none }

def run (actions : List (SharedAction F Module Thread)) : SharedCollector F Module Thread :=
  actions.foldl (fun s a => s.step fmt tests moduleOf a) s

/-- A hot pointer is at the session, or a thread inside it. -/
def Names (id : Nat) : Prop :=
  (∃ t, s.inside t = some id) ∨ ∃ m, (s.hot m).current = .own id ∨ (s.hot m).live = .own id

/-- By the time the attempt drops the retired sessions of the name it opens, nobody names one of them. -/
def Quiet (m : Module) (i : StartCall F) : Prop :=
  ∀ name, i.Reopens fmt tests name → ∀ r ∈ (s.call fmt tests m .shutdown).parts.retired, r.shmName = name →
    ∀ id, r.session = some id → ¬ (s.call fmt tests m .shutdown).Names id

end SharedCollector

/-! ## The calls on the Collector -/

namespace CollectorParts

variable {F : Type} {fmt : FloatText F} {tests : DoubleTests F} {c : CollectorParts F} {id : Nat} {name : List UInt8}

/-- A Collector that is not started has no session. -/
def Idle (c : CollectorParts F) : Prop := c.started = false → c.session = none

theorem Idle.shutdown_session (h : c.Idle) : c.shutdown.session = none := by
  unfold shutdown
  split
  · by_cases hheld : c.ring.isSome ∨ c.session.isSome
    · simp only [hheld, if_true]
    · simp only [hheld, if_false]
      simpa using (not_or.mp hheld).2
  · rename_i hidle
    exact h (by simpa using hidle)

/-- The session is retired with its name. -/
theorem HoldsUnder.shutdown (h : c.HoldsUnder name id) : c.shutdown.HoldsUnder name id := by
  unfold CollectorParts.shutdown
  split
  · by_cases hheld : c.ring.isSome ∨ c.session.isSome
    · simp only [hheld, if_true]
      rcases h with ⟨hsession, hname⟩ | ⟨r, hr, hsession, hname⟩
      · exact Or.inr ⟨_, List.mem_append_right _ (List.mem_singleton.mpr rfl), hsession, hname⟩
      · exact Or.inr ⟨r, List.mem_append_left _ hr, hsession, hname⟩
    · simp only [hheld, if_false]
      exact h
  · exact h

theorem holds_iff : c.Holds id ↔ ∃ name, c.HoldsUnder name id := by
  constructor
  · rintro (h | ⟨r, hr, h⟩)
    · exact ⟨_, Or.inl ⟨h, rfl⟩⟩
    · exact ⟨_, Or.inr ⟨r, hr, h, rfl⟩⟩
  · rintro ⟨name, ⟨h, -⟩ | ⟨r, hr, h, -⟩⟩
    · exact Or.inl h
    · exact Or.inr ⟨r, hr, h⟩

theorem shutdown_hot (c : CollectorParts F) : c.shutdown.hot = ⟨.null, .null⟩ ∨ c.shutdown.hot = c.hot := by
  unfold shutdown
  split
  · refine Or.inl ?_
    by_cases hheld : c.ring.isSome ∨ c.session.isSome
    · simp only [hheld, if_true]
    · simp only [hheld, if_false]
  · exact Or.inr rfl

/-- Opening the segments makes no session and retires none. -/
theorem openSegments_kept (o : Opening) : (c.openSegments o).1.session = c.session ∧
    (c.openSegments o).1.retired = c.retired ∧ (c.openSegments o).1.hot = c.hot ∧
    (c.openSegments o).1.started = c.started ∧ (c.openSegments o).1.made = c.made := by
  have hopen : ∀ block, (c.openRing o block).1.session = c.session ∧ (c.openRing o block).1.retired = c.retired ∧
      (c.openRing o block).1.hot = c.hot ∧ (c.openRing o block).1.started = c.started ∧
      (c.openRing o block).1.made = c.made := by
    intro block
    unfold openRing
    split <;> exact ⟨rfl, rfl, rfl, rfl, rfl⟩
  unfold openSegments
  split
  · exact hopen _
  · exact hopen _
  · split
    · exact hopen _
    · split
      · exact ⟨rfl, rfl, rfl, rfl, rfl⟩
      · exact hopen _

/-- What an attempt leaves of the session there was, or the one it makes, which has the next number. -/
inductive Attempted (c after : CollectorParts F) : Prop
  | kept (session : after.session = c.session) (hot : after.hot = c.hot) (started : after.started = c.started)
      (made : after.made = c.made)
  | created (session : after.session = some c.made) (hot : after.hot = c.hot ∨ after.hot = ⟨.own c.made, .own c.made⟩)
      (started : after.started = true) (made : after.made = c.made + 1)

theorem createSession_kept (o : Opening) : (c.createSession o).1.retired = c.retired ∧
    (c.createSession o).1.hot = c.hot ∧ (c.createSession o).1.started = c.started ∧
    ((c.createSession o).1.session = c.session ∧ (c.createSession o).1.made = c.made ∧
        (c.createSession o).2 = .error badAlloc ∨
      (c.createSession o).1.session = some c.made ∧ (c.createSession o).1.made = c.made + 1 ∧
        (c.createSession o).2 = .ok ()) := by
  unfold createSession
  cases o.session with
  | enough => exact ⟨rfl, rfl, rfl, Or.inr ⟨rfl, rfl, rfl⟩⟩
  | noTable => exact ⟨rfl, rfl, rfl, Or.inl ⟨rfl, rfl, rfl⟩⟩
  | noCursors => exact ⟨rfl, rfl, rfl, Or.inl ⟨rfl, rfl, rfl⟩⟩

theorem afterTransport_attempted (o : Opening) (opened : Except (List UInt8) Bool) :
    Attempted c (c.afterTransport o opened).1 ∧ (c.afterTransport o opened).1.retired = c.retired := by
  unfold afterTransport
  split
  · exact ⟨.kept rfl rfl rfl rfl, rfl⟩
  · exact ⟨.kept rfl rfl rfl rfl, rfl⟩
  · have hkept := createSession_kept (c := c) o
    rcases hcreate : c.createSession o with ⟨made, res⟩
    rw [hcreate] at hkept
    obtain ⟨hretired, hhot, hstarted, hcase⟩ := hkept
    rcases hcase with ⟨hsession, hmade, rfl⟩ | ⟨hsession, hmade, rfl⟩
    · exact ⟨.kept hsession hhot hstarted hmade, hretired⟩
    · simp only [launch]
      split
      · exact ⟨.created hsession (Or.inl hhot) rfl hmade, hretired⟩
      · refine ⟨.created hsession (Or.inr ?_) rfl hmade, hretired⟩
        simp only at hsession
        simp only [hsession, Option.map_some, Option.getD_some]

theorem Attempted.of_kept {d after : CollectorParts F} (h : Attempted d after) (hsession : d.session = c.session)
    (hhot : d.hot = c.hot) (hstarted : d.started = c.started) (hmade : d.made = c.made) : Attempted c after := by
  rcases h with ⟨session, hot, started, made⟩ | ⟨session, hot, started, made⟩
  · exact .kept (session.trans hsession) (hot.trans hhot) (started.trans hstarted) (made.trans hmade)
  · rw [hmade] at session hot made
    rw [hhot] at hot
    exact .created session hot started made

/-- What is retired under the name that is opened goes, whether or not the attempt comes to anything. -/
theorem openSession_attempted (c : CollectorParts F) {o : Opening} (hname : o.strings ≠ .noName) :
    Attempted c (c.openSession o).1 ∧ (c.openSession o).1.retired =
      c.retired.filter fun r => ¬ (c.cfg.runMode ≠ .localMode ∧ c.cfg.shmName = r.shmName) := by
  by_cases hshared : c.cfg.runMode ≠ .localMode
  · have hopen : c.openSession o = ((c.releaseRetiredRing c.cfg.shmName).openSegments o).1.afterTransport o
        ((c.releaseRetiredRing c.cfg.shmName).openSegments o).2 := by
      simp only [openSession, openTransport, if_neg hname, if_pos hshared]
    obtain ⟨hsession, hretired, hhot, hstarted, hmade⟩ := openSegments_kept (c := c.releaseRetiredRing c.cfg.shmName) o
    obtain ⟨hattempted, hkept⟩ := afterTransport_attempted o
      (c := ((c.releaseRetiredRing c.cfg.shmName).openSegments o).1)
      ((c.releaseRetiredRing c.cfg.shmName).openSegments o).2
    rw [hopen]
    refine ⟨hattempted.of_kept hsession hhot hstarted hmade, ?_⟩
    rw [hkept, hretired, releaseRetiredRing]
    refine List.filter_congr fun r _ => ?_
    rw [decide_eq_decide]
    exact ⟨fun h hr => h hr.2.symm, fun h hr => h ⟨hshared, hr.symm⟩⟩
  · have hopen : c.openSession o = (c.openSegments o).1.afterTransport o (c.openSegments o).2 := by
      simp only [openSession, openTransport, if_neg hname, if_neg hshared]
    obtain ⟨hsession, hretired, hhot, hstarted, hmade⟩ := openSegments_kept (c := c) o
    obtain ⟨hattempted, hkept⟩ := afterTransport_attempted o (c := (c.openSegments o).1) (c.openSegments o).2
    rw [hopen]
    refine ⟨hattempted.of_kept hsession hhot hstarted hmade, ?_⟩
    rw [hkept, hretired]
    exact (List.filter_eq_self.mpr fun r _ => by simp [hshared]).symm

variable (fmt tests) in
/-- An attempt drops of what is retired just the names it opens. -/
theorem start_attempted (c : CollectorParts F) (i : StartCall F) :
    Attempted c.shutdown (c.start fmt tests i).1 ∧ (c.start fmt tests i).1.retired.Sublist c.shutdown.retired ∧
      ∀ r, r ∈ (c.start fmt tests i).1.retired ↔ r ∈ c.shutdown.retired ∧ ¬ i.Reopens fmt tests r.shmName := by
  cases hsettings : i.settings fmt tests with
  | none =>
      obtain ⟨cfg, res, hstart, -⟩ := start_noSettings (c := c) hsettings
      have hnever : ∀ name, ¬ i.Reopens fmt tests name := by
        rintro name ⟨cfg, hcfg, -⟩
        rw [hsettings] at hcfg
        cases hcfg
      rw [hstart]
      exact ⟨.kept rfl rfl rfl rfl, List.Sublist.refl _, fun r => ⟨fun hr => ⟨hr, hnever _⟩, fun hr => hr.1⟩⟩
  | some cfg =>
      have hreopens : ∀ name, i.Reopens fmt tests name ↔ cfg.runMode ≠ .localMode ∧ cfg.shmName = name := by
        intro name
        simp only [StartCall.Reopens, hsettings, Option.some.injEq, exists_eq_left']
      obtain ⟨hstart, hname⟩ := start_settings (c := c) hsettings
      obtain ⟨hattempted, hretired⟩ := openSession_attempted { c.shutdown with cfg := cfg } hname
      rw [hstart, hretired]
      refine ⟨hattempted.of_kept rfl rfl rfl rfl, List.filter_sublist, fun r => ?_⟩
      rw [List.mem_filter, hreopens, decide_eq_true_eq]

/-! ## What a call keeps -/

theorem Idle.start (h : c.Idle) (i : StartCall F) : (c.start fmt tests i).1.Idle := by
  intro hidle
  cases (start_attempted fmt tests c i).1 with
  | kept hsession => exact hsession.trans h.shutdown_session
  | created _ _ hstarted =>
      rw [hstarted] at hidle
      cases hidle

theorem Idle.makeCall (h : c.Idle) (a : PartsCall F) : (c.makeCall fmt tests a).Idle := by
  cases a with
  | start i => exact h.start i
  | shutdown => exact fun _ => h.shutdown_session
  | setEnabled on =>
      simp only [CollectorParts.makeCall, setEnabled]
      split
      · exact h
      · exact h
  | attachOwn => exact h
  | elsewhere current live => exact h

/-- Only a start that opens the name frees a session retired under it. -/
theorem HoldsUnder.makeCall (hidle : c.Idle) (h : c.HoldsUnder name id) (a : PartsCall F)
    (hother : ∀ i, a = .start i → ¬ i.Reopens fmt tests name) : (c.makeCall fmt tests a).HoldsUnder name id := by
  cases a with
  | start i =>
      rcases h.shutdown with ⟨hsession, -⟩ | ⟨r, hr, hsession, hname⟩
      · rw [hidle.shutdown_session] at hsession
        cases hsession
      · refine Or.inr ⟨r, ((start_attempted fmt tests c i).2.2 r).mpr ⟨hr, ?_⟩, hsession, hname⟩
        rw [hname]
        exact hother i rfl
  | shutdown => exact h.shutdown
  | setEnabled on =>
      simp only [CollectorParts.makeCall, setEnabled]
      split
      · exact h
      · exact h
  | attachOwn => exact h
  | elsewhere current live => exact h

/-- A call leaves the module's pointers where they were, or at the session there is, but for a start. -/
theorem makeCall_hot (a : PartsCall F) (hstart : ∀ i, a ≠ .start i)
    (h : (c.makeCall fmt tests a).hot.current = .own id ∨ (c.makeCall fmt tests a).hot.live = .own id) :
    c.hot.current = .own id ∨ c.hot.live = .own id ∨ c.session = some id := by
  have hsession : (c.session.map HotPointer.own).getD .null = .own id → c.session = some id := by
    cases c.session with
    | none => exact fun h => by cases h
    | some id' =>
        intro h
        cases h
        rfl
  cases a with
  | start i => exact absurd rfl (hstart i)
  | shutdown =>
      simp only [CollectorParts.makeCall] at h
      rcases shutdown_hot c with hnull | hsame
      · rw [hnull] at h
        rcases h with h | h
        · cases h
        · cases h
      · rw [hsame] at h
        exact h.imp_right Or.inl
  | setEnabled on =>
      simp only [CollectorParts.makeCall, setEnabled] at h
      split at h
      · rcases h with h | h
        · simp only at h
          split at h
          · exact Or.inr (Or.inr (hsession h))
          · cases h
        · exact Or.inr (Or.inl h)
      · exact h.imp_right Or.inl
  | attachOwn =>
      rcases h with h | h
      · exact Or.inr (Or.inr (hsession h))
      · exact Or.inr (Or.inr (hsession h))
  | elsewhere current live =>
      simp only [CollectorParts.makeCall] at h
      rcases h with h | h
      · split at h
        · cases h
        · cases h
      · split at h
        · cases h
        · cases h

/-! ## The numbers of the sessions -/

theorem holds_iff_mem_sessions : c.Holds id ↔ id ∈ c.sessions := by
  rw [sessions, List.mem_append, List.mem_filterMap, Option.mem_toList, Holds, or_comm]

theorem shutdown_sessions (c : CollectorParts F) : c.shutdown.sessions = c.sessions ∧ c.shutdown.made = c.made := by
  unfold shutdown
  split
  · by_cases hheld : c.ring.isSome ∨ c.session.isSome
    · simp only [hheld, if_true, and_true]
      cases hsession : c.session with
      | none => simp [sessions, hsession]
      | some id => simp [sessions, hsession]
    · simp only [hheld, if_false, and_true]
      rfl
  · exact ⟨rfl, rfl⟩

/-- A call may free sessions, and a start may make the next. -/
theorem makeCall_sessions (c : CollectorParts F) (a : PartsCall F) :
    (c.makeCall fmt tests a).sessions.Sublist c.sessions ∧ (c.makeCall fmt tests a).made = c.made ∨
      (c.makeCall fmt tests a).sessions.Sublist (c.sessions ++ [c.made]) ∧
        (c.makeCall fmt tests a).made = c.made + 1 := by
  cases a with
  | start i =>
      obtain ⟨hids, hmade⟩ := shutdown_sessions c
      obtain ⟨hattempted, hretired, -⟩ := start_attempted fmt tests c i
      have hdropped := hretired.filterMap RetiredSession.session
      rw [CollectorParts.makeCall, ← hids, ← hmade]
      rcases hattempted with ⟨hsession, -, -, hsame⟩ | ⟨hsession, -, -, hnext⟩
      · refine Or.inl ⟨?_, hsame⟩
        rw [sessions, hsession]
        exact hdropped.append (List.Sublist.refl _)
      · refine Or.inr ⟨?_, hnext⟩
        rw [sessions, hsession]
        exact (hdropped.trans (List.sublist_append_left _ _)).append (List.Sublist.refl _)
  | shutdown =>
      obtain ⟨hids, hmade⟩ := shutdown_sessions c
      exact Or.inl ⟨hids ▸ List.Sublist.refl _, hmade⟩
  | setEnabled on =>
      refine Or.inl ?_
      simp only [CollectorParts.makeCall, setEnabled]
      split
      · exact ⟨List.Sublist.refl _, rfl⟩
      · exact ⟨List.Sublist.refl _, rfl⟩
  | attachOwn => exact Or.inl ⟨List.Sublist.refl _, rfl⟩
  | elsewhere current live => exact Or.inl ⟨List.Sublist.refl _, rfl⟩

theorem Numbered.makeCall (h : c.Numbered) (a : PartsCall F) : (c.makeCall fmt tests a).Numbered := by
  rcases makeCall_sessions c a with ⟨hids, hmade⟩ | ⟨hids, hmade⟩
  · refine ⟨hids.nodup h.apart, fun id hid => ?_⟩
    rw [hmade]
    exact h.below id (hids.subset hid)
  · have hnew : (c.sessions ++ [c.made]).Nodup :=
      h.apart.append (List.nodup_singleton _) fun id hid hmem =>
        absurd (h.below id hid) (by simp [List.mem_singleton.mp hmem])
    refine ⟨hids.nodup hnew, fun id hid => ?_⟩
    rw [hmade]
    rcases List.mem_append.mp (hids.subset hid) with hold | hlast
    · exact Nat.lt_succ_of_lt (h.below id hold)
    · exact Nat.lt_succ_of_le (List.mem_singleton.mp hlast).le

/-- A session that has been made and freed is not there again. -/
theorem freed_makeCall (hmade : id < c.made) (hfreed : ¬ c.Holds id) (a : PartsCall F) :
    id < (c.makeCall fmt tests a).made ∧ ¬ (c.makeCall fmt tests a).Holds id := by
  rw [holds_iff_mem_sessions] at hfreed
  rw [holds_iff_mem_sessions]
  rcases makeCall_sessions c a with ⟨hids, hsame⟩ | ⟨hids, hnext⟩
  · exact ⟨hsame ▸ hmade, fun hid => hfreed (hids.subset hid)⟩
  · refine ⟨hnext ▸ Nat.lt_succ_of_lt hmade, fun hid => ?_⟩
    rcases List.mem_append.mp (hids.subset hid) with hold | hlast
    · exact hfreed hold
    · exact hmade.ne (List.mem_singleton.mp hlast)

/-- A start that opens the name frees a session retired under it. -/
theorem Numbered.freed {i : StartCall F} {r : RetiredSession} (h : c.Numbered) (hidle : c.Idle)
    (hopens : i.Reopens fmt tests name) (hr : r ∈ c.shutdown.retired) (hname : r.shmName = name)
    (hsession : r.session = some id) :
    id < (c.makeCall fmt tests (.start i)).made ∧ ¬ (c.makeCall fmt tests (.start i)).Holds id := by
  obtain ⟨hids, hmade⟩ := shutdown_sessions c
  obtain ⟨hattempted, -, hretired⟩ := start_attempted fmt tests c i
  have hmem : id ∈ c.sessions := by
    rw [← hids, ← holds_iff_mem_sessions]
    exact Or.inr ⟨r, hr, hsession⟩
  have hbelow := h.below id hmem
  have hapart : c.shutdown.retired.Pairwise
      (fun r r' => ∀ id, r.session = some id → ∀ id', r'.session = some id' → id ≠ id') :=
    List.pairwise_filterMap.mp ((List.sublist_append_left _ _).nodup (hids ▸ h.apart))
  have hsymm : Std.Symm (fun r r' : RetiredSession =>
      ∀ id, r.session = some id → ∀ id', r'.session = some id' → id ≠ id') :=
    ⟨fun a b hab id hid id' hid' => (hab id' hid' id hid).symm⟩
  have hgone : ∀ r' ∈ (c.start fmt tests i).1.retired, r'.session ≠ some id := by
    intro r' hr' hsession'
    obtain ⟨hbefore, hother⟩ := (hretired r').mp hr'
    have hne : r ≠ r' := by
      rintro rfl
      exact hother (hname ▸ hopens)
    exact hapart.forall hr hbefore hne id hsession id hsession' rfl
  rw [CollectorParts.makeCall]
  rcases hattempted with ⟨hkept, -, -, hsame⟩ | ⟨hnew, -, -, hnext⟩
  · refine ⟨by rw [hsame, hmade]; exact hbelow, ?_⟩
    rintro (hheld | ⟨r', hr', hheld⟩)
    · rw [hkept, hidle.shutdown_session] at hheld
      cases hheld
    · exact hgone r' hr' hheld
  · refine ⟨by rw [hnext, hmade]; exact Nat.lt_succ_of_lt hbelow, ?_⟩
    rintro (hheld | ⟨r', hr', hheld⟩)
    · rw [hnew, hmade, Option.some.injEq] at hheld
      exact hbelow.ne hheld.symm
    · exact hgone r' hr' hheld

end CollectorParts

/-! ## Every run -/

namespace SharedCollector

variable {F Module Thread : Type} [DecidableEq Module] [DecidableEq Thread] {fmt : FloatText F} {tests : DoubleTests F}
  {moduleOf : Thread → Module} {s : SharedCollector F Module Thread} {id : Nat} {name : List UInt8}

/-- Whatever a hot pointer or a thread is at has not been freed. -/
def Safe (s : SharedCollector F Module Thread) : Prop := ∀ id, s.Names id → s.parts.Holds id

omit [DecidableEq Module] in
theorem enter_parts (moduleOf : Thread → Module) (s : SharedCollector F Module Thread) (t : Thread) (live : Bool) :
    (s.enter moduleOf t live).parts = s.parts := by
  unfold enter
  split
  · rfl
  · rfl

theorem idle_step (h : s.parts.Idle) (a : SharedAction F Module Thread) :
    (s.step fmt tests moduleOf a).parts.Idle := by
  cases a with
  | call m a => exact CollectorParts.Idle.makeCall (c := { s.parts with hot := s.hot m }) h a
  | enter t live =>
      rw [step, enter_parts]
      exact h
  | leave t => exact h

theorem holdsUnder_step (hidle : s.parts.Idle) (h : s.parts.HoldsUnder name id) (a : SharedAction F Module Thread)
    (hother : ∀ m i, a = .call m (.start i) → ¬ i.Reopens fmt tests name) :
    (s.step fmt tests moduleOf a).parts.HoldsUnder name id := by
  cases a with
  | call m a =>
      refine CollectorParts.HoldsUnder.makeCall (c := { s.parts with hot := s.hot m }) hidle h a fun i hi => ?_
      exact hother m i (by rw [hi])
  | enter t live =>
      rw [step, enter_parts]
      exact h
  | leave t => exact h

omit [DecidableEq Module] in
/-- Going in takes the session from the module's pointers. -/
theorem enter_cases (moduleOf : Thread → Module) (s : SharedCollector F Module Thread) (t : Thread) (live : Bool) :
    s.enter moduleOf t live = s ∨ ∃ id,
      ((s.hot (moduleOf t)).current = .own id ∨ (s.hot (moduleOf t)).live = .own id) ∧
        s.enter moduleOf t live = { s with inside := Function.update s.inside t (some id) } := by
  unfold enter
  split
  · rename_i id hloaded _
    refine Or.inr ⟨id, ?_, rfl⟩
    cases live with
    | false => exact Or.inl hloaded
    | true => exact Or.inr hloaded
  · exact Or.inl rfl

omit [DecidableEq Module] in
theorem names_enter {t : Thread} {live : Bool} (h : (s.enter moduleOf t live).Names id) : s.Names id := by
  rcases enter_cases moduleOf s t live with hsame | ⟨id', hhot, hin⟩
  · rwa [hsame] at h
  · rw [hin] at h
    rcases h with ⟨t', ht'⟩ | h
    · by_cases hself : t' = t
      · simp only [hself, Function.update_self, Option.some.injEq] at ht'
        rw [ht'] at hhot
        exact Or.inr ⟨_, hhot⟩
      · simp only [ne_eq, hself, not_false_eq_true, Function.update_of_ne] at ht'
        exact Or.inl ⟨t', ht'⟩
    · exact Or.inr h

omit [DecidableEq Module] in
theorem names_leave {t : Thread}
    (h : ({ s with inside := Function.update s.inside t none } : SharedCollector F Module Thread).Names id) :
    s.Names id := by
  rcases h with ⟨t', ht'⟩ | h
  · by_cases hsame : t' = t
    · simp only [hsame, Function.update_self] at ht'
      cases ht'
    · simp only [ne_eq, hsame, not_false_eq_true, Function.update_of_ne] at ht'
      exact Or.inl ⟨t', ht'⟩
  · exact Or.inr h

/-- A thread, or another module's pointer, is at the session. -/
def NamedOutside (s : SharedCollector F Module Thread) (m : Module) (id : Nat) : Prop :=
  (∃ t, s.inside t = some id) ∨ ∃ m', m' ≠ m ∧ ((s.hot m').current = .own id ∨ (s.hot m').live = .own id)

omit [DecidableEq Thread] in
/-- After a call the module's own pointers are the Collector's, and the rest is as it was. -/
theorem names_call {m : Module} {a : PartsCall F} : (s.call fmt tests m a).Names id ↔ s.NamedOutside m id ∨
    (s.call fmt tests m a).parts.hot.current = .own id ∨ (s.call fmt tests m a).parts.hot.live = .own id := by
  have hown : (s.call fmt tests m a).hot m = (s.call fmt tests m a).parts.hot := Function.update_self ..
  have hrest : ∀ m', m' ≠ m → (s.call fmt tests m a).hot m' = s.hot m' := fun m' hm' => Function.update_of_ne hm' ..
  constructor
  · rintro (h | ⟨m', h⟩)
    · exact Or.inl (Or.inl h)
    · by_cases hsame : m' = m
      · rw [hsame, hown] at h
        exact Or.inr h
      · rw [hrest m' hsame] at h
        exact Or.inl (Or.inr ⟨m', hsame, h⟩)
  · rintro ((h | ⟨m', hm', h⟩) | h)
    · exact Or.inl h
    · rw [← hrest m' hm'] at h
      exact Or.inr ⟨m', h⟩
    · rw [← hown] at h
      exact Or.inr ⟨m, h⟩

omit [DecidableEq Module] [DecidableEq Thread] in
theorem NamedOutside.names {m : Module} (h : s.NamedOutside m id) : s.Names id := by
  rcases h with h | ⟨m', -, h⟩
  · exact Or.inl h
  · exact Or.inr ⟨m', h⟩

omit [DecidableEq Thread] in
theorem Safe.call (hidle : s.parts.Idle) (h : s.Safe) (m : Module) (a : PartsCall F) (ha : ∀ i, a ≠ .start i) :
    (s.call fmt tests m a).Safe := by
  intro id hnames
  have hheld : s.parts.Holds id := by
    rcases names_call.mp hnames with hbefore | hhot
    · exact h id hbefore.names
    · rcases CollectorParts.makeCall_hot (c := { s.parts with hot := s.hot m }) a ha hhot with hcurrent | hlive | hsession
      · exact h id (Or.inr ⟨m, Or.inl hcurrent⟩)
      · exact h id (Or.inr ⟨m, Or.inr hlive⟩)
      · exact Or.inl hsession
  obtain ⟨name, hunder⟩ := CollectorParts.holds_iff.mp hheld
  refine CollectorParts.holds_iff.mpr ⟨name, ?_⟩
  exact CollectorParts.HoldsUnder.makeCall (c := { s.parts with hot := s.hot m }) hidle hunder a
    fun i hi => absurd hi (ha i)

omit [DecidableEq Thread] in
/-- What a quiet start frees is named by nobody, and its own session is there. -/
theorem Safe.start (hidle : s.parts.Idle) (h : s.Safe) (m : Module) (i : StartCall F) (hquiet : s.Quiet fmt tests m i) :
    (s.call fmt tests m (.start i)).Safe := by
  have hdown : (s.call fmt tests m .shutdown).Safe := h.call hidle m .shutdown fun i hi => by cases hi
  have hended : (s.call fmt tests m .shutdown).parts.session = none :=
    CollectorParts.Idle.shutdown_session (c := { s.parts with hot := s.hot m }) hidle
  obtain ⟨hattempted, -, hretired⟩ :=
    CollectorParts.start_attempted fmt tests ({ s.parts with hot := s.hot m } : CollectorParts F) i
  intro id hnames
  have hcase : (s.call fmt tests m .shutdown).Names id ∨ (s.call fmt tests m (.start i)).parts.session = some id := by
    rcases names_call.mp hnames with hbefore | hhot
    · exact Or.inl (names_call.mpr (Or.inl hbefore))
    · have hkept : (s.call fmt tests m (.start i)).parts.hot = (s.call fmt tests m .shutdown).parts.hot →
          (s.call fmt tests m .shutdown).Names id := by
        intro hsame
        rw [hsame] at hhot
        exact names_call.mpr (Or.inr hhot)
      rcases hattempted with ⟨-, hsame, -, -⟩ | ⟨hnew, hsame | hbound, -, -⟩
      · exact Or.inl (hkept hsame)
      · exact Or.inl (hkept hsame)
      · refine Or.inr (hnew.trans ?_)
        simp only [SharedCollector.call, CollectorParts.makeCall, hbound] at hhot
        rcases hhot with hhot | hhot
        · cases hhot
          rfl
        · cases hhot
          rfl
  rcases hcase with hbefore | hnew
  · rcases hdown id hbefore with hsession | ⟨r, hr, hsession⟩
    · rw [hended] at hsession
      cases hsession
    · refine Or.inr ⟨r, (hretired r).mpr ⟨hr, fun hopens => ?_⟩, hsession⟩
      exact hquiet r.shmName hopens r hr rfl id hsession hbefore
  · exact Or.inl hnew

theorem Safe.step (hidle : s.parts.Idle) (h : s.Safe) (a : SharedAction F Module Thread)
    (hquiet : ∀ m i, a = .call m (.start i) → s.Quiet fmt tests m i) : (s.step fmt tests moduleOf a).Safe := by
  cases a with
  | call m a =>
      by_cases hstart : ∃ i, a = .start i
      · obtain ⟨i, rfl⟩ := hstart
        exact h.start hidle m i (hquiet m i rfl)
      · exact h.call hidle m a fun i hi => hstart ⟨i, hi⟩
  | enter t live =>
      intro id hnames
      have hheld := h id (names_enter hnames)
      rcases enter_cases moduleOf s t live with hsame | ⟨id', -, hin⟩
      · rw [SharedCollector.step, hsame]
        exact hheld
      · rw [SharedCollector.step, hin]
        exact hheld
  | leave t => exact fun id hnames => h id (names_leave hnames)

theorem idle_run (h : s.parts.Idle) (actions : List (SharedAction F Module Thread)) :
    (s.run fmt tests moduleOf actions).parts.Idle := by
  induction actions generalizing s with
  | nil => exact h
  | cons a actions ih => exact ih (idle_step h a)

theorem numbered_run (h : s.parts.Numbered) (actions : List (SharedAction F Module Thread)) :
    (s.run fmt tests moduleOf actions).parts.Numbered := by
  induction actions generalizing s with
  | nil => exact h
  | cons a actions ih =>
      refine ih (s := s.step fmt tests moduleOf a) ?_
      cases a with
      | call m a => exact CollectorParts.Numbered.makeCall (c := { s.parts with hot := s.hot m }) ⟨h.apart, h.below⟩ a
      | enter t live =>
          rw [step, enter_parts]
          exact h
      | leave t => exact h

theorem freed_run (hmade : id < s.parts.made) (hfreed : ¬ s.parts.Holds id)
    (actions : List (SharedAction F Module Thread)) : ¬ (s.run fmt tests moduleOf actions).parts.Holds id := by
  induction actions generalizing s with
  | nil => exact hfreed
  | cons a actions ih =>
      have hstep : id < (s.step fmt tests moduleOf a).parts.made ∧ ¬ (s.step fmt tests moduleOf a).parts.Holds id := by
        cases a with
        | call m a => exact CollectorParts.freed_makeCall (c := { s.parts with hot := s.hot m }) hmade hfreed a
        | enter t live =>
            rw [step, enter_parts]
            exact ⟨hmade, hfreed⟩
        | leave t => exact ⟨hmade, hfreed⟩
      exact ih hstep.1 hstep.2

theorem holdsUnder_run (hidle : s.parts.Idle) (h : s.parts.HoldsUnder name id)
    {actions : List (SharedAction F Module Thread)}
    (hother : ∀ m i, .call m (.start i) ∈ actions → ¬ i.Reopens fmt tests name) :
    (s.run fmt tests moduleOf actions).parts.HoldsUnder name id := by
  induction actions generalizing s with
  | nil => exact h
  | cons a actions ih =>
      refine ih (idle_step hidle a) (holdsUnder_step hidle h a fun m i hi => hother m i ?_) fun m i hi => hother m i ?_
      · rw [hi]
        exact List.mem_cons_self
      · exact List.mem_cons_of_mem a hi

theorem Safe.run (hidle : s.parts.Idle) (h : s.Safe) {actions : List (SharedAction F Module Thread)}
    (hquiet : ∀ before m i after, actions = before ++ .call m (.start i) :: after →
      (s.run fmt tests moduleOf before).Quiet fmt tests m i) : (s.run fmt tests moduleOf actions).Safe := by
  induction actions generalizing s with
  | nil => exact h
  | cons a actions ih =>
      refine ih (idle_step hidle a) (h.step hidle a fun m i hi => ?_) fun before m i after hrest => ?_
      · exact hquiet [] m i actions (by rw [hi]; rfl)
      · exact hquiet (a :: before) m i after (by rw [hrest]; rfl)

/-- A local session ends under no name. -/
theorem not_reopens_local {i : StartCall F} : ¬ i.Reopens fmt tests [] := by
  rintro ⟨cfg, hsettings, hshared, hname⟩
  obtain ⟨cfg', -, hvalid⟩ := Option.bind_eq_some_iff.mp hsettings
  split at hvalid
  · rename_i hok
    split at hvalid
    · cases hvalid
    · cases hvalid
      simp only [StartCall.check, validateConfig, hname, ne_eq, hshared, not_false_eq_true, and_self, if_true] at hok
      split_ifs at hok
  · cases hvalid

omit [DecidableEq Module] [DecidableEq Thread] in
theorem safe_fresh (cfg : SessionConfig F) : (fresh cfg : SharedCollector F Module Thread).Safe := by
  rintro id (⟨t, ht⟩ | ⟨m, h | h⟩)
  · cases ht
  · cases h
  · cases h

/-- In every run whose starts are quiet, what a thread or a hot pointer is at has not been freed. A session is held
until a start opens its name again, a local one for good. That start leaves nothing retired under the name: it frees what
was, for good, and every other module is left pointing at what it pointed at. -/
theorem sessions_outlive_their_stamps (fmt : FloatText F) (tests : DoubleTests F) (moduleOf : Thread → Module)
    (cfg : SessionConfig F) (actions : List (SharedAction F Module Thread)) :
    ((∀ before m i after, actions = before ++ .call m (.start i) :: after →
        ((fresh cfg).run fmt tests moduleOf before).Quiet fmt tests m i) →
      ((fresh cfg).run fmt tests moduleOf actions).Safe) ∧
    (∀ name id more, ((fresh cfg).run fmt tests moduleOf actions).parts.HoldsUnder name id →
      (∀ m i, .call m (.start i) ∈ more → ¬ i.Reopens fmt tests name) →
      (((fresh cfg).run fmt tests moduleOf actions).run fmt tests moduleOf more).parts.HoldsUnder name id) ∧
    (∀ id more, ((fresh cfg).run fmt tests moduleOf actions).parts.HoldsUnder [] id →
      (((fresh cfg).run fmt tests moduleOf actions).run fmt tests moduleOf more).parts.HoldsUnder [] id) ∧
    (∀ m i name, i.Reopens fmt tests name →
      ∀ r ∈ (((fresh cfg).run fmt tests moduleOf actions).call fmt tests m (.start i)).parts.retired,
        r.shmName ≠ name) ∧
    ∀ m i name id, i.Reopens fmt tests name →
      (∃ r ∈ (((fresh cfg).run fmt tests moduleOf actions).call fmt tests m .shutdown).parts.retired,
        r.shmName = name ∧ r.session = some id) →
      (∀ m', m' ≠ m → (((fresh cfg).run fmt tests moduleOf actions).call fmt tests m (.start i)).hot m' =
        ((fresh cfg).run fmt tests moduleOf actions).hot m') ∧
      ∀ more, ¬ ((((fresh cfg).run fmt tests moduleOf actions).call fmt tests m (.start i)).run fmt tests moduleOf
        more).parts.Holds id := by
  have hfresh : (fresh cfg : SharedCollector F Module Thread).parts.Idle := fun _ => rfl
  have hidle : ((fresh cfg).run fmt tests moduleOf actions).parts.Idle := idle_run hfresh actions
  have hnumbered : ((fresh cfg).run fmt tests moduleOf actions).parts.Numbered :=
    numbered_run (s := fresh cfg) ⟨List.nodup_nil, fun id hid => by cases hid⟩ actions
  refine ⟨fun hquiet => (safe_fresh cfg).run hfresh hquiet, ?_, ?_, ?_, ?_⟩
  · exact fun name id more h hother => holdsUnder_run hidle h hother
  · exact fun id more h => holdsUnder_run hidle h fun m i _ => not_reopens_local
  · rintro m i name hopens r hr rfl
    exact (((CollectorParts.start_attempted fmt tests _ i).2.2 r).mp hr).2 hopens
  · rintro m i name id hopens ⟨r, hr, hname, hsession⟩
    obtain ⟨hmade, hfreed⟩ := CollectorParts.Numbered.freed (i := i)
      (c := { ((fresh cfg).run fmt tests moduleOf actions).parts with
        hot := ((fresh cfg).run fmt tests moduleOf actions).hot m })
      ⟨hnumbered.apart, hnumbered.below⟩ hidle hopens hr hname hsession
    exact ⟨fun m' hm' => Function.update_of_ne hm' .., fun more => freed_run hmade hfreed more⟩

/-! ## Two runs -/

/-- A collector on the name of `earlyProducer`, and a local one. -/
def collectorOn (mode : Mode) : StartCall Nat where
  env := earlyProducer.env
  cfg := { earlyProducer.cfg with runMode := mode }
  opening := ⟨.enough, .ok 7, .created 8, .enough, .ok ()⟩

/-- The thread goes into the local session that the restart retires, and stays there. -/
def lateStamp : List (SharedAction Nat Bool Unit) :=
  [.call true (.start (collectorOn .localMode)), .enter () false, .call true (.start (collectorOn .localMode))]

/-- The second module attaches to the session that the first is going to restart. -/
def attached : List (SharedAction Nat Bool Unit) :=
  [.call true (.start (collectorOn .sharedCollector)), .call false .attachOwn]

def lateRun : SharedCollector Nat Bool Unit :=
  (fresh (collectorOn .localMode).cfg).run wholeNumbers wholeTests (fun _ => true) lateStamp

def attachedRun : SharedCollector Nat Bool Unit :=
  (fresh (collectorOn .localMode).cfg).run wholeNumbers wholeTests (fun _ => true) attached

theorem reopens_collectorOn :
    (collectorOn .sharedCollector).Reopens wholeNumbers wholeTests (ascii "app") := by
  refine ⟨(collectorOn .sharedCollector).cfg, ?_, by decide, rfl⟩
  rfl

theorem not_reopens_collectorOn (name : List UInt8) :
    ¬ (collectorOn .localMode).Reopens wholeNumbers wholeTests name := by
  rintro ⟨cfg, hsettings, hshared, -⟩
  have hlocal : (collectorOn .localMode).settings wholeNumbers wholeTests = some (collectorOn .localMode).cfg := by rfl
  rw [hlocal, Option.some.injEq] at hsettings
  exact hshared (hsettings ▸ rfl)

/-- The stamp's session outlives it. The shared one is held under its name through a local session; the start that opens
the name again frees it under the module that attached. -/
theorem sessions_outlive_their_stamps_lateStamp :
    (lateRun.inside () = some 0 ∧ lateRun.parts.session = some 1 ∧ lateRun.Safe ∧
      (lateRun.run wholeNumbers wholeTests (fun _ => true) attached).parts.HoldsUnder [] 0) ∧
    (attachedRun.run wholeNumbers wholeTests (fun _ => true) lateStamp).parts.HoldsUnder (ascii "app") 0 ∧
      ((attachedRun.call wholeNumbers wholeTests true (.start (collectorOn .sharedCollector))).hot false).live = .own 0 ∧
      ¬ ((attachedRun.call wholeNumbers wholeTests true (.start (collectorOn .sharedCollector))).run wholeNumbers
        wholeTests (fun _ => true) lateStamp).parts.Holds 0 := by
  have hretired : ∃ r ∈ (attachedRun.call wholeNumbers wholeTests true .shutdown).parts.retired,
      r.shmName = ascii "app" ∧ r.session = some 0 :=
    ⟨⟨some 7, ascii "app", some 0, none, some 8⟩, by decide +kernel, rfl, rfl⟩
  refine ⟨⟨by decide +kernel, by decide +kernel, ?_, ?_⟩, ?_, ?_, ?_⟩
  · refine (sessions_outlive_their_stamps wholeNumbers wholeTests (fun _ => true) _ lateStamp).1 ?_
    intro before m i after h name hopens
    have hmem : SharedAction.call m (.start i) ∈ lateStamp := h ▸ List.mem_append_right _ List.mem_cons_self
    have hi : m = true ∧ i = collectorOn .localMode := by simpa [lateStamp] using hmem
    exact absurd (hi.2 ▸ hopens) (not_reopens_collectorOn name)
  · refine (sessions_outlive_their_stamps wholeNumbers wholeTests (fun _ => true) _ lateStamp).2.2.1 0 attached ?_
    exact Or.inr ⟨⟨some 7, [], some 0, some (64, 65536), none⟩, by decide +kernel, rfl, rfl⟩
  · refine (sessions_outlive_their_stamps wholeNumbers wholeTests (fun _ => true) _ attached).2.1 (ascii "app") 0
      lateStamp ?_ fun m i hi => ?_
    · exact Or.inl ⟨by decide +kernel, by decide +kernel⟩
    · have hlocal : m = true ∧ i = collectorOn .localMode := by simpa [lateStamp] using hi
      rw [hlocal.2]
      exact not_reopens_collectorOn _
  · obtain ⟨-, -, -, -, h⟩ := sessions_outlive_their_stamps wholeNumbers wholeTests (fun _ => true)
      (collectorOn .localMode).cfg attached
    have hsame : (attachedRun.call wholeNumbers wholeTests true (.start (collectorOn .sharedCollector))).hot false =
        attachedRun.hot false := (h true _ (ascii "app") 0 reopens_collectorOn hretired).1 false (by decide)
    rw [hsame]
    decide +kernel
  · obtain ⟨-, -, -, -, h⟩ := sessions_outlive_their_stamps wholeNumbers wholeTests (fun _ => true)
      (collectorOn .localMode).cfg attached
    exact (h true _ (ascii "app") 0 reopens_collectorOn hretired).2 lateStamp

end SharedCollector

end SlickPerfmon
