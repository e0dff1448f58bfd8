import SlickPerfmon.Session.Start

/-!
# A start that fails

Before its ring is open a failed attempt has changed nothing that a session is made of. After that it keeps the ring,
which `shutdown` leaves alone in a Collector that never started.
-/

namespace SlickPerfmon

open Library

/-! ## What an attempt needs -/

namespace SessionConfig

variable {F : Type} (cfg : SessionConfig F)

/-- The control block is made where there is none. -/
def creates : Bool := cfg.runMode = .sharedCollector || cfg.createIfAbsent

/-- The control block can be had: it is on the heap, made, or found ready and of the same layout, and memory is there. -/
def servedBy : ControlSegment → Bool
  | .noMemory => false
  | .invalid => cfg.runMode = .localMode
  | .created _ => cfg.runMode = .localMode || cfg.creates
  | .found _ ready b =>
      cfg.runMode = .localMode ||
        (ready && (b.validate cfg.maxNames cfg.maxThreadRings cfg.threadRingCapacity).isOk)

end SessionConfig

namespace StartCall

variable {F : Type} (fmt : FloatText F) (tests : DoubleTests F) (i : StartCall F)

/-- The settings with which the transport is opened, if it comes to that. -/
def settings : Option (SessionConfig F) :=
  (applyEnvironment i.env i.cfg).bind fun cfg =>
    match i.check fmt tests cfg with
    | .ok () => if i.opening.strings = .noName then none else some cfg
    | .error _ => none

/-- Where the ring opens, so does the rest: there is a control block, memory for a session, and the thread. -/
def OpensWhole : Prop :=
  ∀ cfg ring, i.settings fmt tests = some cfg → i.opening.ring = .ok ring →
    cfg.servedBy i.opening.control ∧ i.opening.session = .enough ∧
      (cfg.runMode = .sharedProducer ∨ i.opening.thread = .ok ())

end StartCall

/-- The mappings an attempt opens. -/
def Opening.mappings (o : Opening) : List Nat :=
  o.ring.toOption.toList ++
    match o.control with
    | .noMemory => []
    | .invalid => []
    | .created mapping => [mapping]
    | .found mapping _ _ => [mapping]

namespace CollectorParts

variable {F : Type} (fmt : FloatText F) (tests : DoubleTests F) (c : CollectorParts F)

/-- The mappings held outside the retired list. -/
def held : List Nat := c.ring.toList ++ c.control.shm.toList

/-- The failed attempt `i` leaves the Collector as `shutdown` does. What has been retired may be dropped. -/
structure LeavesNothing (short : Option ShutdownMemory) (i : StartCall F) : Prop where
  running : (c.startShort fmt tests short i).1.started = false
  hot : ∀ id, (c.startShort fmt tests short i).1.hot.current ≠ .own id ∧
    (c.startShort fmt tests short i).1.hot.live ≠ .own id
  ring : (c.startShort fmt tests short i).1.ring = none
  session : (c.startShort fmt tests short i).1.session = none
  mappings : ∀ m ∈ i.opening.mappings, m ∉ (c.startShort fmt tests short i).1.held
  next : ∀ next j, ((c.startShort fmt tests short i).1.startShort fmt tests next j).2 =
      (c.shutdown.startShort fmt tests next j).2 ∧
    ∃ retired, ((c.startShort fmt tests short i).1.startShort fmt tests next j).1 =
      { (c.shutdown.startShort fmt tests next j).1 with retired := retired }

def FailsClean (short : Option ShutdownMemory) (i : StartCall F) : Prop :=
  (c.startShort fmt tests short i).2 ≠ .started → c.LeavesNothing fmt tests short i

/-- What `shutdown` asks for is there. -/
def Affords (short : Option ShutdownMemory) : Prop := ∀ what ∈ short, c.asksFor what = false

/-- No session, and nothing of one. -/
structure Clean : Prop where
  started : c.started = false
  ring : c.ring = none
  control : c.control = .reset
  table : c.table = none
  session : c.session = none
  hot : ∀ id, c.hot.current ≠ .own id ∧ c.hot.live ≠ .own id

/-- What the calls keep. -/
def Sound : Prop := c.started = true ∧ (c.session.isSome ∨ c.ring = none ∧ c.table = none) ∨ c.Clean

end CollectorParts

/-! ## The control block -/

namespace ControlBlockOwner

variable {c : ControlBlockOwner} {ready : Bool} {maxNames rings ringCapacity : UInt32} {b : ControlHeader}

theorem adopt_ok : (adopt c ready maxNames rings ringCapacity b).2 = .ok true ↔
    ready = true ∧ (b.validate maxNames rings ringCapacity).isOk = true := by
  cases ready with
  | false => simp [adopt]
  | true =>
      cases h : b.validate maxNames rings ringCapacity with
      | error e => simp [adopt, h, Except.map, Except.isOk, Except.toBool]
      | ok => simp [adopt, h, Except.map, Except.isOk, Except.toBool]

end ControlBlockOwner

namespace CollectorParts

variable {F : Type} {fmt : FloatText F} {tests : DoubleTests F} {c : CollectorParts F}

/-! ## The transport -/

/-- What is retired decides nothing. -/
theorem openSegments_twins (o : Opening) (retired : List RetiredSession) :
    ({ c with retired := retired } : CollectorParts F).openSegments o =
      ({ (c.openSegments o).1 with retired := retired }, (c.openSegments o).2) := by
  cases hring : o.ring with
  | error e =>
      cases hmode : c.cfg.runMode with
      | localMode => simp only [openSegments, openRing, hmode, hring]
      | sharedCollector => simp only [openSegments, openRing, hmode, hring]
      | sharedProducer =>
          simp only [openSegments, openRing, hmode, hring]
          split
          · rfl
          · rfl
  | ok ring =>
      cases hmode : c.cfg.runMode with
      | localMode => simp only [openSegments, openRing, hmode, hring]
      | sharedCollector => simp only [openSegments, openRing, hmode, hring]
      | sharedProducer =>
          simp only [openSegments, openRing, hmode, hring]
          split
          · rfl
          · rfl

/-- Without a ring nothing is held. -/
theorem openSegments_absent {o : Opening} {e : List UInt8} (hring : o.ring = .error e) (hnone : c.ring = none) :
    (c.openSegments o).1 = c ∧ (c.openSegments o).2 ≠ .ok true := by
  have hc : { c with ring := none } = c := by rw [← hnone]
  cases hmode : c.cfg.runMode with
  | localMode => simp [openSegments, openRing, hmode, hring]
  | sharedCollector => simp [openSegments, openRing, hmode, hring]
  | sharedProducer =>
      simp only [openSegments, openRing, hmode, hring]
      split
      · exact ⟨rfl, nofun⟩
      · exact ⟨hc, by simp⟩

/-- With a ring it is held, whatever the control block comes to. -/
theorem openSegments_opened {o : Opening} {ring : Nat} (hring : o.ring = .ok ring) :
    (c.openSegments o).1.ring = some ring ∧ (c.openSegments o).1.cfg = c.cfg ∧
      ((c.openSegments o).2 = .ok true ↔ c.cfg.servedBy o.control = true) := by
  cases hmode : c.cfg.runMode with
  | localMode =>
      cases hsegment : o.control with
      | _ => simp [openSegments, openRing, hmode, hring, hsegment, SessionConfig.servedBy, ControlBlockOwner.createLocal]
  | sharedCollector =>
      cases hsegment : o.control with
      | noMemory =>
          simp [openSegments, openRing, hmode, hring, hsegment, SessionConfig.servedBy, ControlBlockOwner.createShared]
      | invalid =>
          simp [openSegments, openRing, hmode, hring, hsegment, SessionConfig.servedBy, ControlBlockOwner.createShared]
      | created mapping =>
          simp [openSegments, openRing, hmode, hring, hsegment, SessionConfig.servedBy, SessionConfig.creates,
            ControlBlockOwner.createShared]
      | found mapping ready b =>
          simp [openSegments, openRing, hmode, hring, hsegment, SessionConfig.servedBy, ControlBlockOwner.createShared,
            ControlBlockOwner.adopt_ok]
  | sharedProducer =>
      cases hcreate : c.cfg.createIfAbsent with
      | _ =>
          cases hsegment : o.control with
          | _ =>
              simp [openSegments, openRing, hmode, hring, hcreate, hsegment, SessionConfig.servedBy,
                SessionConfig.creates, ControlBlockOwner.createShared, ControlBlockOwner.attachShared,
                ControlBlockOwner.adopt_ok]

theorem openTransport_eq {o : Opening} (hname : o.strings ≠ .noName) : ∃ retired, c.openTransport o =
    ({ (c.openSegments o).1 with retired := retired }, (c.openSegments o).2) := by
  unfold openTransport releaseRetiredRing
  rw [if_neg hname]
  split
  · exact ⟨_, openSegments_twins o _⟩
  · exact ⟨_, openSegments_twins o c.retired⟩

/-! ## The session -/

theorem createSession_twins (o : Opening) (retired : List RetiredSession) :
    ({ c with retired := retired } : CollectorParts F).createSession o =
      ({ (c.createSession o).1 with retired := retired }, (c.createSession o).2) := by
  unfold createSession
  cases o.session with
  | _ => rfl

theorem createSession_enough {o : Opening} (h : o.session = .enough) :
    (c.createSession o).1.session = some c.made ∧ (c.createSession o).1.ring = c.ring ∧
      (c.createSession o).1.cfg = c.cfg ∧ (c.createSession o).2 = .ok () := by
  simp [createSession, h]

/-- Short of memory the session is not there, and the ring stays. -/
theorem createSession_short {o : Opening} (h : o.session ≠ .enough) :
    (c.createSession o).1.ring = c.ring ∧ (c.createSession o).2 = .error badAlloc := by
  unfold createSession
  cases hsession : o.session with
  | enough => exact absurd hsession h
  | noTable => exact ⟨rfl, rfl⟩
  | noCursors => exact ⟨rfl, rfl⟩

/-! ## One attempt -/

theorem launch_twins (o : Opening) (retired : List RetiredSession) :
    ({ c with retired := retired } : CollectorParts F).launch o =
      ({ (c.launch o).1 with retired := retired }, (c.launch o).2) := by
  by_cases hmode : c.cfg.runMode = .sharedProducer
  · simp only [launch, hmode, if_true]
  · cases hthread : o.thread with
    | error e => simp only [launch, hmode, if_false, hthread]
    | ok => simp only [launch, hmode, if_false, hthread]

theorem launch_started {o : Opening} (h : c.started = true) :
    (c.launch o).1.ring = c.ring ∧ (c.launch o).1.session = c.session ∧ (c.launch o).1.started = true ∧
      ((c.launch o).2 = .started ↔ c.cfg.runMode = .sharedProducer ∨ o.thread = .ok ()) := by
  by_cases hmode : c.cfg.runMode = .sharedProducer
  · simp [launch, hmode, h]
  · cases hthread : o.thread with
    | error e => simp [launch, hmode, hthread, h]
    | ok => simp [launch, hmode, hthread, h]

theorem afterTransport_twins (o : Opening) (opened : Except (List UInt8) Bool) (retired : List RetiredSession) :
    ({ c with retired := retired } : CollectorParts F).afterTransport o opened =
      ({ (c.afterTransport o opened).1 with retired := retired }, (c.afterTransport o opened).2) := by
  cases opened with
  | error e => rfl
  | ok b =>
      cases b with
      | false => rfl
      | true =>
          simp only [afterTransport, createSession_twins]
          obtain ⟨made, res⟩ := c.createSession o
          cases res with
          | error e => rfl
          | ok => exact launch_twins (c := { made with started := true }) o retired

theorem afterTransport_closed {o : Opening} {opened : Except (List UInt8) Bool} (h : opened ≠ .ok true) :
    (c.afterTransport o opened).1 = c ∧ (c.afterTransport o opened).2 ≠ .started := by
  cases opened with
  | error e => exact ⟨rfl, nofun⟩
  | ok b =>
      cases b with
      | false => exact ⟨rfl, nofun⟩
      | true => exact absurd rfl h

/-- What was opened is kept, and the attempt succeeds where there is memory for a session and a thread to be had. -/
theorem afterTransport_opened (o : Opening) : (c.afterTransport o (.ok true)).1.ring = c.ring ∧
    ((c.afterTransport o (.ok true)).2 = .started ↔ o.session = .enough ∧
      (c.cfg.runMode = .sharedProducer ∨ o.thread = .ok ())) ∧
    ((c.afterTransport o (.ok true)).2 = .started → (c.afterTransport o (.ok true)).1.started = true ∧
      (c.afterTransport o (.ok true)).1.session.isSome) := by
  by_cases hsession : o.session = .enough
  · obtain ⟨hmade, hring, hcfg, hok⟩ := createSession_enough (c := c) hsession
    have heq : c.afterTransport o (.ok true) =
        ({ (c.createSession o).1 with started := true } : CollectorParts F).launch o := by
      rw [afterTransport]
      cases hcreate : c.createSession o with
      | mk made res =>
          rw [hcreate] at hok
          cases hok
          rfl
    obtain ⟨hkept, hsame, hstarted, hthread⟩ :=
      launch_started (c := { (c.createSession o).1 with started := true }) (o := o) rfl
    rw [heq]
    refine ⟨hkept.trans hring, ?_, fun _ => ⟨hstarted, ?_⟩⟩
    · rw [hthread, hcfg]
      simp [hsession]
    · rw [hsame]
      simp [hmade]
  · obtain ⟨hring, hshort⟩ := createSession_short (c := c) hsession
    have heq : c.afterTransport o (.ok true) = ((c.createSession o).1, .threw badAlloc) := by
      rw [afterTransport]
      cases hcreate : c.createSession o with
      | mk made res =>
          rw [hcreate] at hshort
          cases hshort
          rfl
    rw [heq]
    exact ⟨hring, ⟨nofun, fun h => absurd h.1 hsession⟩, nofun⟩

theorem openSession_eq {o : Opening} (hname : o.strings ≠ .noName) : ∃ retired, c.openSession o =
    ({ ((c.openSegments o).1.afterTransport o (c.openSegments o).2).1 with retired := retired },
      ((c.openSegments o).1.afterTransport o (c.openSegments o).2).2) := by
  obtain ⟨retired, h⟩ := openTransport_eq (c := c) hname
  rw [openSession, h]
  exact ⟨retired, afterTransport_twins o _ retired⟩

theorem openSession_noName {o : Opening} (hname : o.strings = .noName) :
    c.openSession o = (c, .threw badAlloc) := by
  rw [openSession, openTransport, if_pos hname]
  rfl

theorem openSession_twins (o : Opening) (retired : List RetiredSession) :
    ∃ retired', ({ c with retired := retired } : CollectorParts F).openSession o =
      ({ (c.openSession o).1 with retired := retired' }, (c.openSession o).2) := by
  by_cases hname : o.strings = .noName
  · rw [openSession_noName hname, openSession_noName hname]
    exact ⟨retired, rfl⟩
  · obtain ⟨r, h⟩ := openSession_eq (c := c) hname
    obtain ⟨r', h'⟩ := openSession_eq (c := { c with retired := retired }) hname
    rw [openSegments_twins, afterTransport_twins] at h'
    exact ⟨r', by rw [h, h']⟩

variable (fmt tests) in
/-- An attempt does not look at the settings of the one before, nor at what is retired. -/
theorem start_twins (hidle : c.started = false) (cfg : SessionConfig F) (retired : List RetiredSession)
    (j : StartCall F) : ∃ retired', ({ c with cfg := cfg, retired := retired } : CollectorParts F).start fmt tests j =
      ({ (c.start fmt tests j).1 with retired := retired' }, (c.start fmt tests j).2) := by
  have hshut : c.shutdown = c := if_neg (by simp [hidle])
  have hshut' : ({ c with cfg := cfg, retired := retired } : CollectorParts F).shutdown =
      { c with cfg := cfg, retired := retired } := if_neg (by simp [hidle])
  simp only [start, hshut, hshut']
  split
  · exact ⟨_, rfl⟩
  · split
    · exact ⟨_, rfl⟩
    · exact openSession_twins (c := { c with cfg := _ }) j.opening retired

theorem start_settings {i : StartCall F} {cfg : SessionConfig F} (h : i.settings fmt tests = some cfg) :
    c.start fmt tests i = ({ c.shutdown with cfg := cfg } : CollectorParts F).openSession i.opening ∧
      i.opening.strings ≠ .noName := by
  obtain ⟨cfg', happly, hvalid⟩ := Option.bind_eq_some_iff.mp h
  split at hvalid
  · rename_i hok
    split at hvalid
    · cases hvalid
    · rename_i hname
      cases hvalid
      exact ⟨by simp only [start, happly, hok], hname⟩
  · cases hvalid

theorem start_noSettings {i : StartCall F} (h : i.settings fmt tests = none) : ∃ cfg res,
    c.start fmt tests i = ({ c.shutdown with cfg := cfg }, res) ∧ res ≠ .started := by
  rw [start]
  cases happly : applyEnvironment i.env i.cfg with
  | none => exact ⟨_, _, rfl, nofun⟩
  | some cfg =>
      simp only
      cases hvalid : i.check fmt tests cfg with
      | error e => exact ⟨_, _, rfl, nofun⟩
      | ok =>
          have hname : i.opening.strings = .noName := by
            simpa [StartCall.settings, happly, hvalid] using h
          simp only [openSession_noName hname]
          exact ⟨cfg, _, rfl, nofun⟩

/-- Short of a ring the attempt fails, and only the settings and the retired list have changed. -/
theorem start_withoutRing {i : StartCall F} (hring : c.shutdown.ring = none)
    (hno : ∀ cfg ring, i.settings fmt tests = some cfg → i.opening.ring ≠ .ok ring) : ∃ cfg retired res,
      c.start fmt tests i = ({ c.shutdown with cfg := cfg, retired := retired }, res) ∧ res ≠ .started := by
  cases hsettings : i.settings fmt tests with
  | none =>
      obtain ⟨cfg, res, h, hres⟩ := start_noSettings (c := c) hsettings
      exact ⟨cfg, c.shutdown.retired, res, h, hres⟩
  | some cfg =>
      cases hopen : i.opening.ring with
      | ok ring => exact absurd hopen (hno cfg ring hsettings)
      | error e =>
          obtain ⟨hstart, hname⟩ := start_settings (c := c) hsettings
          obtain ⟨retired, h⟩ := openSession_eq (c := { c.shutdown with cfg := cfg }) hname
          obtain ⟨hsame, hne⟩ := openSegments_absent (c := { c.shutdown with cfg := cfg }) hopen hring
          obtain ⟨hleft, hoff⟩ := afterTransport_closed (c := { c.shutdown with cfg := cfg }) (o := i.opening) hne
          rw [hsame, hleft] at h
          exact ⟨cfg, retired, _, hstart.trans h, hoff⟩

/-- With a ring the Collector keeps it, and the attempt succeeds when the rest opens too. -/
theorem start_withRing {i : StartCall F} {cfg : SessionConfig F} {ring : Nat}
    (hsettings : i.settings fmt tests = some cfg) (hring : i.opening.ring = .ok ring) :
    (c.start fmt tests i).1.ring = some ring ∧
      ((c.start fmt tests i).2 = .started ↔ cfg.servedBy i.opening.control = true ∧ i.opening.session = .enough ∧
        (cfg.runMode = .sharedProducer ∨ i.opening.thread = .ok ())) ∧
      ((c.start fmt tests i).2 = .started →
        (c.start fmt tests i).1.started = true ∧ (c.start fmt tests i).1.session.isSome) := by
  obtain ⟨hstart, hname⟩ := start_settings (c := c) hsettings
  obtain ⟨retired, h⟩ := openSession_eq (c := { c.shutdown with cfg := cfg }) hname
  obtain ⟨hheld, hcfg, hserved⟩ := openSegments_opened (c := { c.shutdown with cfg := cfg }) hring
  rw [hstart, h, ← hserved]
  by_cases hres : (CollectorParts.openSegments { c.shutdown with cfg := cfg } i.opening).2 = .ok true
  · obtain ⟨hkept, hthread, hstarted⟩ := afterTransport_opened
      (c := (CollectorParts.openSegments { c.shutdown with cfg := cfg } i.opening).1) i.opening
    rw [hres]
    rw [hcfg] at hthread
    exact ⟨hkept.trans hheld, by simpa using hthread, hstarted⟩
  · obtain ⟨hleft, hoff⟩ := afterTransport_closed (o := i.opening)
      (c := (CollectorParts.openSegments { c.shutdown with cfg := cfg } i.opening).1) hres
    rw [hleft]
    exact ⟨hheld, ⟨fun hon => absurd hon hoff, fun hon => absurd hon.1 hres⟩, fun hon => absurd hon hoff⟩

/-! ## Memory for `shutdown` -/

theorem startShort_afforded {short : Option ShutdownMemory} (h : c.Affords short) (i : StartCall F) :
    c.startShort fmt tests short i = c.start fmt tests i := by
  have hnone : short.filter c.asksFor = none := by
    rw [Option.filter_eq_none_iff]
    intro what hwhat
    simp [h what hwhat]
  rw [startShort, hnone]

theorem affords_idle (h : c.started = false) (short : Option ShutdownMemory) : c.Affords short := by
  intro what _
  cases what with
  | _ => simp [asksFor, h]

theorem started_of_asksFor {what : ShutdownMemory} (h : c.asksFor what = true) : c.started = true := by
  by_contra hidle
  simp [affords_idle (by simpa using hidle) (some what) what rfl] at h

theorem shutdownShort_started {what : ShutdownMemory} (h : c.asksFor what = true) :
    (c.shutdownShort what).started = true := by
  have hstarted := started_of_asksFor h
  cases what with
  | name => exact hstarted
  | entry => exact hstarted
  | caches => rfl

/-! ## Every run -/

theorem Sound.shutdown (h : c.Sound) : c.shutdown.Clean := by
  rcases h with ⟨hstarted, h⟩ | h
  · rw [CollectorParts.shutdown, if_pos hstarted]
    by_cases hheld : c.ring.isSome ∨ c.session.isSome
    · simp only [hheld, if_true]
      exact ⟨rfl, rfl, rfl, rfl, rfl, fun id => ⟨nofun, nofun⟩⟩
    · obtain ⟨hring, hsession⟩ := not_or.mp hheld
      obtain ⟨-, htable⟩ := h.resolve_left hsession
      simp only [hheld, if_false]
      exact ⟨rfl, by simpa using hring, rfl, htable, by simpa using hsession, fun id => ⟨nofun, nofun⟩⟩
  · rw [CollectorParts.shutdown, if_neg (by simp [h.started])]
    exact h

/-- A `shutdown` that throws is made good by the next. -/
theorem Sound.shutdownShort (h : c.Sound) {what : ShutdownMemory} (hasks : c.asksFor what = true) :
    (c.shutdownShort what).Sound := by
  refine Or.inl ⟨shutdownShort_started hasks, ?_⟩
  rcases h with ⟨-, h⟩ | h
  · cases what with
    | name => exact h.imp_right fun h => ⟨rfl, h.2⟩
    | entry => exact Or.inr ⟨rfl, rfl⟩
    | caches =>
        have hclean := Sound.shutdown (Or.inl ⟨started_of_asksFor hasks, h⟩)
        exact Or.inr ⟨hclean.ring, hclean.table⟩
  · have hstarted := started_of_asksFor hasks
    rw [h.started] at hstarted
    cases hstarted

theorem Clean.of_eq (h : c.Clean) (cfg : SessionConfig F) (retired : List RetiredSession) :
    ({ c with cfg := cfg, retired := retired } : CollectorParts F).Clean :=
  ⟨h.started, h.ring, h.control, h.table, h.session, h.hot⟩

/-- An attempt that opens whole keeps the Collector sound, and leaves nothing if it fails. -/
theorem Sound.start {short : Option ShutdownMemory} {i : StartCall F} (h : c.Sound) (hshort : c.Affords short)
    (hi : i.OpensWhole fmt tests) : (c.start fmt tests i).1.Sound ∧ c.FailsClean fmt tests short i := by
  have hclean := h.shutdown
  by_cases hno : ∀ cfg ring, i.settings fmt tests = some cfg → i.opening.ring ≠ .ok ring
  · obtain ⟨cfg, retired, res, hstart, -⟩ := start_withoutRing (c := c) hclean.ring hno
    have hleft := hclean.of_eq cfg retired
    have hrun : c.startShort fmt tests short i = ({ c.shutdown with cfg := cfg, retired := retired }, res) :=
      (startShort_afforded hshort i).trans hstart
    rw [FailsClean, hrun, hstart]
    refine ⟨Or.inr hleft, fun _ => ?_⟩
    constructor
    · rw [hrun]; exact hleft.started
    · rw [hrun]; exact hleft.hot
    · rw [hrun]; exact hleft.ring
    · rw [hrun]; exact hleft.session
    · intro m _ hm
      rw [hrun, held] at hm
      simp only [hclean.ring, hclean.control, ControlBlockOwner.reset] at hm
      simp at hm
    · intro next j
      obtain ⟨retired', hnext⟩ := start_twins fmt tests hclean.started cfg retired j
      rw [hrun, startShort_afforded (affords_idle hleft.started next), hnext,
        startShort_afforded (affords_idle hclean.started next)]
      exact ⟨rfl, retired', rfl⟩
  · simp only [not_forall, not_not] at hno
    obtain ⟨cfg, ring, hsettings, hring⟩ := hno
    obtain ⟨-, hok, hstarted⟩ := start_withRing (c := c) hsettings hring
    have hwhole := hok.mpr (hi cfg ring hsettings hring)
    refine ⟨Or.inl ⟨(hstarted hwhole).1, Or.inl (hstarted hwhole).2⟩, fun hfail => ?_⟩
    rw [startShort_afforded hshort] at hfail
    exact absurd hwhole hfail

theorem Sound.makeCall (h : c.Sound) (a : PartsCall F) (ha : ∀ i, a ≠ .start i) :
    (c.makeCall fmt tests a).Sound := by
  cases a with
  | start i => exact absurd rfl (ha i)
  | shutdown => exact Or.inr h.shutdown
  | setEnabled on =>
      rw [CollectorParts.makeCall, setEnabled]
      split
      · rename_i hstarted
        rcases h with ⟨-, h⟩ | h
        · exact Or.inl ⟨hstarted, h⟩
        · exact absurd hstarted (by simp [h.started])
      · exact h
  | attachOwn =>
      rcases h with h | h
      · exact Or.inl h
      · refine Or.inr ⟨h.started, h.ring, h.control, h.table, h.session, ?_⟩
        simp [CollectorParts.makeCall, attachOwn, h.session]
  | elsewhere current live =>
      rcases h with h | h
      · exact Or.inl h
      · refine Or.inr ⟨h.started, h.ring, h.control, h.table, h.session, fun id => ?_⟩
        cases current with
        | _ =>
            cases live with
            | _ => exact ⟨nofun, nofun⟩

end CollectorParts

/-! ## A producer that comes before the control block -/

def wholeTests : DoubleTests Nat := ⟨fun _ => true, fun _ => false, fun p => 100 < p⟩

/-- The ring of the collector is there, its control block not yet. -/
def earlyProducer : StartCall Nat where
  env := ⟨none, none, none, fun _ => [], 249⟩
  cfg := ⟨.sharedProducer, ascii "app", 512, ascii "perfmon.csv", 65536, 64, 65536, ⟨[50, 99], .nanoseconds, false⟩, false⟩
  opening := ⟨.enough, .ok 7, .invalid, .enough, .ok ()⟩

end SlickPerfmon
