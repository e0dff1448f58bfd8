import SlickPerfmon.Library.TransitionSystem
import Mathlib.Data.List.Basic

/-!
# The flush handshake

`flush` and the loop of `run` as they meet in `flush_request_` and `flush_done_`. Any number of threads call `flush`;
every load, store and increment of a shared variable is a step of its own, and so is each end of a pass or a flush. The
two counters do not wrap.
-/

namespace SlickPerfmon

open Library

/-- What the collector thread has begun and ended. -/
inductive FlushEvent
  | mergeBegun
  | mergeEnded
  | flushBegun
  | flushEnded
deriving DecidableEq, Repr

/-- How far the loop is in serving a request. -/
inductive Serving
  | mergeDue
  | merging
  | merged
  | flushing
  | flushed
deriving DecidableEq, Repr

/-- Where the collector thread stands. -/
inductive RunPc
  /-- `while (running_.load(...))`. -/
  | head
  /-- In `drain_once`. -/
  | draining
  /-- `if (now >= next_flush)`. -/
  | drained
  /-- In the periodic `do_flush`. -/
  | flushing
  /-- `if (req != flush_done_.load(...))`. -/
  | check
  | serving (stage : Serving) (req : Nat)
  | finalDraining
  | finalMerging
  | finalMerged
  | finalFlushing
  | finalFlushed
  /-- The last request has been loaded, not yet stored. -/
  | closing (req : Nat)
  | finished
deriving DecidableEq, Repr

/-- Where a thread stands in `flush`. Its own increment of `flush_request_` came after `since` of the collector's
events. -/
inductive CallerPc
  | idle
  | waitCursor (target : Nat)
  | waitDone (gen since : Nat)
  /-- `flush` has returned because its request was done, in a running session or not. -/
  | returned (since : Nat) (running : Bool)
  | gaveUp
deriving DecidableEq, Repr

structure HandshakeState (Caller : Type) where
  running : Bool
  /-- `ring_->initial_reading_index()`. -/
  ringIndex : Nat
  cursor : Nat
  flushRequest : Nat
  flushDone : Nat
  pc : RunPc
  callers : Caller → CallerPc
  log : List FlushEvent

inductive HandshakeAction (Caller : Type)
  /-- The collector thread takes its next step; `due` says whether the periodic flush is. -/
  | collector (due : Bool)
  /-- A pass has read the shared ring up to `k`. -/
  | readShared (k : Nat)
  /-- Some producer publishes into the shared ring. -/
  | publish
  | call (c : Caller)
  /-- The wait for the cursor ends, and the request is made. -/
  | request (c : Caller)
  | poll (c : Caller)
  /-- A wait ends because the session does. -/
  | giveUp (c : Caller)
  | shutdown

namespace HandshakeState

variable {Caller : Type} (s : HandshakeState Caller)

/-- The collector goes on to `pc` after the events `es`. -/
def goto (pc : RunPc) (es : List FlushEvent) : HandshakeState Caller := { s with pc := pc, log := s.log ++ es }

def collectorStep (due : Bool) : Option (HandshakeState Caller) :=
  match s.pc with
  | .head => some (if s.running then s.goto .draining [.mergeBegun] else s.goto .finalDraining [])
  | .draining => some (s.goto .drained [.mergeEnded])
  | .drained => some (if due then s.goto .flushing [.flushBegun] else s.goto .check [])
  | .flushing => some (s.goto .check [.flushEnded])
  | .check =>
      let req := s.flushRequest
      some (s.goto (if req ≠ s.flushDone then .serving .mergeDue req else .head) [])
  | .serving .mergeDue req => some (s.goto (.serving .merging req) [.mergeBegun])
  | .serving .merging req => some (s.goto (.serving .merged req) [.mergeEnded])
  | .serving .merged req => some (s.goto (.serving .flushing req) [.flushBegun])
  | .serving .flushing req => some (s.goto (.serving .flushed req) [.flushEnded])
  | .serving .flushed req => some { s.goto .head [] with flushDone := req }
  | .finalDraining => some (s.goto .finalMerging [.mergeBegun])
  | .finalMerging => some (s.goto .finalMerged [.mergeEnded])
  | .finalMerged => some (s.goto .finalFlushing [.flushBegun])
  | .finalFlushing => some (s.goto .finalFlushed [.flushEnded])
  | .finalFlushed => some (s.goto (.closing s.flushRequest) [])
  | .closing req => some { s.goto .finished [] with flushDone := req }
  | .finished => none

variable [DecidableEq Caller]

def setCaller (c : Caller) (pc : CallerPc) : HandshakeState Caller :=
  { s with callers := Function.update s.callers c pc }

def callerStep (c : Caller) (a : HandshakeAction Caller) : Option (HandshakeState Caller) :=
  match a, s.callers c with
  | .call _, .waitCursor _ => none
  | .call _, .waitDone _ _ => none
  | .call _, _ => some (s.setCaller c (.waitCursor s.ringIndex))
  | .request _, .waitCursor target =>
      -- a wait that the end of the session cuts short goes on to the increment all the same
      if target ≤ s.cursor ∨ s.running = false then
        some { s.setCaller c (.waitDone (s.flushRequest + 1) s.log.length) with flushRequest := s.flushRequest + 1 }
      else none
  | .poll _, .waitDone gen since =>
      some (if gen ≤ s.flushDone then s.setCaller c (.returned since s.running) else s)
  | .giveUp _, .waitDone _ _ => if s.running = false then some (s.setCaller c .gaveUp) else none
  | _, _ => none

end HandshakeState

/-- Every interleaving of the collector, the callers and the producers. A session begins with the counters as the one
before left them. -/
def handshakeSystem (Caller : Type) [DecidableEq Caller] :
    System (HandshakeState Caller) (HandshakeAction Caller) where
  Init s := s.running = true ∧ s.pc = .head ∧ (∀ c, s.callers c = .idle) ∧ s.log = [] ∧ s.flushDone ≤ s.flushRequest
  step a s :=
    match a with
    | .collector due => s.collectorStep due
    | .readShared k => if s.cursor ≤ k ∧ k ≤ s.ringIndex then some { s with cursor := k } else none
    | .publish => some { s with ringIndex := s.ringIndex + 1 }
    | .shutdown => some { s with running := false }
    | .call c => s.callerStep c a
    | .request c => s.callerStep c a
    | .poll c => s.callerStep c a
    | .giveUp c => s.callerStep c a

/-! ## What covers a request -/

/-- A `merge_pass`, then a `do_flush`. -/
def passAndFlush : List FlushEvent := [.mergeBegun, .mergeEnded, .flushBegun, .flushEnded]

/-- What the service of a request has begun and ended so far. -/
def Serving.seen : Serving → List FlushEvent
  | .mergeDue => []
  | .merging => [.mergeBegun]
  | .merged => [.mergeBegun, .mergeEnded]
  | .flushing => [.mergeBegun, .mergeEnded, .flushBegun]
  | .flushed => passAndFlush

def RunPc.isFinal : RunPc → Bool
  | .finalDraining => true
  | .finalMerging => true
  | .finalMerged => true
  | .finalFlushing => true
  | .finalFlushed => true
  | .closing _ => true
  | .finished => true
  | _ => false

section Invariant

variable {Caller : Type}

/-- A request `gen` made after `since` events is done only after a pass and a flush since; and one that is being served
has seen since what the service has done so far. -/
structure Covered (gen since : Nat) (s : HandshakeState Caller) : Prop where
  requested : gen ≤ s.flushRequest
  past : since ≤ s.log.length
  done : gen ≤ s.flushDone → passAndFlush.Sublist (s.log.drop since)
  serving : ∀ stage req, s.pc = .serving stage req → gen ≤ req → stage.seen.Sublist (s.log.drop since)

/-- What holds in every state. -/
structure HandshakeInv (s : HandshakeState Caller) : Prop where
  counters : s.flushDone ≤ s.flushRequest
  serving : ∀ stage req, s.pc = .serving stage req → s.flushDone < req ∧ req ≤ s.flushRequest
  closing : ∀ req, s.pc = .closing req → s.flushDone ≤ req ∧ req ≤ s.flushRequest
  live : s.running = true → s.pc.isFinal = false
  waiting : s.running = true → ∀ c gen since, s.callers c = .waitDone gen since → Covered gen since s
  returned : ∀ c since, s.callers c = .returned since true → passAndFlush.Sublist (s.log.drop since)

/-! ## Each step keeps it -/

theorem drop_append {since : Nat} {log : List FlushEvent} (h : since ≤ log.length) (es : List FlushEvent) :
    (log ++ es).drop since = log.drop since ++ es := List.drop_append_of_le_length h

variable {s s' : HandshakeState Caller} {gen since : Nat}

/-- The collector goes on without a request done. -/
theorem Covered.goto (h : Covered gen since s) (pc : RunPc) (es : List FlushEvent)
    (hserving : ∀ stage req, pc = .serving stage req → gen ≤ req →
      stage.seen.Sublist (s.log.drop since ++ es)) : Covered gen since (s.goto pc es) where
  requested := h.requested
  past := by
    have := h.past
    simp only [HandshakeState.goto, List.length_append]
    omega
  done hd := by
    rw [HandshakeState.goto, drop_append h.past]
    exact (h.done hd).trans (List.sublist_append_left _ _)
  serving stage req hpc hle := by
    rw [HandshakeState.goto, drop_append h.past]
    exact hserving stage req hpc hle

/-- The next event of a service. -/
theorem Covered.serve (h : Covered gen since s) {stage stage' : Serving} {req : Nat} {e : FlushEvent}
    (hpc : s.pc = .serving stage req) (hseen : stage'.seen = stage.seen ++ [e]) :
    Covered gen since (s.goto (.serving stage' req) [e]) := by
  refine h.goto _ _ fun stage'' req' heq hle => ?_
  cases heq
  rw [hseen]
  exact (h.serving stage req hpc hle).append (List.Sublist.refl _)

theorem Covered.collector (h : Covered gen since s) {due : Bool} (hrun : s.pc.isFinal = false)
    (hrunning : s.running = true) (hs : s.collectorStep due = some s') : Covered gen since s' := by
  unfold HandshakeState.collectorStep at hs
  cases hpc : s.pc with
  | head =>
      simp only [hpc, hrunning, if_true, Option.some.injEq] at hs
      subst hs
      exact h.goto _ _ fun _ _ heq => by cases heq
  | draining =>
      simp only [hpc, Option.some.injEq] at hs
      subst hs
      exact h.goto _ _ fun _ _ heq => by cases heq
  | drained =>
      simp only [hpc, Option.some.injEq] at hs
      subst hs
      split
      · exact h.goto _ _ fun _ _ heq => by cases heq
      · exact h.goto _ _ fun _ _ heq => by cases heq
  | flushing =>
      simp only [hpc, Option.some.injEq] at hs
      subst hs
      exact h.goto _ _ fun _ _ heq => by cases heq
  | check =>
      simp only [hpc, Option.some.injEq] at hs
      subst hs
      refine h.goto _ _ fun stage req heq _ => ?_
      split at heq
      · cases heq
        exact List.nil_sublist _
      · cases heq
  | serving stage req =>
      cases stage with
      | mergeDue =>
          simp only [hpc, Option.some.injEq] at hs
          subst hs
          exact h.serve hpc rfl
      | merging =>
          simp only [hpc, Option.some.injEq] at hs
          subst hs
          exact h.serve hpc rfl
      | merged =>
          simp only [hpc, Option.some.injEq] at hs
          subst hs
          exact h.serve hpc rfl
      | flushing =>
          simp only [hpc, Option.some.injEq] at hs
          subst hs
          exact h.serve hpc rfl
      | flushed =>
          simp only [hpc, Option.some.injEq] at hs
          subst hs
          have hgo := h.goto .head [] fun _ _ heq => by cases heq
          refine ⟨hgo.requested, hgo.past, fun hle => ?_, fun _ _ heq => by cases heq⟩
          have := h.serving .flushed req hpc hle
          rwa [HandshakeState.goto, List.append_nil]
  | finalDraining => simp [hpc, RunPc.isFinal] at hrun
  | finalMerging => simp [hpc, RunPc.isFinal] at hrun
  | finalMerged => simp [hpc, RunPc.isFinal] at hrun
  | finalFlushing => simp [hpc, RunPc.isFinal] at hrun
  | finalFlushed => simp [hpc, RunPc.isFinal] at hrun
  | closing req => simp [hpc, RunPc.isFinal] at hrun
  | finished => simp [hpc, RunPc.isFinal] at hrun

/-- A step of a caller or a producer moves neither the collector nor `flush_done_`. -/
theorem Covered.other (h : Covered gen since s) (hpc : s'.pc = s.pc) (hlog : s'.log = s.log)
    (hdone : s'.flushDone = s.flushDone) (hreq : s.flushRequest ≤ s'.flushRequest) : Covered gen since s' where
  requested := Nat.le_trans h.requested hreq
  past := by
    rw [hlog]
    exact h.past
  done hle := by
    rw [hlog]
    exact h.done (by rw [← hdone]; exact hle)
  serving stage req hs := by
    rw [hlog]
    exact h.serving stage req (by rw [← hpc]; exact hs)

/-- What a step of the collector does to the counters, and that it moves no caller. -/
structure CollectorMoves (s s' : HandshakeState Caller) : Prop where
  running : s'.running = s.running
  request : s'.flushRequest = s.flushRequest
  callers : s'.callers = s.callers
  log : ∃ es, s'.log = s.log ++ es
  done : s.flushDone ≤ s'.flushDone ∧ s'.flushDone ≤ s'.flushRequest
  serving : ∀ stage req, s'.pc = .serving stage req → s'.flushDone < req ∧ req ≤ s'.flushRequest
  closing : ∀ req, s'.pc = .closing req → s'.flushDone ≤ req ∧ req ≤ s'.flushRequest
  live : s.running = true → s'.pc.isFinal = false

/-- A move to a place that holds no request. -/
theorem CollectorMoves.goto (h : HandshakeInv s) {pc : RunPc} (es : List FlushEvent)
    (hserving : ∀ stage req, pc ≠ .serving stage req) (hclosing : ∀ req, pc ≠ .closing req)
    (hlive : s.running = true → pc.isFinal = false) : CollectorMoves s (s.goto pc es) where
  running := rfl
  request := rfl
  callers := rfl
  log := ⟨es, rfl⟩
  done := ⟨Nat.le_refl _, h.counters⟩
  serving stage req heq := absurd heq (hserving stage req)
  closing req heq := absurd heq (hclosing req)
  live := hlive

theorem CollectorMoves.serve (h : HandshakeInv s) {stage stage' : Serving} {req : Nat}
    (hpc : s.pc = .serving stage req) (es : List FlushEvent) :
    CollectorMoves s (s.goto (.serving stage' req) es) where
  running := rfl
  request := rfl
  callers := rfl
  log := ⟨es, rfl⟩
  done := ⟨Nat.le_refl _, h.counters⟩
  serving stage'' req' heq := by
    cases heq
    exact h.serving stage req hpc
  closing req' heq := by cases heq
  live _ := rfl

theorem collectorMoves (h : HandshakeInv s) {due : Bool} (hs : s.collectorStep due = some s') :
    CollectorMoves s s' := by
  unfold HandshakeState.collectorStep at hs
  have hfinal : s.pc.isFinal = true → ∀ pc : RunPc, s.running = true → pc.isFinal = false := fun hf pc hr => by
    have := h.live hr
    rw [hf] at this
    cases this
  cases hpc : s.pc with
  | head =>
      simp only [hpc, Option.some.injEq] at hs
      subst hs
      split
      · exact .goto h _ nofun nofun fun _ => rfl
      · rename_i hr
        exact .goto h _ nofun nofun fun hrun => absurd hrun hr
  | draining =>
      simp only [hpc, Option.some.injEq] at hs
      subst hs
      exact .goto h _ nofun nofun fun _ => rfl
  | drained =>
      simp only [hpc, Option.some.injEq] at hs
      subst hs
      split
      · exact .goto h _ nofun nofun fun _ => rfl
      · exact .goto h _ nofun nofun fun _ => rfl
  | flushing =>
      simp only [hpc, Option.some.injEq] at hs
      subst hs
      exact .goto h _ nofun nofun fun _ => rfl
  | check =>
      simp only [hpc, Option.some.injEq] at hs
      subst hs
      split
      · rename_i hne
        have hcounters := h.counters
        refine ⟨rfl, rfl, rfl, ⟨[], rfl⟩, ⟨Nat.le_refl _, h.counters⟩, fun stage req heq => ?_, nofun, fun _ => rfl⟩
        cases heq
        exact ⟨Nat.lt_of_le_of_ne hcounters (Ne.symm hne), Nat.le_refl _⟩
      · exact .goto h _ nofun nofun fun _ => rfl
  | serving stage req =>
      cases stage with
      | mergeDue =>
          simp only [hpc, Option.some.injEq] at hs
          subst hs
          exact .serve h hpc _
      | merging =>
          simp only [hpc, Option.some.injEq] at hs
          subst hs
          exact .serve h hpc _
      | merged =>
          simp only [hpc, Option.some.injEq] at hs
          subst hs
          exact .serve h hpc _
      | flushing =>
          simp only [hpc, Option.some.injEq] at hs
          subst hs
          exact .serve h hpc _
      | flushed =>
          simp only [hpc, Option.some.injEq] at hs
          subst hs
          obtain ⟨hlt, hle⟩ := h.serving .flushed req hpc
          exact ⟨rfl, rfl, rfl, ⟨[], rfl⟩, ⟨Nat.le_of_lt hlt, hle⟩, nofun, nofun, fun _ => rfl⟩
  | finalDraining =>
      simp only [hpc, Option.some.injEq] at hs
      subst hs
      exact .goto h _ nofun nofun (hfinal (by rw [hpc]; rfl) _)
  | finalMerging =>
      simp only [hpc, Option.some.injEq] at hs
      subst hs
      exact .goto h _ nofun nofun (hfinal (by rw [hpc]; rfl) _)
  | finalMerged =>
      simp only [hpc, Option.some.injEq] at hs
      subst hs
      exact .goto h _ nofun nofun (hfinal (by rw [hpc]; rfl) _)
  | finalFlushing =>
      simp only [hpc, Option.some.injEq] at hs
      subst hs
      exact .goto h _ nofun nofun (hfinal (by rw [hpc]; rfl) _)
  | finalFlushed =>
      simp only [hpc, Option.some.injEq] at hs
      subst hs
      refine ⟨rfl, rfl, rfl, ⟨[], rfl⟩, ⟨Nat.le_refl _, h.counters⟩, nofun, fun req heq => ?_,
        hfinal (by rw [hpc]; rfl) _⟩
      cases heq
      exact ⟨h.counters, Nat.le_refl _⟩
  | closing req =>
      simp only [hpc, Option.some.injEq] at hs
      subst hs
      exact ⟨rfl, rfl, rfl, ⟨[], rfl⟩, h.closing req hpc, nofun, nofun, hfinal (by rw [hpc]; rfl) .finished⟩
  | finished =>
      simp only [hpc] at hs
      cases hs

/-- A move of one caller, which may add a request. -/
theorem HandshakeInv.caller [DecidableEq Caller] (h : HandshakeInv s) (c : Caller) (pc : CallerPc) {request : Nat}
    (hreq : s.flushRequest ≤ request)
    (hwait : ∀ gen since, pc = .waitDone gen since → s.running = true →
      Covered gen since { s.setCaller c pc with flushRequest := request })
    (hret : ∀ since, pc = .returned since true → passAndFlush.Sublist (s.log.drop since)) :
    HandshakeInv { s.setCaller c pc with flushRequest := request } where
  counters := Nat.le_trans h.counters hreq
  serving stage req hpc := ⟨(h.serving stage req hpc).1, Nat.le_trans (h.serving stage req hpc).2 hreq⟩
  closing req hpc := ⟨(h.closing req hpc).1, Nat.le_trans (h.closing req hpc).2 hreq⟩
  live := h.live
  waiting hrun c' gen since hc' := by
    have hc' : Function.update s.callers c pc c' = .waitDone gen since := hc'
    rw [Function.update_apply] at hc'
    split at hc'
    · exact hwait gen since hc' hrun
    · exact (h.waiting hrun c' gen since hc').other rfl rfl rfl hreq
  returned c' since hc' := by
    have hc' : Function.update s.callers c pc c' = .returned since true := hc'
    rw [Function.update_apply] at hc'
    split at hc'
    · exact hret since hc'
    · exact h.returned c' since hc'

theorem HandshakeInv.callerStep [DecidableEq Caller] (h : HandshakeInv s) {c : Caller} {a : HandshakeAction Caller}
    (hs : s.callerStep c a = some s') : HandshakeInv s' := by
  unfold HandshakeState.callerStep at hs
  split at hs
  · cases hs
  · cases hs
  · cases hs
    exact h.caller c (.waitCursor s.ringIndex) (Nat.le_refl _) nofun nofun
  · rename_i target hcaller
    split at hs
    · cases hs
      -- the new request is above every request done or being served
      refine h.caller c (.waitDone (s.flushRequest + 1) s.log.length) (Nat.le_succ _) (fun gen since heq _ => ?_) nofun
      cases heq
      refine ⟨Nat.le_refl _, Nat.le_refl _, fun hle => ?_, fun stage req hpc hle => ?_⟩
      · have := h.counters
        simp only [HandshakeState.setCaller] at hle
        omega
      · have := (h.serving stage req hpc).2
        omega
    · cases hs
  · rename_i gen since hcaller
    split at hs
    · rename_i hle
      cases hs
      refine h.caller c (.returned since s.running) (Nat.le_refl _) nofun fun since' heq => ?_
      simp only [CallerPc.returned.injEq] at heq
      obtain ⟨rfl, hrun⟩ := heq
      exact (h.waiting hrun c gen since hcaller).done hle
    · cases hs
      exact h
  · split at hs
    · cases hs
      exact h.caller c .gaveUp (Nat.le_refl _) nofun nofun
    · cases hs
  · cases hs

theorem HandshakeInv.collector (h : HandshakeInv s) {due : Bool} (hs : s.collectorStep due = some s') :
    HandshakeInv s' := by
  have hmoves := collectorMoves h hs
  obtain ⟨es, hlog⟩ := hmoves.log
  refine ⟨hmoves.done.2, hmoves.serving, hmoves.closing, fun hr => hmoves.live (by rw [← hmoves.running]; exact hr),
    fun hr c gen since hc => ?_, fun c since hc => ?_⟩
  · rw [hmoves.running] at hr
    rw [hmoves.callers] at hc
    exact (h.waiting hr c gen since hc).collector (h.live hr) hr hs
  · rw [hmoves.callers] at hc
    have hold := h.returned c since hc
    have hpast : since ≤ s.log.length := by
      by_contra hlt
      rw [List.drop_eq_nil_of_le (by omega)] at hold
      cases hold
    rw [hlog, drop_append hpast]
    exact hold.trans (List.sublist_append_left _ _)

theorem HandshakeInv.step [DecidableEq Caller] (h : HandshakeInv s) {a : HandshakeAction Caller}
    (hs : (handshakeSystem Caller).step a s = some s') : HandshakeInv s' := by
  cases a with
  | collector due => exact h.collector hs
  | readShared k =>
      simp only [handshakeSystem] at hs
      split at hs
      · cases hs
        exact ⟨h.counters, h.serving, h.closing, h.live,
          fun hr c gen since hc => (h.waiting hr c gen since hc).other rfl rfl rfl (Nat.le_refl _), h.returned⟩
      · cases hs
  | publish =>
      simp only [handshakeSystem, Option.some.injEq] at hs
      subst hs
      exact ⟨h.counters, h.serving, h.closing, h.live,
        fun hr c gen since hc => (h.waiting hr c gen since hc).other rfl rfl rfl (Nat.le_refl _), h.returned⟩
  | shutdown =>
      simp only [handshakeSystem, Option.some.injEq] at hs
      subst hs
      exact ⟨h.counters, h.serving, h.closing, nofun, nofun, h.returned⟩
  | call c => exact h.callerStep hs
  | request c => exact h.callerStep hs
  | poll c => exact h.callerStep hs
  | giveUp c => exact h.callerStep hs

theorem handshakeInv_reachable [DecidableEq Caller] (hs : (handshakeSystem Caller).Reachable s) : HandshakeInv s := by
  refine hs.invariant (fun s h0 => ?_) fun a s s' h hs => h.step hs
  obtain ⟨hrun, hpc, hidle, hlog, hcounters⟩ := h0
  refine ⟨hcounters, ?_, ?_, ?_, ?_, ?_⟩
  · intro stage req heq
    rw [hpc] at heq
    cases heq
  · intro req heq
    rw [hpc] at heq
    cases heq
  · intro _
    rw [hpc]
    rfl
  · intro _ c gen since hc
    rw [hidle] at hc
    cases hc
  · intro c since hc
    rw [hidle] at hc
    cases hc

/-! ## No request is lost -/

/-- The request `req`, found after `since` events, is being served or done. -/
structure TakenUp (req since : Nat) (s : HandshakeState Caller) : Prop where
  past : since ≤ s.log.length
  served : (∃ stage, s.pc = .serving stage req ∧ stage.seen.Sublist (s.log.drop since)) ∨
    req ≤ s.flushDone ∧ passAndFlush.Sublist (s.log.drop since)

theorem TakenUp.collector {req : Nat} (h : TakenUp req since s) (hinv : HandshakeInv s) {due : Bool}
    (hs : s.collectorStep due = some s') : TakenUp req since s' := by
  have hmoves := collectorMoves hinv hs
  obtain ⟨es, hlog⟩ := hmoves.log
  have hpast : since ≤ s'.log.length := by
    rw [hlog, List.length_append]
    exact Nat.le_trans h.past (Nat.le_add_right _ _)
  refine ⟨hpast, ?_⟩
  rcases h.served with ⟨stage, hpc, hseen⟩ | ⟨hle, hseen⟩
  · unfold HandshakeState.collectorStep at hs
    have hnext : ∀ {stage' : Serving} {e : FlushEvent}, stage'.seen = stage.seen ++ [e] →
        s' = s.goto (.serving stage' req) [e] →
        ∃ stage, s'.pc = .serving stage req ∧ stage.seen.Sublist (s'.log.drop since) := by
      rintro stage' e heq rfl
      refine ⟨stage', rfl, ?_⟩
      rw [HandshakeState.goto, drop_append h.past, heq]
      exact hseen.append (List.Sublist.refl _)
    cases stage with
    | mergeDue =>
        simp only [hpc, Option.some.injEq] at hs
        exact Or.inl (hnext rfl hs.symm)
    | merging =>
        simp only [hpc, Option.some.injEq] at hs
        exact Or.inl (hnext rfl hs.symm)
    | merged =>
        simp only [hpc, Option.some.injEq] at hs
        exact Or.inl (hnext rfl hs.symm)
    | flushing =>
        simp only [hpc, Option.some.injEq] at hs
        exact Or.inl (hnext rfl hs.symm)
    | flushed =>
        simp only [hpc, Option.some.injEq] at hs
        subst hs
        refine Or.inr ⟨Nat.le_refl _, ?_⟩
        simp only [HandshakeState.goto, List.append_nil]
        exact hseen
  · refine Or.inr ⟨Nat.le_trans hle hmoves.done.1, ?_⟩
    rw [hlog, drop_append h.past]
    exact hseen.trans (List.sublist_append_left _ _)

/-- A step that is not the collector's does not touch what the collector alone writes. -/
theorem step_others [DecidableEq Caller] {a : HandshakeAction Caller}
    (hs : (handshakeSystem Caller).step a s = some s') :
    (∃ due, s.collectorStep due = some s') ∨ s'.pc = s.pc ∧ s'.log = s.log ∧ s'.flushDone = s.flushDone := by
  have hcaller : ∀ {c : Caller}, s.callerStep c a = some s' →
      s'.pc = s.pc ∧ s'.log = s.log ∧ s'.flushDone = s.flushDone := by
    intro c hs
    unfold HandshakeState.callerStep at hs
    split at hs
    · cases hs
    · cases hs
    · cases hs
      exact ⟨rfl, rfl, rfl⟩
    · split at hs
      · cases hs
        exact ⟨rfl, rfl, rfl⟩
      · cases hs
    · split at hs
      · cases hs
        exact ⟨rfl, rfl, rfl⟩
      · cases hs
        exact ⟨rfl, rfl, rfl⟩
    · split at hs
      · cases hs
        exact ⟨rfl, rfl, rfl⟩
      · cases hs
    · cases hs
  cases a with
  | collector due => exact Or.inl ⟨due, hs⟩
  | readShared k =>
      simp only [handshakeSystem] at hs
      split at hs
      · cases hs
        exact Or.inr ⟨rfl, rfl, rfl⟩
      · cases hs
  | publish =>
      simp only [handshakeSystem, Option.some.injEq] at hs
      subst hs
      exact Or.inr ⟨rfl, rfl, rfl⟩
  | shutdown =>
      simp only [handshakeSystem, Option.some.injEq] at hs
      subst hs
      exact Or.inr ⟨rfl, rfl, rfl⟩
  | call c => exact Or.inr (hcaller hs)
  | request c => exact Or.inr (hcaller hs)
  | poll c => exact Or.inr (hcaller hs)
  | giveUp c => exact Or.inr (hcaller hs)

theorem TakenUp.runs [DecidableEq Caller] {req : Nat} (h : TakenUp req since s)
    (hs : (handshakeSystem Caller).Reachable s) (hr : (handshakeSystem Caller).Runs s s') : TakenUp req since s' := by
  have hall : (handshakeSystem Caller).Reachable s' ∧ TakenUp req since s' := by
    induction hr with
    | refl => exact ⟨hs, h⟩
    | step a _ hstep ih =>
        refine ⟨.step a ih.1 hstep, ?_⟩
        rcases step_others hstep with ⟨due, hc⟩ | ⟨hpc, hlog, hdone⟩
        · exact ih.2.collector (handshakeInv_reachable ih.1) hc
        · refine ⟨by rw [hlog]; exact ih.2.past, ?_⟩
          rw [hpc, hlog, hdone]
          exact ih.2.served
  exact hall.2

end Invariant

/-- For any number of callers and every interleaving with the loop: a `flush` that returns from a running session has had
a pass and a flush, both begun after its own increment; `flush_done_` never falls, and never passes `flush_request_`; and
a check that finds it behind starts serving the request it finds, after which the service goes on, or the request is
done and a pass and a flush have been begun and ended since the check. -/
theorem flush_handshake {Caller : Type} [DecidableEq Caller] {s : HandshakeState Caller}
    (hs : (handshakeSystem Caller).Reachable s) :
    (∀ c since, s.callers c = .returned since true → passAndFlush.Sublist (s.log.drop since)) ∧
    s.flushDone ≤ s.flushRequest ∧
    (∀ a s', (handshakeSystem Caller).step a s = some s' → s.flushDone ≤ s'.flushDone) ∧
    ∀ due s', s.pc = .check → s.flushDone < s.flushRequest →
      (handshakeSystem Caller).step (.collector due) s = some s' →
        s'.pc = .serving .mergeDue s.flushRequest ∧
        ∀ s'', (handshakeSystem Caller).Runs s' s'' →
          (∃ stage, s''.pc = .serving stage s.flushRequest ∧ stage.seen.Sublist (s''.log.drop s.log.length)) ∨
          s.flushRequest ≤ s''.flushDone ∧ passAndFlush.Sublist (s''.log.drop s.log.length) := by
  have hinv := handshakeInv_reachable hs
  refine ⟨hinv.returned, hinv.counters, fun a s' hstep => ?_, fun due s' hpc hlt hstep => ?_⟩
  · rcases step_others hstep with ⟨due, hc⟩ | ⟨-, -, hdone⟩
    · exact (collectorMoves hinv hc).done.1
    · exact Nat.le_of_eq hdone.symm
  · have hs' := hs.step _ hstep
    have hstep : s.collectorStep due = some s' := hstep
    rw [HandshakeState.collectorStep, hpc] at hstep
    simp only [Option.some.injEq] at hstep
    rw [if_pos (Nat.ne_of_gt hlt)] at hstep
    subst hstep
    have hstart : TakenUp s.flushRequest s.log.length (s.goto (.serving .mergeDue s.flushRequest) []) :=
      ⟨by simp [HandshakeState.goto], Or.inl ⟨.mergeDue, rfl, List.nil_sublist _⟩⟩
    exact ⟨rfl, fun s'' hr => (hstart.runs hs' hr).served⟩

/-- One call while a periodic flush is due, and a second that comes during its service. -/
def twoFlushes : List (HandshakeAction Bool) :=
  [.call false, .request false, .collector true, .collector true, .collector true, .collector true, .collector true,
    .call true, .request true] ++ List.replicate 5 (.collector false) ++ [.poll false, .poll true]

theorem flush_handshake_twoFlushes :
    ∃ s : HandshakeState Bool, s.callers false = .returned 0 true ∧ s.callers true = .waitDone 2 4 ∧
      s.flushDone = 1 ∧ passAndFlush.Sublist (s.log.drop 0) := by
  let M := handshakeSystem Bool
  let s₀ : HandshakeState Bool := ⟨true, 0, 0, 0, 0, .head, fun _ => .idle, []⟩
  have hinit : M.Init s₀ := ⟨rfl, rfl, fun _ => rfl, rfl, Nat.le_refl _⟩
  have hrun : (M.run twoFlushes s₀).isSome := by decide
  obtain ⟨s, hs⟩ := Option.isSome_iff_exists.mp hrun
  have hend : (M.run twoFlushes s₀).map (fun s => (s.callers false, s.callers true, s.flushDone)) =
      some (.returned 0 true, .waitDone 2 4, 1) := by decide
  rw [hs] at hend
  obtain ⟨h1, h2, h3⟩ := by simpa using hend
  exact ⟨s, h1, h2, h3, (flush_handshake ((System.Reachable.init hinit).run hs)).1 false 0 h1⟩

end SlickPerfmon
