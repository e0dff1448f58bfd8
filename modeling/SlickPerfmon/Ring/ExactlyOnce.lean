import SlickPerfmon.Ring.Lemmas.PathInv

/-!
# Every call is published once

Over every interleaving of stamping threads, sessions that come and go, exits, deaths and one collector: what a
thread's calls have published is what it called, in the order it called it; a ring holds what was published into it
across all of its owners; and the collector takes each of a ring's samples once, whole, or counts it lost.
-/

namespace SlickPerfmon

open Library

variable {Thread Session Module Process : Type} [DecidableEq Thread] [DecidableEq Session] [DecidableEq Module]
  [DecidableEq Process] {d : Deployment Thread Session Module Process} {count mask k : Nat} {self : UInt32}
  {st : PathState Thread Session Module Process}

/-- **Exactly once.** The calls of a thread that found a session are its publications in that order, with at most the
call under way still to come; each publication carries its call's point, event and value; a ring's slots hold the newest
of all that its owners published; and between the cursor the collector began with and the one it has, it has taken
published samples, each once and in order, and counted all others lost. -/
theorem calls_publish_once (hk : mask + 1 = 2 ^ k) (h : (pathSystem d count mask self).Reachable st) :
    (∀ t, st.accepted t =
      (st.history.filter fun x => x.thread = t).map HotRecord.call ++ ((st.calls t).map Calling.call).toList) ∧
    (∀ x ∈ st.history, x.sample.point = x.call.point ∧ x.sample.event = x.call.event ∧
      ∀ v, x.call.payload = some v → x.sample.timestamp = v) ∧
    (∀ r, st.table.head r = (st.published r).length ∧
      ∀ i x, (st.published r)[i]? = some x → st.table.head r ≤ i + mask → st.slots r (i &&& mask) = x) ∧
    (∀ r, (st.taken r).Pairwise (fun y z => y.1 < z.1) ∧
      (∀ y ∈ st.taken r, st.initial r ≤ y.1 ∧ y.1 < st.table.cursor r ∧ (st.published r)[y.1]? = some y.2) ∧
      (st.taken r).length + st.lost r = st.table.cursor r - st.initial r ∧
      st.initial r ≤ st.table.cursor r ∧ st.table.cursor r ≤ st.table.head r) := by
  have hinv := PathInv.reachable hk h
  refine ⟨hinv.accepted, hinv.faithful, fun r => ⟨(hinv.rings r).head, (hinv.rings r).slots⟩, fun r => ?_⟩
  have hled : st.table.cursor r = st.initial r + (st.taken r).length + st.lost r := (hinv.rings r).ledger
  have hbound : st.table.cursor r ≤ st.table.head r := (hinv.rings r).bound
  exact ⟨(hinv.taken r).1, (hinv.taken r).2, by omega, by omega, hbound⟩

/-! ### One ring, two owners -/

def twoOwnersState : PathState Bool Bool Bool Unit where
  table :=
    ⟨fun _ => 0, fun _ => kRingFree, fun _ => none, fun _ => none, fun _ => .unborn,
      fun _ => ⟨0, none, 0, 0, 0, .idle⟩, fun _ => false, fun _ => none, fun _ => 0, 0, .anchor 0⟩
  slots _ _ := default
  calls _ := none
  writing _ := .idle
  copying := none
  earlier _ := []
  history := []
  accepted _ := []
  initial _ := 0
  taken _ := []
  lost _ := 0

theorem twoOwnersInit : PathInit 3 twoOwnersState where
  table :=
    ⟨fun _ => rfl, fun _ => rfl, fun _ => rfl, fun _ => rfl, fun _ => rfl, fun _ => rfl, fun _ => rfl,
      fun _ => Nat.le_refl _, rfl⟩
  length _ := rfl
  slots r i x hi := by simp [twoOwnersState] at hi
  calls _ := rfl
  writing _ := rfl
  copying := rfl
  history := rfl
  accepted _ := rfl
  initial _ := rfl
  taken _ := rfl
  lost _ := rfl

/-- The first thread begins a span, records a value and exits; the collector reads and frees its ring; the second
thread ends the span there. -/
def twoOwnersRun : List (PathAction Bool Bool Bool Unit) :=
  List.flatten
    [[.table (.spawn ()), .table (.start false), .table (.start false), .table .work, .table .work],
      [.stamp false (.beginSpan 1 5), .go false, .go false, .go false, .readTsc false 100],
      List.replicate 5 (.go false), [.stamp false (.value 2 42)], List.replicate 5 (.go false),
      [.table (.exit false), .go false, .read 0 16], List.replicate 6 .load, [.consume 2],
      [.table .release, .table .work, .table .work, .table .work],
      [.table (.start true), .table (.start true), .stamp true (.endSpan 1 5), .readTsc true 130],
      List.replicate 8 (.go true)]

theorem calls_publish_once_twoOwners :
    ∃ st : PathState Bool Bool Bool Unit,
      st.published 0 = [⟨100, 1, makeEvent kBeginStep 5⟩, ⟨42, 2, makeEvent kValueStep 0⟩,
        ⟨130, 1, makeEvent kEndStep 5⟩] ∧
      st.accepted false = [.beginSpan 1 5, .value 2 42] ∧ st.accepted true = [.endSpan 1 5] ∧
      st.slots 0 2 = ⟨130, 1, makeEvent kEndStep 5⟩ ∧
      ∀ y ∈ st.taken 0, (st.published 0)[y.1]? = some y.2 := by
  let M := pathSystem handoverDeployment 1 3 9
  have hinit : M.Init twoOwnersState := twoOwnersInit
  have hrun : (M.run twoOwnersRun twoOwnersState).map (fun st =>
      (st.earlier 0, st.history, st.calls false, st.calls true, st.table.head 0)) =
      some ([], [⟨false, some 0, .beginSpan 1 5, ⟨100, 1, makeEvent kBeginStep 5⟩⟩,
        ⟨false, some 0, .value 2 42, ⟨42, 2, makeEvent kValueStep 0⟩⟩,
        ⟨true, some 0, .endSpan 1 5, ⟨130, 1, makeEvent kEndStep 5⟩⟩], none, none, 3) := by
    decide +kernel
  obtain ⟨st, hst, hend⟩ := Option.map_eq_some_iff.mp hrun
  simp only [Prod.mk.injEq] at hend
  obtain ⟨hearlier, hhistory, hfirst, hsecond, hhead⟩ := hend
  obtain ⟨hcalls, -, hslots, htaken⟩ := calls_publish_once (k := 2) rfl ((System.Reachable.init hinit).run hst)
  have hpublished : st.published 0 = [⟨100, 1, makeEvent kBeginStep 5⟩, ⟨42, 2, makeEvent kValueStep 0⟩,
      ⟨130, 1, makeEvent kEndStep 5⟩] := by
    simp [PathState.published, hearlier, hhistory]
  refine ⟨st, hpublished, ?_, ?_, (hslots 0).2 2 _ (by rw [hpublished]; rfl) (by rw [hhead]; decide),
    fun y hy => ((htaken 0).2.1 y hy).2.2⟩
  · rw [hcalls, hhistory, hfirst]
    rfl
  · rw [hcalls, hhistory, hsecond]
    rfl

end SlickPerfmon
